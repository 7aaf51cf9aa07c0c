import Solang.Codegen.Expression

/-!
# Concatenation

`bytes_concat` of `codegen/constant_folding.rs`: adjacent literals become one, empty ones are dropped, and what
is left alone takes the place of the concatenation. The bytes stay the same. The concatenation would make a new
object, and an argument that is left alone does not.
-/

namespace Solang.Codegen.ConstantFolding

/-! ## The rewrite -/

/-- The body of the loop over the folded arguments, on `last` and `res`. It is not reached with a size of a
literal that is not one. -/
def concatStep (s : Option Expression × List Expression) (expr : Expression) :
    Option (Option Expression × List Expression) :=
  match expr with
  | .unary (.allocDynamicBytes _ (some bs)) _ =>
    if bs.isEmpty then some s
    else
      match s.1 with
      | some (.unary (.allocDynamicBytes ty (some init)) size) =>
        match size with
        | .numberLiteral sizeTy value =>
          let size := .numberLiteral sizeTy (value + bs.length)
          some (some (.unary (.allocDynamicBytes ty (some (init ++ bs))) size), s.2)
        | _ => none
      | _ => some (some expr, s.2)
  | _ => some (none, s.2 ++ s.1.toList ++ [expr])

/-- What is made of `last` and `res` -/
def concatResult (last : Option Expression) (res : List Expression) : Expression :=
  if res.isEmpty then
    last.getD (.unary (.allocDynamicBytes .dynamicBytes none) (.numberLiteral (.uint 32) 0))
  else
    match res ++ last.toList with
    | [expr] => expr
    | res => .nary (.builtin [.dynamicBytes] .concat) res

/-- `bytes_concat`; `fold` is the folding of an argument. -/
def bytesConcat (fold : Expression → Expression) (args : List Expression) : Option Expression := do
  let (last, res) ← (args.map fold).foldlM concatStep (none, [])
  some (concatResult last res)

/-! ## Objects -/

/-- The bytes of the objects, in the order in which they were made -/
abbrev Heap := List (List UInt8)

/-- A null pointer is a vector without bytes. -/
abbrev Ptr := Option Nat

def Heap.bytes (h : Heap) (p : Ptr) : List UInt8 := (p.bind fun i => h[i]?).getD []

def Heap.alloc (h : Heap) (bytes : List UInt8) : Ptr × Heap := (some h.length, h ++ [bytes])

/-- `vector_new`. The bytes after the end of the constant, which are not read for the size of a literal, stand
for those of the next one. -/
def Heap.vectorNew (h : Heap) (size : Nat) : Option (List UInt8) → Ptr × Heap
  | some init => if init.isEmpty then (none, h) else h.alloc (init.takeD size 0)
  | none => h.alloc (List.replicate size 0)

/-- The values of the other expressions, with these objects and those made since: they make objects but change
none, and their bytes do not depend on objects that were made before them. -/
structure RunTime (h : Heap) where
  value : Expression → Heap → Ptr × Heap
  grows : ∀ e h', h <+: h' → h' <+: (value e h').2
  valid : ∀ e h', h <+: h' → ∀ p, (value e h').1 = some p → p < (value e h').2.length
  stable : ∀ e h', h <+: h' → (value e h').2.bytes (value e h').1 = (value e h).2.bytes (value e h).1

section Eval

variable {h : Heap} (rt : RunTime h)

mutual

/-- The value of an expression of type `bytes` or `string`, before a later pass makes slices -/
def eval : Expression → Heap → Ptr × Heap
  | .unary (.allocDynamicBytes _ init) (.numberLiteral _ size), h => h.vectorNew size.toNat init
  | .nary (.builtin _ .concat) args, h =>
    let (ptrs, h) := evalArgs args h
    h.alloc (ptrs.flatMap h.bytes)
  | e, h => rt.value e h

def evalArgs : List Expression → Heap → List Ptr × Heap
  | [], h => ([], h)
  | e :: es, h =>
    let (p, h) := eval e h
    let (ps, h) := evalArgs es h
    (p :: ps, h)

end

/-- The bytes of an expression -/
def bytesOf (e : Expression) : List UInt8 := (eval rt e h).2.bytes (eval rt e h).1

/-- The value is none of the objects that there were. -/
def Fresh (e : Expression) : Prop := ∀ p, (eval rt e h).1 = some p → h.length ≤ p

end Eval

/-! ## Values under more objects -/

section Heap

variable {h h' : Heap} {p : Ptr}

theorem Heap.bytes_of_prefix (hle : h <+: h') (hp : ∀ i, p = some i → i < h.length) : h'.bytes p = h.bytes p := by
  cases p with
  | none => rfl
  | some i =>
    obtain ⟨made, rfl⟩ := hle
    show ((h ++ made)[i]?).getD [] = (h[i]?).getD []
    rw [List.getElem?_append_left (hp i rfl)]

@[simp] theorem Heap.bytes_alloc (bytes : List UInt8) : (h.alloc bytes).2.bytes (h.alloc bytes).1 = bytes := by
  simp [Heap.alloc, Heap.bytes]

theorem Heap.alloc_valid (bytes : List UInt8) {i : Nat} (hi : (h.alloc bytes).1 = some i) :
    i < (h.alloc bytes).2.length := by
  cases hi
  simp [Heap.alloc]

end Heap

/-- A value that is a null pointer or one of the objects, has these bytes, and is made without a change to an
object -/
structure Makes (h : Heap) (bytes : List UInt8) (r : Ptr × Heap) : Prop where
  grows : h <+: r.2
  valid : ∀ p, r.1 = some p → p < r.2.length
  bytes_eq : r.2.bytes r.1 = bytes

theorem makes_alloc (h : Heap) (bytes : List UInt8) : Makes h bytes (h.alloc bytes) :=
  ⟨List.prefix_append _ _, fun _ hi => Heap.alloc_valid bytes hi, Heap.bytes_alloc bytes⟩

theorem makes_vectorNew (h : Heap) (size : Nat) (init : Option (List UInt8)) :
    Makes h (match init with
      | some init => if init.isEmpty then [] else init.takeD size 0
      | none => List.replicate size 0) (h.vectorNew size init) := by
  cases init with
  | none => exact makes_alloc h _
  | some init =>
    unfold Heap.vectorNew
    dsimp only
    split
    next => exact ⟨List.prefix_rfl, nofun, rfl⟩
    next => exact makes_alloc h _

/-- The values of a list, whose bytes these are -/
structure MakesAll (h : Heap) (bytes : List (List UInt8)) (r : List Ptr × Heap) : Prop where
  grows : h <+: r.2
  valid : ∀ p, some p ∈ r.1 → p < r.2.length
  bytes_eq : r.1.map r.2.bytes = bytes

section Eval

variable {h : Heap} (rt : RunTime h)

theorem eval_value {e : Expression} (h' : Heap)
    (halloc : ∀ ty init sizeTy size, e ≠ .unary (.allocDynamicBytes ty init) (.numberLiteral sizeTy size))
    (hconcat : ∀ tys args, e ≠ .nary (.builtin tys .concat) args) : eval rt e h' = rt.value e h' := by
  rw [eval.eq_def]
  split
  next => exact absurd rfl (halloc _ _ _ _)
  next => exact absurd rfl (hconcat _ _)
  next => rfl

theorem eval_concat (tys : List Ty) (args : List Expression) (h' : Heap) :
    eval rt (.nary (.builtin tys .concat) args) h' =
      (evalArgs rt args h').2.alloc ((evalArgs rt args h').1.map (evalArgs rt args h').2.bytes).flatten := by
  rw [eval, ← List.flatMap_def]

mutual

/-- With more objects an expression has the same bytes. -/
theorem eval_makes (e : Expression) {h' : Heap} (hle : h <+: h') : Makes h' (bytesOf rt e) (eval rt e h') := by
  by_cases hconcat : ∃ tys args, e = .nary (.builtin tys .concat) args
  · obtain ⟨tys, args, he⟩ := hconcat
    have hargs := evalArgs_makes args hle
    have hargs' := evalArgs_makes args (List.prefix_rfl : h <+: h)
    have hbytes : bytesOf rt e = (args.map (bytesOf rt)).flatten := by
      rw [he, bytesOf, eval_concat, Heap.bytes_alloc, hargs'.bytes_eq]
    have hmakes := makes_alloc (evalArgs rt args h').2 (args.map (bytesOf rt)).flatten
    rw [hbytes, he, eval_concat, hargs.bytes_eq]
    exact ⟨hargs.grows.trans hmakes.grows, hmakes.valid, hmakes.bytes_eq⟩
  · by_cases halloc : ∃ ty init sizeTy size, e = .unary (.allocDynamicBytes ty init) (.numberLiteral sizeTy size)
    · obtain ⟨ty, init, sizeTy, size, rfl⟩ := halloc
      have hbytes := (makes_vectorNew h size.toNat init).bytes_eq
      rw [bytesOf, eval, hbytes]
      exact makes_vectorNew h' size.toNat init
    · push Not at hconcat halloc
      have heval := fun h' => eval_value rt h' halloc hconcat
      rw [bytesOf, heval, heval]
      exact ⟨rt.grows e h' hle, rt.valid e h' hle, rt.stable e h' hle⟩
termination_by sizeOf e
decreasing_by all_goals rw [he]; simp only [Expression.nary.sizeOf_spec]; omega

theorem evalArgs_makes (es : List Expression) {h' : Heap} (hle : h <+: h') :
    MakesAll h' (es.map (bytesOf rt)) (evalArgs rt es h') := by
  match es with
  | [] => exact ⟨List.prefix_rfl, nofun, rfl⟩
  | e :: es =>
    have he := eval_makes e hle
    have hes := evalArgs_makes es (hle.trans he.grows)
    rw [evalArgs]
    refine ⟨he.grows.trans hes.grows, fun p hp => ?_, ?_⟩
    · obtain hp | hp := List.mem_cons.mp hp
      · exact (he.valid p hp.symm).trans_le hes.grows.length_le
      · exact hes.valid p hp
    · rw [List.map_cons, List.map_cons, hes.bytes_eq, Heap.bytes_of_prefix hes.grows he.valid, he.bytes_eq]
termination_by sizeOf es

end

/-- A concatenation has the bytes of its arguments and is a new object. -/
theorem concat_bytes (tys : List Ty) (args : List Expression) :
    bytesOf rt (.nary (.builtin tys .concat) args) = args.flatMap (bytesOf rt) := by
  rw [bytesOf, eval_concat, Heap.bytes_alloc, (evalArgs_makes rt args List.prefix_rfl).bytes_eq, List.flatMap_def]

theorem concat_fresh (tys : List Ty) (args : List Expression) : Fresh rt (.nary (.builtin tys .concat) args) := by
  intro p hp
  rw [eval_concat] at hp
  cases hp
  exact (evalArgs_makes rt args List.prefix_rfl).grows.length_le

end Eval

/-! ## The loop -/

/-- The bytes of a literal -/
def literal : Expression → Option (List UInt8)
  | .unary (.allocDynamicBytes _ (some bs)) _ => some bs
  | _ => none

/-- A literal, with its length as its size -/
def IsLiteral (bs : List UInt8) (e : Expression) : Prop :=
  ∃ ty sizeTy, e = .unary (.allocDynamicBytes ty (some bs)) (.numberLiteral sizeTy bs.length)

/-- Every literal has its length as its size. -/
def Sized (e : Expression) : Prop := ∀ bs, literal e = some bs → IsLiteral bs e

section Loop

variable {h : Heap} {rt : RunTime h} {last : Option Expression} {res : List Expression} {e l : Expression}
  {bs init : List UInt8}

theorem IsLiteral.bytesOf_eq (he : IsLiteral bs e) : bytesOf rt e = bs := by
  obtain ⟨ty, sizeTy, rfl⟩ := he
  have hmakes := (makes_vectorNew h (bs.length : Int).toNat (some bs)).bytes_eq
  rw [bytesOf, eval, hmakes]
  have htake : bs.takeD bs.length 0 = bs := by simpa using List.takeD_left bs [] 0
  cases bs with
  | nil => rfl
  | cons b bs => exact htake

theorem IsLiteral.fresh (he : IsLiteral bs e) : Fresh rt e := by
  obtain ⟨ty, sizeTy, rfl⟩ := he
  intro p hp
  rw [eval] at hp
  cases bs with
  | nil => cases hp
  | cons b bs =>
    cases hp
    exact le_rfl

theorem concatStep_empty (he : IsLiteral [] e) : concatStep (last, res) e = some (last, res) := by
  obtain ⟨ty, sizeTy, rfl⟩ := he
  rfl

theorem concatStep_first (he : IsLiteral bs e) (hbs : bs ≠ []) : concatStep (none, res) e = some (some e, res) := by
  obtain ⟨ty, sizeTy, rfl⟩ := he
  cases bs with
  | nil => exact absurd rfl hbs
  | cons b bs => rfl

theorem concatStep_merge (hl : IsLiteral init l) (he : IsLiteral bs e) (hbs : bs ≠ []) :
    ∃ l', IsLiteral (init ++ bs) l' ∧ concatStep (some l, res) e = some (some l', res) := by
  obtain ⟨lty, lsizeTy, rfl⟩ := hl
  obtain ⟨ty, sizeTy, rfl⟩ := he
  refine ⟨_, ⟨lty, lsizeTy, rfl⟩, ?_⟩
  cases bs with
  | nil => exact absurd rfl hbs
  | cons b bs => simp [concatStep]

theorem concatStep_runTime (he : literal e = none) :
    concatStep (last, res) e = some (none, res ++ last.toList ++ [e]) := by
  unfold concatStep
  split
  next => cases he
  next => rfl

/-- Whether an argument is not dropped -/
def isKept (e : Expression) : Bool := literal e != some []

/-- What is left has the bytes of the arguments that were kept so far. One is left as it is, and of several
either all are one literal or at least two are left. -/
structure Merged (rt : RunTime h) (kept : List Expression) (s : Option Expression × List Expression) :
    Prop where
  bytes_eq : (s.2 ++ s.1.toList).flatMap (bytesOf rt) = kept.flatMap (bytesOf rt)
  last : ∀ l, s.1 = some l → ∃ bs, IsLiteral bs l
  single : ∀ e, kept = [e] → s.2 ++ s.1.toList = [e]
  several : 2 ≤ kept.length → s.2 = [] ∧ s.1.isSome ∨ 2 ≤ (s.2 ++ s.1.toList).length
  nothing : kept = [] → s = (none, [])

variable {kept : List Expression} {s : Option Expression × List Expression}

theorem Merged.ne_nil (hs : Merged rt kept s) (hkept : kept ≠ []) : s.2 ++ s.1.toList ≠ [] := by
  intro hnil
  match kept, hkept with
  | [e], _ =>
    rw [hs.single e rfl] at hnil
    cases hnil
  | e :: e' :: kept, _ =>
    obtain ⟨hres, hlast⟩ | hlen := hs.several (by simp)
    · rw [hres, List.nil_append] at hnil
      cases hl : s.1 <;> simp [hl] at hlast hnil
    · rw [hnil] at hlen
      cases hlen

/-- One argument that is kept -/
theorem Merged.step (hs : Merged rt kept s) (hsized : Sized e) (hkept : isKept e = true) :
    ∃ s', concatStep s e = some s' ∧ Merged rt (kept ++ [e]) s' := by
  obtain ⟨last, res⟩ := s
  have hsingle : ∀ e', kept ++ [e] = [e'] → kept = [] ∧ e = e' := by
    intro e' heq
    cases kept with
    | nil => exact ⟨rfl, List.singleton_inj.mp heq⟩
    | cons a kept => simp at heq
  have hmore : 2 ≤ (kept ++ [e]).length → kept ≠ [] := by
    rintro hlen rfl
    simp at hlen
  cases hliteral : literal e with
  | none =>
    refine ⟨_, concatStep_runTime hliteral, ?_, nofun, fun e' heq => ?_, fun hlen => .inr ?_, by simp⟩
    · simpa using congrArg (· ++ bytesOf rt e) hs.bytes_eq
    · obtain ⟨hnil, rfl⟩ := hsingle e' heq
      cases hs.nothing hnil
      rfl
    · have hne := List.length_pos_iff.mpr (hs.ne_nil (hmore hlen))
      simp only [Option.toList_none, List.append_nil, List.length_append, List.length_singleton] at hne ⊢
      omega
  | some bs =>
    have he := hsized bs hliteral
    have hbs : bs ≠ [] := by
      rintro rfl
      simp [isKept, hliteral] at hkept
    cases last with
    | none =>
      refine ⟨_, concatStep_first he hbs, ?_, ?_, fun e' heq => ?_, fun hlen => .inr ?_, by simp⟩
      · simpa using congrArg (· ++ bytesOf rt e) hs.bytes_eq
      · rintro l ⟨⟩
        exact ⟨bs, he⟩
      · obtain ⟨hnil, rfl⟩ := hsingle e' heq
        cases hs.nothing hnil
        rfl
      · have hne := List.length_pos_iff.mpr (hs.ne_nil (hmore hlen))
        simp only [Option.toList_none, Option.toList_some, List.append_nil, List.length_append,
          List.length_singleton] at hne ⊢
        omega
    | some l =>
      obtain ⟨init, hl⟩ := hs.last l rfl
      obtain ⟨l', hl', hstep⟩ : ∃ l', IsLiteral (init ++ bs) l' ∧ concatStep (some l, res) e = some (some l', res) :=
        concatStep_merge hl he hbs
      refine ⟨_, hstep, ?_, ?_, fun e' heq => ?_, fun _ => ?_, by simp⟩
      · have hbytes := congrArg (· ++ bytesOf rt e) hs.bytes_eq
        simpa [hl.bytesOf_eq, hl'.bytesOf_eq, he.bytesOf_eq] using hbytes
      · rintro l ⟨⟩
        exact ⟨_, hl'⟩
      · cases hs.nothing (hsingle e' heq).1
      · cases res with
        | nil => exact .inl ⟨rfl, rfl⟩
        | cons a res =>
          right
          simp

/-- The loop over all arguments -/
theorem foldlM_merged {args : List Expression} (hsized : ∀ e ∈ args, Sized e)
    (hs : Merged rt kept s) :
    ∃ s', args.foldlM concatStep s = some s' ∧ Merged rt (kept ++ args.filter isKept) s' := by
  induction args generalizing kept s with
  | nil => exact ⟨s, rfl, by simpa using hs⟩
  | cons e args ih =>
    obtain ⟨he, hsized⟩ := List.forall_mem_cons.mp hsized
    rw [List.foldlM_cons]
    cases hkept : isKept e with
    | true =>
      obtain ⟨s₁, hstep, hs₁⟩ := hs.step he hkept
      obtain ⟨s₂, hfold, hs₂⟩ := ih hsized hs₁
      refine ⟨s₂, ?_, ?_⟩
      · rw [hstep]
        exact hfold
      · rwa [List.filter_cons_of_pos hkept, List.append_cons]
    | false =>
      have hempty : IsLiteral [] e := he [] (by simpa [isKept] using hkept)
      rw [concatStep_empty hempty, List.filter_cons_of_neg (by simp [hkept])]
      exact ih hsized hs

end Loop

/-! ## The result -/

section Result

variable {h : Heap} {rt : RunTime h}

theorem concatResult_single {s : Option Expression × List Expression} {e : Expression}
    (hs : s.2 ++ s.1.toList = [e]) : concatResult s.1 s.2 = e := by
  obtain ⟨last, res⟩ := s
  match last, res, hs with
  | some l, [], hs => exact List.singleton_inj.mp hs
  | none, [a], hs => exact List.singleton_inj.mp hs
  | some l, a :: res, hs => simp at hs

theorem concatResult_bytes (s : Option Expression × List Expression) :
    bytesOf rt (concatResult s.1 s.2) = (s.2 ++ s.1.toList).flatMap (bytesOf rt) := by
  obtain ⟨last, res⟩ := s
  unfold concatResult
  split
  next hres =>
    obtain rfl := List.isEmpty_iff.mp hres
    cases last with
    | none => simp [bytesOf, eval, Heap.vectorNew]
    | some l => simp
  next =>
    split
    next e heq => simp [heq]
    next => exact concat_bytes rt _ _

/-- Of several arguments that are kept, the result is a literal or a concatenation. -/
theorem Merged.fresh {kept : List Expression} {s : Option Expression × List Expression} (hs : Merged rt kept s)
    (hsingle : ∀ e, kept = [e] → Fresh rt e) : Fresh rt (concatResult s.1 s.2) := by
  match kept, hs, hsingle with
  | [], hs, _ =>
    rw [hs.nothing rfl]
    intro p hp
    simp only [concatResult, List.isEmpty_nil, ↓reduceIte, Option.getD_none, eval] at hp
    cases hp
    exact le_rfl
  | [e], hs, hsingle =>
    rw [concatResult_single (hs.single e rfl)]
    exact hsingle e rfl
  | e :: e' :: kept, hs, _ =>
    obtain ⟨last, res⟩ := s
    obtain ⟨hres, hlast⟩ | hlen := hs.several (by simp)
    · obtain ⟨l, rfl⟩ := Option.isSome_iff_exists.mp hlast
      obtain ⟨bs, hl⟩ := hs.last l rfl
      obtain rfl : res = [] := hres
      exact hl.fresh
    · unfold concatResult
      dsimp only at hlen ⊢
      split
      next hres =>
        obtain rfl := List.isEmpty_iff.mp hres
        cases last <;> simp at hlen
      next =>
        split
        next heq =>
          rw [heq] at hlen
          simp at hlen
        next => exact concat_fresh rt _ _

/-- The result has the bytes of all arguments, and is a new object unless just one argument is not an empty
literal and this one is not a new object. -/
theorem bytesConcat_iff (rt : RunTime h) (fold : Expression → Expression) (args : List Expression)
    (hfold : ∀ e ∈ args, bytesOf rt (fold e) = bytesOf rt e) (hsized : ∀ e ∈ args, Sized (fold e)) :
    ∃ e, bytesConcat fold args = some e ∧ bytesOf rt e = args.flatMap (bytesOf rt) ∧
      (Fresh rt e ↔ ∀ arg, (args.map fold).filter isKept = [arg] → Fresh rt arg) := by
  have hstart : Merged rt [] (none, []) := ⟨rfl, nofun, nofun, nofun, fun _ => rfl⟩
  have hsized : ∀ e ∈ args.map fold, Sized e := by simpa using hsized
  obtain ⟨s, hloop, hs⟩ := foldlM_merged hsized hstart
  rw [List.nil_append] at hs
  refine ⟨concatResult s.1 s.2, ?_, ?_, fun hfresh arg hkept => ?_, hs.fresh⟩
  · rw [bytesConcat, hloop]
    rfl
  · -- a dropped literal has no bytes
    have hdrop : ∀ es : List Expression, (∀ e ∈ es, Sized e) →
        (es.filter isKept).flatMap (bytesOf rt) = es.flatMap (bytesOf rt) := by
      intro es hes
      induction es with
      | nil => rfl
      | cons e es ih =>
        obtain ⟨he, hes⟩ := List.forall_mem_cons.mp hes
        cases hkept : isKept e with
        | true => rw [List.filter_cons_of_pos hkept, List.flatMap_cons, List.flatMap_cons, ih hes]
        | false =>
          have hempty : IsLiteral [] e := he [] (by simpa [isKept] using hkept)
          rw [List.filter_cons_of_neg (by simp [hkept]), List.flatMap_cons, hempty.bytesOf_eq, ih hes]
          rfl
    rw [concatResult_bytes, hs.bytes_eq, hdrop _ hsized, List.flatMap_map]
    exact List.flatMap_congr hfold
  · rwa [concatResult_single (hs.single arg hkept)] at hfresh

end Result

namespace Sample

/-- The argument of the function is the only object. -/
def rt : RunTime [[1, 2, 3]] where
  value e h := match e with
    | .functionArg _ _ => (some 0, h)
    | _ => (none, h)
  grows e h _ := by split <;> exact List.prefix_rfl
  valid e h hle p hp := by
    have hlen := hle.length_le
    split at hp <;> cases hp
    exact hlen
  stable e h hle := by
    split
    · exact Heap.bytes_of_prefix hle fun i hi => by cases hi; decide
    · rfl

def argument : Expression := .functionArg .dynamicBytes 0

def literalOf (bs : List UInt8) : Expression :=
  .unary (.allocDynamicBytes .dynamicBytes (some bs)) (.numberLiteral (.uint 32) bs.length)

theorem sized_literalOf (bs : List UInt8) : Sized (literalOf bs) := by
  rintro _ ⟨⟩
  exact ⟨_, _, rfl⟩

theorem sized_argument : Sized argument := nofun

/-- `bytes.concat("a", "b", x)` -/
theorem prefixed_is_fresh : ∃ e, bytesConcat id [literalOf [97], literalOf [98], argument] = some e ∧
    bytesOf rt e = [97, 98, 1, 2, 3] ∧ Fresh rt e := by
  obtain ⟨e, he, hbytes, hfresh⟩ := bytesConcat_iff rt id
    [literalOf [97], literalOf [98], argument] (fun _ _ => rfl)
    (by simp [sized_literalOf, sized_argument])
  refine ⟨e, he, hbytes, hfresh.mpr fun arg hkept => ?_⟩
  cases hkept

/-- `bytes.concat(x, "")` is `x`. -/
theorem concat_with_empty_is_shared :
    ∃ e, bytesConcat id [argument, literalOf []] = some e ∧ ¬ Fresh rt e :=
  ⟨argument, rfl, fun hfresh => absurd (hfresh 0 rfl) (by decide)⟩

end Sample

end Solang.Codegen.ConstantFolding
