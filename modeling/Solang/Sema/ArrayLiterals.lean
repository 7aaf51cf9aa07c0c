import Solang.Lib.Except
import Solang.Parser.Lexer

/-!
# Array literals

`check_subarrays` and `array_literal` of `sema/expression/literals.rs`. How an element resolves
and converts is a parameter: `expression` and `cast`, with the first error where they report
one. Conversions are implicit ones, and that a variable is used is left out.

Then what a literal is: its elements in the order of the source, and when it is rectangular.
-/

namespace Solang.Sema.Arrays

open Solang.Parser (Loc)

inductive ArrayLength where
  | fixed (n : Nat)
  | dynamic
  deriving DecidableEq

/-- `other` stands for the types that are told apart here by equality only. -/
inductive Ty where
  | array (ty : Ty) (dims : List ArrayLength)
  | slice (ty : Ty)
  | storageRef (immutable : Bool) (ty : Ty)
  | ref (ty : Ty)
  | other (no : Nat)
  deriving DecidableEq

def Ty.derefAny : Ty → Ty
  | storageRef _ ty => ty
  | ref ty => ty
  | ty => ty

inductive ResolveTo where
  | unknown
  | integer
  | discard
  | type (ty : Ty)
  deriving DecidableEq

/-- A parsed expression; `other` is one that is no array literal. -/
inductive Expr (L : Type) where
  | arrayLiteral (loc : Loc) (exprs : List (Expr L))
  | other (loc : Loc) (expr : L)

inductive ArrayError (D : Type) where
  | length (i len first : Nat)
  | notArray (i : Nat)
  | unexpectedArray (i : Nat)
  | empty
  | elementType (elem slice : Ty)
  | arrayExpected (ty : Ty)
  | ofElement (error : D)

structure Diagnostic (D : Type) where
  loc : Loc
  error : ArrayError D

section

variable {L R D : Type}

def Expr.loc : Expr L → Loc
  | arrayLiteral loc _ => loc
  | other loc _ => loc

def ArrayError.message (name : Ty → String) (text : D → String) : ArrayError D → String
  | length i len first =>
    "array elements should be identical, sub array " ++ toString i ++ " has " ++ toString len ++
      " elements rather than " ++ toString first
  | notArray i => "array element " ++ toString i ++ " should also be an array"
  | unexpectedArray i =>
    "array elements should be of the type, element " ++ toString i ++ " is unexpected array"
  | empty => "array requires at least one element"
  | elementType elem slice =>
    "type " ++ name elem ++ " found where array " ++ name slice ++ " expected"
  | arrayExpected ty => "type " ++ name ty ++ " found where array expected"
  | ofElement error => text error

/-! ## `check_subarrays` -/

/-- `as u32` -/
def toU32 (n : Nat) : Nat := n % 2 ^ 32

/-- The other elements behind one that is no array literal; the next one is number `i`. -/
def checkElements (i : Nat) : List (Expr L) → Except (Diagnostic D) Unit
  | [] => .ok ()
  | .arrayLiteral loc _ :: _ => .error ⟨loc, .unexpectedArray i⟩
  | .other .. :: exprs => checkElements (i + 1) exprs

mutual

def checkSubarrays (dims : Option (List Nat)) (flatten : List (Expr L)) :
    List (Expr L) → Except (Diagnostic D) (Option (List Nat) × List (Expr L))
  | .arrayLiteral _ first :: exprs => do
    let (dims, flatten) ← checkSubarrays dims flatten first
    let flatten ← checkOthers first.length 2 flatten exprs
    .ok (dims.map (· ++ [toU32 (exprs.length + 1)]), flatten)
  | exprs => do
    checkElements 2 exprs.tail
    .ok (dims.map (· ++ [toU32 exprs.length]), flatten ++ exprs)
termination_by exprs => sizeOf exprs

/-- The other elements behind an array literal of the length `len`; the next one is number `i`. -/
def checkOthers (len i : Nat) (flatten : List (Expr L)) : List (Expr L) → Except (Diagnostic D) (List (Expr L))
  | [] => .ok flatten
  | .arrayLiteral loc other :: exprs =>
    if other.length ≠ len then .error ⟨loc, .length i other.length len⟩
    else do
      let (_, flatten) ← checkSubarrays none flatten other
      checkOthers len (i + 1) flatten exprs
  | .other loc _ :: _ => .error ⟨loc, .notArray i⟩
termination_by exprs => sizeOf exprs

end

/-! ## `array_literal` -/

/-- How expressions resolve, and how they convert -/
structure Resolver (L R D : Type) where
  expression : Expr L → ResolveTo → Except (Diagnostic D) R
  cast : Loc → R → Ty → Except (Diagnostic D) R
  ty : R → Ty
  loc : R → Loc

/-- `Expression::ConstArrayLiteral` if it is constant, else `Expression::ArrayLiteral` -/
structure Literal (R : Type) where
  constant : Bool
  loc : Loc
  ty : Ty
  dimensions : List Nat
  values : List R

/-- The error that ends a function is the only one. -/
def single {α : Type} : Except (Diagnostic D) α → Except (List (Diagnostic D)) α
  | .error d => .error [d]
  | .ok a => .ok a

section

variable (r : Resolver L R D)

/-- An element of a literal that is to be a slice of slices -/
def seedElement (loc : Loc) (elem : Ty) (expr : Expr L) : Except (Diagnostic D) R := do
  let expr ← r.expression expr (.type (.array elem [.dynamic]))
  let ty := r.ty expr
  let expr ← r.cast (r.loc expr) expr ty.derefAny
  match ty.derefAny with
  | .array e _ =>
    match r.cast loc expr (.slice elem) with
    | .error _ => .error ⟨r.loc expr, .elementType e (.slice elem)⟩
    | .ok _ => .ok expr
  | _ => .error ⟨r.loc expr, .arrayExpected ty⟩

/-- The loop over them goes on after an error. -/
def seedElements (loc : Loc) (elem : Ty) : List (Expr L) → List (Diagnostic D) × List R
  | [] => ([], [])
  | expr :: exprs =>
    let (errors, res) := seedElements loc elem exprs
    match seedElement r loc elem expr with
    | .error d => (d :: errors, res)
    | .ok e => (errors, e :: res)

/-- The first element, and the type of the elements -/
def firstElement (resolveTo : ResolveTo) (expr : Expr L) : Except (Diagnostic D) (R × Ty) := do
  let first ← r.expression expr resolveTo
  match resolveTo with
  | .type ty => do
    let first ← r.cast (r.loc first) first ty
    .ok (first, ty)
  | _ => .ok (first, r.ty first)

def otherElement (resolveTo : ResolveTo) (ty : Ty) (expr : Expr L) : Except (Diagnostic D) R := do
  let other ← r.expression expr resolveTo
  if resolveTo ≠ .unknown ∧ r.ty other ≠ ty then r.cast expr.loc other ty else .ok other

/-- What the elements are resolved for -/
def elementTarget : ResolveTo → ResolveTo
  | .type (.array elem _) => .type elem
  | resolveTo => resolveTo

def arrayLiteral (constant : Bool) (loc : Loc) (exprs : List (Expr L)) (resolveTo : ResolveTo) :
    Except (List (Diagnostic D)) (Literal R) :=
  match resolveTo with
  | .type (.slice (.slice elem)) =>
    let (errors, res) := seedElements r loc elem exprs
    if errors.isEmpty then
      .ok ⟨false, loc, .array (.slice elem) [.fixed exprs.length], [toU32 exprs.length], res⟩
    else .error errors
  | _ => do
    let (dims, flatten) ← single (checkSubarrays (some []) [] exprs)
    match flatten with
    | [] => .error [⟨loc, .empty⟩]
    | first :: rest => do
      let (first, ty) ← single (firstElement r (elementTarget resolveTo) first)
      let rest ← single (rest.mapM (otherElement r (elementTarget resolveTo) ty))
      let dimensions := dims.getD []
      .ok ⟨constant, loc, .array ty (dimensions.map .fixed), dimensions, first :: rest⟩

end

/-! ## What a literal is -/

mutual

/-- The elements of a literal that are no array literals, in the order of the source -/
def Expr.elements : Expr L → List (Expr L)
  | .arrayLiteral _ exprs => elements exprs
  | .other loc expr => [.other loc expr]

def elements : List (Expr L) → List (Expr L)
  | [] => []
  | expr :: exprs => expr.elements ++ elements exprs

end

def Expr.IsArray (e : Expr L) : Prop := ∃ loc exprs, e = .arrayLiteral loc exprs

/-- The elements of an array of arrays of these lengths, those of the outer ones first -/
def Rectangular : List Nat → List (Expr L) → Prop
  | [], _ => False
  | [n], exprs => exprs.length = n ∧ ∀ e ∈ exprs, ¬ e.IsArray
  | n :: dims, exprs => exprs.length = n ∧ exprs ≠ [] ∧
      ∀ e ∈ exprs, ∃ loc es, e = .arrayLiteral loc es ∧ Rectangular dims es

/-- An array is the same pointer when it is a reference. -/
def HasType (r : Resolver L R D) (e : R) (ty : Ty) : Prop := r.ty e = ty ∨ r.ty e = .ref ty

/-- The expression that an element becomes -/
def Becomes (r : Resolver L R D) (expr : Expr L) (value : R) : Prop :=
  ∃ resolveTo e, r.expression expr resolveTo = .ok e ∧ (value = e ∨ ∃ loc ty, r.cast loc e ty = .ok value)

end

end Solang.Sema.Arrays

/-!
## Which array literals are rectangular

`check_subarrays` compares each array with the first one beside it: `Siblings` is what it accepts.
Arrays below different siblings are not compared, and the dimensions are those of the first
array at each depth.
-/

namespace Solang.Sema.Arrays

open Solang.Parser (Loc)

section

variable {L R D : Type}

/-! ### What `check_subarrays` accepts -/

/-- Elements beside each other are all arrays, of one length, or none of them is. -/
inductive Siblings : List (Expr L) → Prop where
  | row {exprs : List (Expr L)} (h : ∀ e ∈ exprs, ¬ e.IsArray) : Siblings exprs
  | rows {exprs : List (Expr L)} {len : Nat} (hall : ∀ e ∈ exprs, e.IsArray)
      (hlen : ∀ loc es, .arrayLiteral loc es ∈ exprs → es.length = len)
      (h : ∀ loc es, .arrayLiteral loc es ∈ exprs → Siblings es) : Siblings exprs

/-- What is accepted behind an array of this length -/
def Others (len : Nat) (exprs : List (Expr L)) : Prop :=
  ∀ e ∈ exprs, ∃ loc es, e = .arrayLiteral loc es ∧ es.length = len ∧ Siblings es

@[simp] theorem not_isArray_other (loc : Loc) (e : L) : ¬ (Expr.other loc e).IsArray := by
  rintro ⟨_, _, h⟩
  cases h

@[simp] theorem isArray_arrayLiteral (loc : Loc) (exprs : List (Expr L)) : (Expr.arrayLiteral loc exprs).IsArray :=
  ⟨loc, exprs, rfl⟩

variable {loc : Loc} {ns : List Nat} {elem : Ty} {constant : Bool}

theorem siblings_cons {first exprs : List (Expr L)} :
    Siblings (.arrayLiteral loc first :: exprs) ↔ Siblings first ∧ Others first.length exprs := by
  constructor
  · intro h
    cases h with
    | row h => exact absurd (isArray_arrayLiteral loc first) (h _ List.mem_cons_self)
    | rows hall hlen h =>
      refine ⟨h loc first List.mem_cons_self, fun e he => ?_⟩
      obtain ⟨l, es, rfl⟩ := hall e (List.mem_cons_of_mem _ he)
      refine ⟨l, es, rfl, ?_, h l es (List.mem_cons_of_mem _ he)⟩
      rw [hlen l es (List.mem_cons_of_mem _ he), hlen loc first List.mem_cons_self]
  · rintro ⟨hfirst, hothers⟩
    have hall : Others first.length (.arrayLiteral loc first :: exprs) := by
      intro e he
      rcases List.mem_cons.mp he with rfl | he
      · exact ⟨loc, first, rfl, rfl, hfirst⟩
      · exact hothers e he
    have hmem : ∀ l es, .arrayLiteral l es ∈ Expr.arrayLiteral loc first :: exprs →
        es.length = first.length ∧ Siblings es := by
      intro l es he
      obtain ⟨l, es', h, hes⟩ := hall _ he
      cases h
      exact hes
    refine .rows (fun e he => ?_) (fun l es he => (hmem l es he).1) fun l es he => (hmem l es he).2
    obtain ⟨l, es, rfl, -⟩ := hall e he
    exact isArray_arrayLiteral l es

theorem siblings_of_not_array {exprs : List (Expr L)}
    (hhead : ∀ loc first rest, exprs = .arrayLiteral loc first :: rest → False) :
    Siblings exprs ↔ ∀ e ∈ exprs, ¬ e.IsArray := by
  refine ⟨fun h => ?_, .row⟩
  cases h with
  | row h => exact h
  | rows hall _ _ =>
    rcases exprs with _ | ⟨e, exprs⟩
    · exact fun e he => absurd he List.not_mem_nil
    · obtain ⟨loc, es, rfl⟩ := hall e List.mem_cons_self
      exact (hhead loc es exprs rfl).elim

theorem checkElements_spec (i : Nat) (exprs : List (Expr L)) :
    match checkElements (D := D) i exprs with
    | .error _ => ∃ e ∈ exprs, e.IsArray
    | .ok _ => ∀ e ∈ exprs, ¬ e.IsArray := by
  induction exprs generalizing i with
  | nil => exact fun e he => absurd he List.not_mem_nil
  | cons e exprs ih =>
    cases e with
    | arrayLiteral loc es => exact ⟨_, List.mem_cons_self, isArray_arrayLiteral loc es⟩
    | other loc e =>
      have h := ih (i + 1)
      simp only [checkElements]
      split at h
      · obtain ⟨e, he, harray⟩ := h
        exact ⟨e, List.mem_cons_of_mem _ he, harray⟩
      · exact List.forall_mem_cons.mpr ⟨not_isArray_other loc e, h⟩

theorem elements_of_row {exprs : List (Expr L)} (h : ∀ e ∈ exprs, ¬ e.IsArray) : elements exprs = exprs := by
  induction exprs with
  | nil => rfl
  | cons e exprs ih =>
    obtain ⟨he, hexprs⟩ := List.forall_mem_cons.mp h
    cases e with
    | arrayLiteral loc es => exact absurd (isArray_arrayLiteral loc es) he
    | other loc e => rw [elements, ih hexprs, Expr.elements, List.singleton_append]

/-- What the check gives: the elements are appended, and so are the lengths if the literal is rectangular. -/
def SubarraysChecked (dims : Option (List Nat)) (flatten exprs : List (Expr L)) :
    Except (Diagnostic D) (Option (List Nat) × List (Expr L)) → Prop
  | .error _ => ¬ Siblings exprs
  | .ok (dims', flatten') => Siblings exprs ∧ flatten' = flatten ++ elements exprs ∧
      ∀ ns, Rectangular ns exprs → dims' = dims.map (· ++ (ns.map toU32).reverse)

def OthersChecked (len : Nat) (flatten exprs : List (Expr L)) : Except (Diagnostic D) (List (Expr L)) → Prop
  | .error _ => ¬ Others len exprs
  | .ok flatten' => Others len exprs ∧ flatten' = flatten ++ elements exprs

theorem rectangular_cons {first exprs : List (Expr L)}
    (h : Rectangular ns (.arrayLiteral loc first :: exprs)) :
    ∃ ns', ns = (exprs.length + 1) :: ns' ∧ Rectangular ns' first := by
  rcases ns with _ | ⟨n, _ | ⟨m, ns⟩⟩
  · exact h.elim
  · exact absurd (isArray_arrayLiteral loc first) (h.2 _ List.mem_cons_self)
  · obtain ⟨hlen, -, hall⟩ := h
    obtain ⟨loc', es, he, hes⟩ := hall _ List.mem_cons_self
    cases he
    exact ⟨m :: ns, by rw [← hlen, List.length_cons], hes⟩

theorem rectangular_row {exprs : List (Expr L)} (h : Rectangular ns exprs)
    (hexprs : ∀ e ∈ exprs, ¬ e.IsArray) : ns = [exprs.length] := by
  rcases ns with _ | ⟨n, _ | ⟨m, ns⟩⟩
  · exact h.elim
  · rw [h.1]
  · obtain ⟨-, hne, hall⟩ := h
    obtain ⟨e, exprs, rfl⟩ := List.exists_cons_of_ne_nil hne
    obtain ⟨loc, es, rfl, -⟩ := hall e List.mem_cons_self
    exact absurd (isArray_arrayLiteral loc es) (hexprs _ List.mem_cons_self)

theorem others_cons {len : Nat} {es exprs : List (Expr L)} :
    Others len (.arrayLiteral loc es :: exprs) ↔ (es.length = len ∧ Siblings es) ∧ Others len exprs := by
  refine List.forall_mem_cons.trans (and_congr_left fun _ => ⟨?_, ?_⟩)
  · rintro ⟨_, _, h, hes⟩
    cases h
    exact hes
  · exact fun hes => ⟨loc, es, rfl, hes⟩

theorem check_spec :
    (∀ (dims : Option (List Nat)) (flatten exprs : List (Expr L)),
      SubarraysChecked dims flatten exprs (checkSubarrays (D := D) dims flatten exprs)) ∧
    ∀ (len i : Nat) (flatten exprs : List (Expr L)),
      OthersChecked len flatten exprs (checkOthers (D := D) len i flatten exprs) := by
  refine checkSubarrays.mutual_induct _ _ ?_ ?_ ?_ ?_ ?_ ?_
  · intro dims flatten loc first exprs ihfirst ihrest
    rw [checkSubarrays]
    cases hfirst : checkSubarrays (D := D) dims flatten first with
    | error d =>
      rw [hfirst] at ihfirst
      exact fun h => ihfirst (siblings_cons.mp h).1
    | ok r =>
      rw [hfirst] at ihfirst
      obtain ⟨hs, hflatten, hdims⟩ := ihfirst
      have hothers := ihrest r.2
      simp only [bind, Except.bind]
      cases hrest : checkOthers (D := D) first.length 2 r.2 exprs with
      | error d =>
        rw [hrest] at hothers
        exact fun h => hothers (siblings_cons.mp h).2
      | ok flatten' =>
        rw [hrest] at hothers
        obtain ⟨hothers, rfl⟩ := hothers
        refine ⟨siblings_cons.mpr ⟨hs, hothers⟩, ?_, fun ns hns => ?_⟩
        · rw [hflatten, elements, Expr.elements, List.append_assoc]
        · obtain ⟨ns', rfl, hns'⟩ := rectangular_cons hns
          rw [hdims ns' hns']
          cases dims <;> simp
  · intro dims flatten exprs hhead
    rw [checkSubarrays]
    · have hcheck := checkElements_spec (D := D) 2 exprs.tail
      cases htail : checkElements (D := D) 2 exprs.tail with
      | error d =>
        rw [htail] at hcheck
        obtain ⟨e, he, harray⟩ := hcheck
        exact fun h => (siblings_of_not_array hhead).mp h e (List.mem_of_mem_tail he) harray
      | ok _ =>
        rw [htail] at hcheck
        have hrow : ∀ e ∈ exprs, ¬ e.IsArray := by
          rcases exprs with _ | ⟨e, exprs⟩
          · exact fun e he => absurd he List.not_mem_nil
          · refine List.forall_mem_cons.mpr ⟨?_, hcheck⟩
            rintro ⟨loc, first, rfl⟩
            exact hhead loc first exprs rfl
        refine ⟨.row hrow, by rw [elements_of_row hrow], fun ns hns => ?_⟩
        rw [rectangular_row hns hrow]
        rfl
    · exact hhead
  · intro len i flatten
    rw [checkOthers]
    exact ⟨fun e he => absurd he List.not_mem_nil, (List.append_nil _).symm⟩
  · intro len i flatten loc es exprs hlen
    rw [checkOthers, if_pos hlen]
    exact fun h => hlen (others_cons.mp h).1.1
  · intro len i flatten loc es exprs hlen ihes ihrest
    rw [checkOthers, if_neg hlen]
    cases hes : checkSubarrays (D := D) none flatten es with
    | error d =>
      rw [hes] at ihes
      exact fun h => ihes (others_cons.mp h).1.2
    | ok r =>
      rw [hes] at ihes
      obtain ⟨hs, hflatten, -⟩ := ihes
      have hothers := ihrest r.2
      simp only [bind, Except.bind]
      cases hrest : checkOthers (D := D) len (i + 1) r.2 exprs with
      | error d =>
        rw [hrest] at hothers
        exact fun h => hothers (others_cons.mp h).2
      | ok flatten' =>
        rw [hrest] at hothers
        obtain ⟨hothers, rfl⟩ := hothers
        refine ⟨others_cons.mpr ⟨⟨not_not.mp hlen, hs⟩, hothers⟩, ?_⟩
        rw [hflatten, elements, Expr.elements, List.append_assoc]
  · intro len i flatten loc e exprs
    rw [checkOthers]
    intro h
    obtain ⟨_, _, he, -⟩ := h _ List.mem_cons_self
    cases he

/-! ### The elements -/

theorem length_elements {exprs : List (Expr L)} (h : Rectangular ns exprs) :
    (elements exprs).length = ns.prod := by
  induction ns generalizing exprs with
  | nil => exact h.elim
  | cons n ns ih =>
    rcases ns with _ | ⟨m, ns⟩
    · rw [elements_of_row h.2, h.1, List.prod_singleton]
    · obtain ⟨rfl, -, hall⟩ := h
      rw [List.prod_cons]
      induction exprs with
      | nil => rw [elements, List.length_nil, Nat.zero_mul]
      | cons e exprs ihe =>
        obtain ⟨⟨loc, es, rfl, hes⟩, hrest⟩ := List.forall_mem_cons.mp hall
        rw [elements, Expr.elements, List.length_append, ih hes, ihe hrest, List.length_cons, Nat.succ_mul, Nat.add_comm]

variable {r : Resolver L R D} {resolveTo : ResolveTo} {ty : Ty}

theorem becomes_of_other {expr : Expr L} {v : R} (h : otherElement r resolveTo ty expr = .ok v) : Becomes r expr v := by
  obtain ⟨e, he, h⟩ := Except.bind_eq_ok_iff.mp h
  split at h
  · exact ⟨resolveTo, e, he, .inr ⟨_, _, h⟩⟩
  · cases h
    exact ⟨resolveTo, v, he, .inl rfl⟩

theorem becomes_of_first {expr : Expr L} {v : R} (h : firstElement r resolveTo expr = .ok (v, ty)) : Becomes r expr v := by
  obtain ⟨e, he, h⟩ := Except.bind_eq_ok_iff.mp h
  split at h
  · obtain ⟨e', hc, h⟩ := Except.bind_eq_ok_iff.mp h
    cases h
    exact ⟨_, e, he, .inr ⟨_, _, hc⟩⟩
  · cases h
    exact ⟨_, v, he, .inl rfl⟩

theorem becomes_of_seed {expr : Expr L} {v : R} (h : seedElement r loc elem expr = .ok v) :
    Becomes r expr v := by
  obtain ⟨e, he, h⟩ := Except.bind_eq_ok_iff.mp h
  obtain ⟨e', hc, h⟩ := Except.bind_eq_ok_iff.mp h
  split at h
  · split at h
    · cases h
    · cases h
      exact ⟨_, e, he, .inr ⟨_, _, hc⟩⟩
  · cases h

theorem seedElements_spec (r : Resolver L R D) (loc : Loc) (elem : Ty) (exprs : List (Expr L)) (vs : List R) :
    exprs.mapM (seedElement r loc elem) = .ok vs ↔ seedElements r loc elem exprs = ([], vs) := by
  rw [Except.mapM_eq_ok_iff]
  induction exprs generalizing vs with
  | nil =>
    rw [List.forall₂_nil_left_iff]
    exact ⟨fun h => h ▸ rfl, fun h => (Prod.mk.inj h).2.symm⟩
  | cons e exprs ih =>
    rw [seedElements, List.forall₂_cons_left_iff]
    cases he : seedElement r loc elem e with
    | error d =>
      constructor
      · rintro ⟨v, _, hv, -⟩
        cases hv
      · exact fun h => absurd (Prod.mk.inj h).1 (List.cons_ne_nil _ _)
    | ok v =>
      constructor
      · rintro ⟨_, vs', hv, hvs, rfl⟩
        cases hv
        simp only [(ih vs').mp hvs]
      · intro h
        obtain ⟨herrors, rfl⟩ := Prod.mk.inj h
        exact ⟨v, _, rfl, (ih _).mpr (Prod.ext herrors rfl), rfl⟩

/-! ### What is accepted -/

/-- The literal is an array of what is written. -/
def Describes (r : Resolver L R D) (exprs : List (Expr L)) (lit : Literal R) : Prop :=
  ∃ ns ty, Rectangular ns exprs ∧ lit.dimensions = ns.reverse ∧ lit.ty = .array ty (ns.reverse.map .fixed) ∧
    List.Forall₂ (Becomes r) (elements exprs) lit.values ∧ lit.values.length = ns.prod ∧
    ∀ v ∈ lit.values, HasType r v ty

/-- What is accepted is an array of what is written, and otherwise there is an error. -/
def Correct (r : Resolver L R D) (exprs : List (Expr L)) (result : Except (List (Diagnostic D)) (Literal R)) : Prop :=
  (∀ lit, result = .ok lit → Describes r exprs lit) ∧ ∀ errors, result = .error errors → errors ≠ []

/-- If arrays beside each other have one length and the elements resolve and convert, then the literal is
rectangular and the elements have one type. -/
def Met (r : Resolver L R D) (loc : Loc) (exprs : List (Expr L)) : ResolveTo → Prop
  | .type (.slice (.slice elem)) =>
    ∀ vs, exprs.mapM (seedElement r loc elem) = .ok vs →
      Rectangular [exprs.length] exprs ∧ exprs.length < 2 ^ 32 ∧ ∀ v ∈ vs, HasType r v (.slice elem)
  | resolveTo =>
    Siblings exprs → ∀ first rest v ty vs, elements exprs = first :: rest →
      firstElement r (elementTarget resolveTo) first = .ok (v, ty) →
      rest.mapM (otherElement r (elementTarget resolveTo) ty) = .ok vs →
      (∃ ns, Rectangular ns exprs ∧ ∀ n ∈ ns, n < 2 ^ 32) ∧ ∀ v' ∈ v :: vs, HasType r v' ty

theorem map_toU32 : ns.map toU32 = ns ↔ ∀ n ∈ ns, n < 2 ^ 32 := by
  have h : ns.map toU32 = ns ↔ ∀ n ∈ ns, toU32 n = n := by
    induction ns with
    | nil => simp
    | cons n ns ih => simp [ih]
  rw [h]
  refine forall₂_congr fun n _ => ⟨fun h => ?_, Nat.mod_eq_of_lt⟩
  rw [← h]
  exact Nat.mod_lt n (by decide)

theorem single_eq_ok_iff {α : Type} {x : Except (Diagnostic D) α} {a : α} : single x = .ok a ↔ x = .ok a := by
  cases x with
  | error d => exact ⟨nofun, nofun⟩
  | ok b =>
    constructor
    · intro h
      cases h
      rfl
    · intro h
      cases h
      rfl

/-- The literal of the elements -/
theorem arrayLiteral_ok (constant : Bool) (loc : Loc) {exprs : List (Expr L)} {lit : Literal R}
    (hseeds : ∀ elem, resolveTo ≠ .type (.slice (.slice elem))) :
    arrayLiteral r constant loc exprs resolveTo = .ok lit ↔
      ∃ dims first rest v ty vs, checkSubarrays (D := D) (some []) [] exprs = .ok (dims, first :: rest) ∧
        firstElement r (elementTarget resolveTo) first = .ok (v, ty) ∧
        rest.mapM (otherElement r (elementTarget resolveTo) ty) = .ok vs ∧
        lit = ⟨constant, loc, .array ty ((dims.getD []).map .fixed), dims.getD [], v :: vs⟩ := by
  have hrun : arrayLiteral r constant loc exprs resolveTo = (do
      let (dims, flatten) ← single (checkSubarrays (some []) [] exprs)
      match flatten with
      | [] => .error [⟨loc, .empty⟩]
      | first :: rest => do
        let (first, ty) ← single (firstElement r (elementTarget resolveTo) first)
        let rest ← single (rest.mapM (otherElement r (elementTarget resolveTo) ty))
        let dimensions := dims.getD []
        .ok ⟨constant, loc, .array ty (dimensions.map .fixed), dimensions, first :: rest⟩) := by
    unfold arrayLiteral
    split
    · exact absurd rfl (hseeds _)
    · rfl
  rw [hrun, Except.bind_eq_ok_iff]
  constructor
  · rintro ⟨⟨dims, flatten⟩, hcheck, h⟩
    rcases flatten with _ | ⟨first, rest⟩
    · cases h
    · obtain ⟨⟨v, ty⟩, hfirst, h⟩ := Except.bind_eq_ok_iff.mp h
      obtain ⟨vs, hrest, h⟩ := Except.bind_eq_ok_iff.mp h
      cases h
      exact ⟨dims, first, rest, v, ty, vs, single_eq_ok_iff.mp hcheck, single_eq_ok_iff.mp hfirst,
        single_eq_ok_iff.mp hrest, rfl⟩
  · rintro ⟨dims, first, rest, v, ty, vs, hcheck, hfirst, hrest, rfl⟩
    refine ⟨(dims, first :: rest), single_eq_ok_iff.mpr hcheck, ?_⟩
    refine Except.bind_eq_ok_iff.mpr ⟨(v, ty), single_eq_ok_iff.mpr hfirst, ?_⟩
    exact Except.bind_eq_ok_iff.mpr ⟨vs, single_eq_ok_iff.mpr hrest, rfl⟩

theorem checkSubarrays_ok {exprs flatten : List (Expr L)} {dims : Option (List Nat)}
    (h : checkSubarrays (D := D) (some []) [] exprs = .ok (dims, flatten)) :
    Siblings exprs ∧ flatten = elements exprs ∧
      ∀ ns, Rectangular ns exprs → dims.getD [] = (ns.map toU32).reverse := by
  have hspec := (check_spec (D := D)).1 (some []) [] exprs
  rw [h] at hspec
  obtain ⟨hs, hflatten, hdims⟩ := hspec
  refine ⟨hs, hflatten, fun ns hns => ?_⟩
  rw [hdims ns hns]
  rfl

theorem exists_checkSubarrays {exprs : List (Expr L)} (h : Siblings exprs) :
    ∃ dims, checkSubarrays (D := D) (some []) [] exprs = .ok (dims, elements exprs) := by
  have hspec := (check_spec (D := D)).1 (some []) [] exprs
  cases hcheck : checkSubarrays (D := D) (some []) [] exprs with
  | error d =>
    rw [hcheck] at hspec
    exact absurd h hspec
  | ok p =>
    rw [hcheck] at hspec
    exact ⟨p.1, congrArg _ (Prod.ext rfl hspec.2.1)⟩

theorem single_ne_nil {α : Type} {x : Except (Diagnostic D) α} {errors : List (Diagnostic D)}
    (h : single x = .error errors) : errors ≠ [] := by
  cases x with
  | error d =>
    cases h
    exact List.cons_ne_nil _ _
  | ok a => cases h

theorem arrayLiteral_error {exprs : List (Expr L)} {errors : List (Diagnostic D)}
    (h : arrayLiteral r constant loc exprs resolveTo = .error errors) : errors ≠ [] := by
  unfold arrayLiteral at h
  split at h
  · simp only at h
    split at h
    · cases h
    · rename_i hne
      cases h
      exact fun h => hne (List.isEmpty_iff.mpr h)
  · rcases Except.bind_eq_error_iff.mp h with h | ⟨⟨dims, flatten⟩, -, h⟩
    · exact single_ne_nil h
    · rcases flatten with _ | ⟨first, rest⟩
      · cases h
        exact List.cons_ne_nil _ _
      · rcases Except.bind_eq_error_iff.mp h with h | ⟨⟨v, ty⟩, -, h⟩
        · exact single_ne_nil h
        · rcases Except.bind_eq_error_iff.mp h with h | ⟨vs, -, h⟩
          · exact single_ne_nil h
          · cases h

/-- The literal of the elements of a slice of slices -/
theorem arrayLiteral_seeds_ok {exprs : List (Expr L)} {lit : Literal R} :
    arrayLiteral r constant loc exprs (.type (.slice (.slice elem))) = .ok lit ↔
      ∃ vs, exprs.mapM (seedElement r loc elem) = .ok vs ∧
        lit = ⟨false, loc, .array (.slice elem) [.fixed exprs.length], [toU32 exprs.length], vs⟩ := by
  unfold arrayLiteral
  simp only
  constructor
  · intro h
    split at h
    · rename_i hnil
      cases h
      exact ⟨_, (seedElements_spec r loc elem exprs _).mpr (Prod.ext (List.isEmpty_iff.mp hnil) rfl), rfl⟩
    · cases h
  · rintro ⟨vs, hvs, rfl⟩
    rw [(seedElements_spec r loc elem exprs vs).mp hvs]
    rfl

/-- What is described when the lengths are those of one row -/
theorem describes_seeds_iff {exprs : List (Expr L)} {vs : List R}
    (hvs : exprs.mapM (seedElement r loc elem) = .ok vs) :
    Describes r exprs ⟨false, loc, .array (.slice elem) [.fixed exprs.length], [toU32 exprs.length], vs⟩ ↔
      Rectangular [exprs.length] exprs ∧ exprs.length < 2 ^ 32 ∧ ∀ v ∈ vs, HasType r v (.slice elem) := by
  constructor
  · rintro ⟨ns, ty, hns, hlen, hty, -, -, htyped⟩
    obtain rfl : .slice elem = ty := (Ty.array.inj hty).1
    have hns' : ns = [toU32 exprs.length] := List.reverse_eq_iff.mp hlen.symm
    subst hns'
    have hlen' : exprs.length = toU32 exprs.length := hns.1
    refine ⟨hlen' ▸ hns, ?_, htyped⟩
    rw [hlen']
    exact Nat.mod_lt _ (by decide)
  · rintro ⟨hrow, hlt, htyped⟩
    have hu32 : toU32 exprs.length = exprs.length := Nat.mod_eq_of_lt hlt
    have hbecomes : List.Forall₂ (Becomes r) (elements exprs) vs := by
      rw [elements_of_row hrow.2]
      exact (Except.mapM_eq_ok_iff.mp hvs).imp fun _ _ h => becomes_of_seed h
    refine ⟨[exprs.length], .slice elem, hrow, by rw [hu32]; rfl, rfl, hbecomes, ?_, htyped⟩
    rw [← hbecomes.length_eq, length_elements hrow]

/-- What is described when the lengths are right -/
theorem describes_iff {exprs : List (Expr L)} {lit : Literal R} {first : Expr L}
    {rest : List (Expr L)} {v : R} {vs : List R} {dims : List Nat}
    (helements : elements exprs = first :: rest)
    (hfirst : firstElement r (elementTarget resolveTo) first = .ok (v, ty))
    (hrest : rest.mapM (otherElement r (elementTarget resolveTo) ty) = .ok vs)
    (hdims : ∀ ns, Rectangular ns exprs → dims = (ns.map toU32).reverse)
    (hlit : lit = ⟨constant, loc, .array ty (dims.map .fixed), dims, v :: vs⟩) :
    Describes r exprs lit ↔
      (∃ ns, Rectangular ns exprs ∧ ∀ n ∈ ns, n < 2 ^ 32) ∧ ∀ v' ∈ v :: vs, HasType r v' ty := by
  subst hlit
  constructor
  · rintro ⟨ns, ty', hns, hlen, hty, -, -, htyped⟩
    have hty' : ty = ty' := (Ty.array.inj hty).1
    subst hty'
    refine ⟨⟨ns, hns, map_toU32.mp ?_⟩, htyped⟩
    exact List.reverse_injective ((hdims ns hns).symm.trans hlen)
  · rintro ⟨⟨ns, hns, hlt⟩, htyped⟩
    have hdims' := hdims ns hns
    rw [map_toU32.mpr hlt] at hdims'
    have hbecomes : List.Forall₂ (Becomes r) (elements exprs) (v :: vs) := by
      rw [helements]
      exact .cons (becomes_of_first hfirst) ((Except.mapM_eq_ok_iff.mp hrest).imp fun _ _ h => becomes_of_other h)
    refine ⟨ns, ty, hns, hdims', by rw [hdims'], hbecomes, ?_, htyped⟩
    rw [← hbecomes.length_eq, length_elements hns]

theorem correct_iff (constant : Bool) (loc : Loc) (exprs : List (Expr L)) (resolveTo : ResolveTo) (r : Resolver L R D) :
    Correct r exprs (arrayLiteral r constant loc exprs resolveTo) ↔ Met r loc exprs resolveTo := by
  have herrors : Correct r exprs (arrayLiteral r constant loc exprs resolveTo) ↔
      ∀ lit, arrayLiteral r constant loc exprs resolveTo = .ok lit → Describes r exprs lit :=
    and_iff_left fun errors => arrayLiteral_error
  rw [herrors]
  unfold Met
  split
  · rename_i elem
    constructor
    · intro h vs hvs
      exact (describes_seeds_iff hvs).mp (h _ (arrayLiteral_seeds_ok.mpr ⟨vs, hvs, rfl⟩))
    · intro h lit hlit
      obtain ⟨vs, hvs, rfl⟩ := arrayLiteral_seeds_ok.mp hlit
      exact (describes_seeds_iff hvs).mpr (h vs hvs)
  · rename_i hseeds
    constructor
    · intro h hs first rest v ty vs helements hfirst hrest
      obtain ⟨dims, hcheck⟩ := exists_checkSubarrays (D := D) hs
      have hdims := (checkSubarrays_ok hcheck).2.2
      rw [helements] at hcheck
      have hlit := (arrayLiteral_ok constant loc fun elem h => hseeds elem h).mpr
        ⟨dims, first, rest, v, ty, vs, hcheck, hfirst, hrest, rfl⟩
      exact (describes_iff helements hfirst hrest hdims rfl).mp (h _ hlit)
    · intro h lit hlit
      obtain ⟨dims, first, rest, v, ty, vs, hcheck, hfirst, hrest, rfl⟩ := (arrayLiteral_ok constant loc fun elem h => hseeds elem h).mp hlit
      obtain ⟨hs, helements, hdims⟩ := checkSubarrays_ok hcheck
      exact (describes_iff helements.symm hfirst hrest hdims rfl).mpr (h hs first rest v ty vs helements.symm hfirst hrest)

end

namespace Sample

def number (n : Nat) : Expr Nat := .other ⟨0, 0⟩ n

def row (exprs : List (Expr Nat)) : Expr Nat := .arrayLiteral ⟨0, 0⟩ exprs

/-- Numbers that resolve to numbers of one type -/
def resolver : Resolver Nat Nat Unit where
  expression
    | .other _ n, _ => .ok n
    | .arrayLiteral loc _, _ => .error ⟨loc, .empty⟩
  cast _ n _ := .ok n
  ty _ := .other 0
  loc _ := ⟨0, 0⟩

/-- `[[[1, 2], [3, 4]], [[5], [6]]]` -/
def cousins : List (Expr Nat) :=
  [row [row [number 1, number 2], row [number 3, number 4]], row [row [number 5], row [number 6]]]

theorem not_rectangular (ns : List Nat) : ¬ Rectangular ns cousins := by
  intro h
  have hlen := length_elements h
  obtain ⟨ns, rfl, h1⟩ := rectangular_cons h
  obtain ⟨ns, rfl, h2⟩ := rectangular_cons h1
  have hrow : ∀ e ∈ [number 1, number 2], ¬ e.IsArray := by simp [number]
  rw [rectangular_row h2 hrow] at hlen
  exact absurd hlen (by decide)

theorem checkSubarrays_cousins : checkSubarrays (D := Unit) (some []) [] cousins =
    .ok (some [2, 2, 2], [number 1, number 2, number 3, number 4, number 5, number 6]) := by
  simp [cousins, row, number, checkSubarrays, checkOthers, checkElements, toU32, bind, Except.bind]

/-- The literal is accepted: eight elements by its dimensions, and there are six. -/
theorem ragged_cousins_accepted :
    (∃ lit, arrayLiteral resolver false ⟨0, 0⟩ cousins (.type (.other 0)) = .ok lit ∧
      lit.dimensions = [2, 2, 2] ∧ lit.values = [1, 2, 3, 4, 5, 6]) ∧
    ¬ Correct resolver cousins (arrayLiteral resolver false ⟨0, 0⟩ cousins (.type (.other 0))) := by
  have hrest : [number 2, number 3, number 4, number 5, number 6].mapM
      (otherElement resolver (.type (.other 0)) (.other 0)) = .ok [2, 3, 4, 5, 6] := rfl
  have hseeds : ∀ elem, ResolveTo.type (.other 0) ≠ .type (.slice (.slice elem)) := by simp
  have hlit := (arrayLiteral_ok (r := resolver) false ⟨0, 0⟩ hseeds).mpr
    ⟨_, _, _, _, _, _, checkSubarrays_cousins, rfl, hrest, rfl⟩
  refine ⟨⟨_, hlit, rfl, rfl⟩, fun h => ?_⟩
  obtain ⟨ns, -, hns, -⟩ := h.1 _ hlit
  exact not_rectangular ns hns

end Sample

end Solang.Sema.Arrays
