import Solang.Codegen.Encoding.EncodeSize

/-!
# By how much the sizes differ

The size differs from the advance by `surplus` and `deficit`, and the bytes written by `beyond`,
for every value of every type (`sizes_differ`). The code that is generated for the size computes
`exprSize`, when it does not abort (`yields_getExprSize`).
-/

namespace Solang.Codegen.Encoding

open Writer Traced AbiType

variable {ns : Namespace} {packed : Bool}

/-! ## Sums over arrays -/

theorem sum_map_const {α : Type} (l : List α) (f : α → Nat) (k : Nat) (h : ∀ a ∈ l, f a = k) :
    (l.map f).sum = l.length * k := by
  rw [List.map_congr_left h, List.map_const', List.sum_replicate]
  rfl

variable {p : Value → Prop} {v : Value} {k n : Nat} {inner : List AbiLength} {outer : AbiLength}
  {first elem : AbiType} {rest : List AbiType}

variable {dim : AbiLength} {a b offset : Nat} {bytes : List UInt8}

theorem elems_of_arrayOf {dims : List AbiLength} (h : ArrayOf p (dim :: dims) v) :
    (∀ n, dim = .fixed n → v.elems.length = n) ∧
      (∀ u ∈ v.elems, ArrayOf p dims u) ∧ v = .array v.elems := by
  cases v with
  | array vs => exact ⟨h.1, h.2, rfl⟩
  | _ => exact h.elim

theorem arraySum_fixed (ns : Namespace) {front : AbiLength → Nat → Nat} (hfront : ∀ n k, front (.fixed n) k = 0)
    {p : Value → Prop} {f : Value → Nat} {k : Nat} (hf : ∀ u, p u → f u = k) :
    ∀ dims v, AbiLength.dynamic ∉ dims → ArrayOf p dims v →
      arraySum front f dims v = (dims.map (AbiLength.size ns)).prod * k
  | [], v, _, hv => by
    rw [List.map_nil, List.prod_nil, Nat.one_mul]
    exact hf v hv
  | dim :: dims, v, hd, hv => by
    obtain ⟨hlen, helems, _⟩ := elems_of_arrayOf hv
    cases dim with
    | dynamic => exact absurd List.mem_cons_self hd
    | fixed n =>
      have hrest : AbiLength.dynamic ∉ dims := fun h => hd (List.mem_cons_of_mem _ h)
      rw [arraySum, hfront, Nat.zero_add, List.map_cons, List.prod_cons,
        sum_map_const _ _ _ fun u hu => arraySum_fixed ns hfront hf dims u hrest (helems u hu),
        hlen n rfl, Nat.mul_assoc]
      rfl

/-- Where only the outer dimension may be dynamic -/
theorem arraySum_direct (ns : Namespace) {front : AbiLength → Nat → Nat}
    (hfront : ∀ n k, front (.fixed n) k = 0) {f : Value → Nat} (hf : ∀ u, p u → f u = k)
    (hi : AbiLength.dynamic ∉ inner) (hv : ArrayOf p (outer :: inner.reverse) v) :
    arraySum front f (outer :: inner.reverse) v =
      front outer v.elems.length + elementCount ns inner outer v * k := by
  obtain ⟨hlen, helems, _⟩ := elems_of_arrayOf hv
  have hi' : AbiLength.dynamic ∉ inner.reverse := by rwa [List.mem_reverse]
  have hsum := sum_map_const v.elems (arraySum front f inner.reverse) _ fun u hu =>
    arraySum_fixed ns hfront hf inner.reverse u hi' (helems u hu)
  rw [List.map_reverse, List.prod_reverse] at hsum
  rw [arraySum, hsum, ← Nat.mul_assoc]
  unfold elementCount
  cases outer with
  | fixed n => rw [hlen n rfl]
  | dynamic => rfl

theorem lengthPrefix_fixed (ns : Namespace) (packed : Bool) (n k : Nat) : lengthPrefix ns packed (.fixed n) k = 0 := by
  unfold lengthPrefix
  exact if_neg fun h => nomatch h.1

theorem lengthPrefix_packed (ns : Namespace) (dim : AbiLength) (n : Nat) :
    lengthPrefix ns true dim n = 0 := by
  unfold lengthPrefix
  exact if_neg fun h => h.2 rfl

theorem lengthPrefix_dynamic (ns : Namespace) (n : Nat) :
    lengthPrefix ns false .dynamic n = prefixWidth ns n := by
  unfold lengthPrefix
  exact if_pos ⟨rfl, Bool.false_ne_true⟩

theorem arraySum_add (front : AbiLength → Nat → Nat) (f g : Value → Nat) :
    ∀ dims v, arraySum front (fun u => f u + g u) dims v =
      arraySum front f dims v + arraySum (fun _ _ => 0) g dims v
  | [], _ => rfl
  | dim :: dims, v => by
    have hrest : v.elems.map (arraySum front (fun u => f u + g u) dims) =
        v.elems.map fun u => arraySum front f dims u + arraySum (fun _ _ => 0) g dims u :=
      List.map_congr_left fun u _ => arraySum_add front f g dims u
    rw [arraySum, arraySum, arraySum, hrest, List.sum_map_add]
    omega

theorem arraySum_congr (front : AbiLength → Nat → Nat) {p : Value → Prop} {f g : Value → Nat}
    (h : ∀ u, p u → f u = g u) :
    ∀ dims v, ArrayOf p dims v → arraySum front f dims v = arraySum front g dims v
  | [], v, hv => h v hv
  | dim :: dims, v, hv => by
    obtain ⟨_, helems, _⟩ := elems_of_arrayOf hv
    rw [arraySum, arraySum,
      List.map_congr_left fun u hu => arraySum_congr front h dims u (helems u hu)]

/-! ## Types whose sizes are known -/

mutual

/-- The size without padding is the size in memory. -/
theorem memorySize_of_nonPaddedSize :
    ∀ (ty : AbiType) (n : Nat), nonPaddedSize ns ty = some n → ty.memorySize ns = n
  | .elementary ty, n, h | .userType ty, n, h => by
    unfold nonPaddedSize at h
    split at h
    · exact Option.some.inj h
    · cases h
  | .struct first rest, n, h => by
    unfold nonPaddedSize at h
    split at h
    · rename_i a b ha hb
      rw [memorySize, memorySize_of_nonPaddedSize first a ha, memorySizes_of_nonPaddedSizes rest b hb]
      exact Option.some.inj h
    · cases h
  | .dynamicBytes, n, h | .string, n, h | .externalFunction, n, h | .array _ _ _, n, h
  | .slice _, n, h => nomatch h

theorem memorySizes_of_nonPaddedSizes :
    ∀ (tys : List AbiType) (n : Nat), nonPaddedSizes ns tys = some n → memorySizes ns tys = n
  | [], n, h => Option.some.inj h
  | ty :: tys, n, h => by
    unfold nonPaddedSizes at h
    split at h
    · rename_i a b ha hb
      rw [memorySizes, memorySize_of_nonPaddedSize ty a ha, memorySizes_of_nonPaddedSizes tys b hb]
      exact Option.some.inj h
    · cases h

end

theorem nonPaddedSize_of_allowMemcpy (h : allowMemcpy ns (.struct first rest) = true) :
    nonPaddedSize ns (.struct first rest) = some (memorySize ns (.struct first rest)) := by
  unfold allowMemcpy at h
  split at h
  · rename_i n hn
    rw [hn, memorySize_of_nonPaddedSize _ n hn]
  · cases h

theorem dynamic_notMem_inner (h : (inner ++ [outer]).count .dynamic = 0 ∨
      ((inner ++ [outer]).count .dynamic = 1 ∧ (inner ++ [outer]).getLast? = some .dynamic)) :
    AbiLength.dynamic ∉ inner := by
  intro hmem
  have hpos := List.count_pos_iff.mpr hmem
  rw [List.count_append, List.getLast?_append_cons, List.getLast?_singleton] at h
  rcases h with h | ⟨h, hlast⟩
  · omega
  · cases hlast
    rw [List.count_singleton_self] at h
    omega

/-- Elements that are assessed by their size in memory: what that is, and that the number of elements
is known from the outer dimension -/
theorem primitiveSize_eq_some (h : primitiveSize ns elem (inner ++ [outer]) = some k) :
    AbiLength.dynamic ∉ inner ∧ nonPaddedSize ns elem = some k ∧
      ((∃ ty, elem = .elementary ty) ∨ ∃ first rest, elem = .struct first rest) := by
  unfold primitiveSize at h
  cases elem with
  | elementary ty =>
    simp only at h
    split at h
    · rename_i hp
      refine ⟨dynamic_notMem_inner hp.2, ?_, .inl ⟨ty, rfl⟩⟩
      rw [nonPaddedSize, if_pos hp.1]
      exact h
    · cases h
  | struct first rest =>
    simp only at h
    split at h
    · rename_i hd
      exact ⟨dynamic_notMem_inner hd, h, .inr ⟨first, rest, rfl⟩⟩
    · cases h
  | _ => cases h

/-- A copied array has one dimension if it is dynamic. -/
theorem allowMemcpy_array (h : allowMemcpy ns (.array elem inner outer) = true) :
    AbiLength.dynamic ∉ inner ∧ (outer = .dynamic → inner = []) ∧ elem.allowMemcpy ns = true := by
  unfold allowMemcpy at h
  split at h
  · rw [Bool.and_eq_true, List.isEmpty_iff] at h
    obtain ⟨rfl, he⟩ := h
    exact ⟨List.not_mem_nil, fun _ => rfl, he⟩
  · rename_i hdyn
    rw [isDynamic, Bool.or_eq_true, not_or, List.contains_iff_mem, List.mem_append] at hdyn
    refine ⟨fun hm => hdyn.1 (.inl hm), ?_, h⟩
    rintro rfl
    exact absurd (.inr List.mem_cons_self) hdyn.1

/-- A copied array is assessed by the size of its elements in memory, unless they are of a user
type. -/
theorem primitiveSize_of_allowMemcpy (hvalid : AbiType.Valid (.array elem inner outer))
    (h : allowMemcpy ns (.array elem inner outer) = true) :
    (∃ ty, elem = .userType ty ∧ primitiveSize ns elem (inner ++ [outer]) = none) ∨
    ((∀ ty, elem ≠ .userType ty) ∧
      primitiveSize ns elem (inner ++ [outer]) = some (elem.memorySize ns)) := by
  obtain ⟨hi, hone, he⟩ := allowMemcpy_array h
  have hdirect : (inner ++ [outer]).count .dynamic = 0 ∨
      ((inner ++ [outer]).count .dynamic = 1 ∧ (inner ++ [outer]).getLast? = some .dynamic) := by
    rw [List.count_append, List.count_eq_zero_of_not_mem hi]
    cases outer with
    | fixed n => exact .inl (by simp)
    | dynamic => exact .inr ⟨by simp, by simp⟩
  cases elem with
  | elementary ty =>
    have hp : ty.isPrimitive = true := by
      cases ty <;> first | rfl | exact he
    refine .inr ⟨fun _ h => AbiType.noConfusion h, ?_⟩
    unfold primitiveSize
    simp only
    rw [if_pos ⟨hp, hdirect⟩]
    rfl
  | userType ty => exact .inl ⟨ty, rfl, rfl⟩
  | struct first rest =>
    refine .inr ⟨fun _ h => AbiType.noConfusion h, ?_⟩
    unfold primitiveSize
    simp only
    rw [if_pos hdirect, nonPaddedSize_of_allowMemcpy he]
  | array e i o => exact absurd rfl (hvalid.1 e i o)
  | _ => cases he

/-! ## By how much the sizes differ -/

theorem compactWidth_mono (h : a ≤ b) : compactWidth a ≤ compactWidth b := by
  unfold compactWidth
  split_ifs <;> omega

theorem lengthPrefix_mono (ns : Namespace) (packed : Bool) (dim : AbiLength) (h : a ≤ b) :
    lengthPrefix ns packed dim a ≤ lengthPrefix ns packed dim b := by
  unfold lengthPrefix prefixWidth
  split
  · split
    · exact Nat.le_refl _
    · exact compactWidth_mono h
  · exact Nat.le_refl _

theorem prod_pos_of_valid (ns : Namespace) (hi : AbiLength.dynamic ∉ inner)
    (h0 : AbiLength.fixed 0 ∉ inner) : 1 ≤ (inner.map (AbiLength.size ns)).prod := by
  induction inner with
  | nil => exact Nat.le_refl 1
  | cons dim dims ih =>
    rw [List.mem_cons, not_or] at hi h0
    rw [List.map_cons, List.prod_cons]
    have hdims := ih hi.2 h0.2
    have hdim : 1 ≤ dim.size ns := by
      cases dim with
      | dynamic => exact absurd rfl hi.1
      | fixed n =>
        cases n with
        | zero => exact absurd rfl h0.1
        | succ n => exact Nat.succ_pos n
    exact Nat.mul_le_mul hdim hdims

theorem length_le_elementCount (ns : Namespace) (hv : ArrayOf p (outer :: inner.reverse) v)
    (hi : AbiLength.dynamic ∉ inner) (h0 : AbiLength.fixed 0 ∉ inner ++ [outer]) :
    v.elems.length ≤ elementCount ns inner outer v := by
  have hprod := prod_pos_of_valid ns hi fun h => h0 (List.mem_append_left _ h)
  obtain ⟨hlen, _, _⟩ := elems_of_arrayOf hv
  unfold elementCount
  cases outer with
  | dynamic => exact Nat.le_mul_of_pos_right _ hprod
  | fixed n =>
    rw [hlen n rfl]
    exact Nat.le_mul_of_pos_right _ hprod

theorem wireSize_eq (ty : Elementary) :
    ty.wireSize ns = ty.memorySize ns + extension ns (.elementary ty) := by
  have := ty.memorySize_le_wireSize ns
  show ty.wireSize ns = ty.memorySize ns + (ty.wireSize ns - ty.memorySize ns)
  omega

/-- Elements that are assessed by their size in memory -/
theorem advanced_of_primitiveSize (packed : Bool)
    (h : primitiveSize ns elem (inner ++ [outer]) = some k) (hv : HasType ns elem v) :
    advanced ns packed elem v = k + extension ns elem := by
  obtain ⟨_, hk, ⟨ty, rfl⟩ | ⟨first, rest, rfl⟩⟩ := primitiveSize_eq_some h
  · rw [advanced, wireSize_eq, ← memorySize_of_nonPaddedSize _ k hk]
    rfl
  · cases v with
    | struct fields =>
      cases fields with
      | nil => exact hv.elim
      | cons x xs =>
        rw [advanced, hk]
        rfl
    | _ => exact hv.elim

/-- What is to be shown of a value, given the three numbers and their mismatch -/
def Differ (size advance bytes : Nat) (m : Mismatch) : Prop :=
  size + m.deficit = advance + m.surplus ∧ bytes = advance + m.beyond

theorem Differ.add {a b c a' b' c' : Nat} {m m' : Mismatch} (h : Differ a b c m)
    (h' : Differ a' b' c' m') : Differ (a + a') (b + b') (c + c') (m.add m') := by
  obtain ⟨h1, h2⟩ := h
  obtain ⟨h1', h2'⟩ := h'
  unfold Differ Mismatch.add
  simp only
  omega

theorem loop_differs (inner : List AbiLength) (outer : AbiLength)
    (h0 : AbiLength.fixed 0 ∉ inner ++ [outer])
    (hv : ArrayOf (HasType ns elem) (outer :: inner.reverse) v)
    (helem : ∀ u, HasType ns elem u → Differ (exprSize ns packed elem u)
      (advanced ns packed elem u) (written ns packed elem true u) (mismatch ns packed elem true u)) :
    Differ
      (match primitiveSize ns elem (inner ++ [outer]) with
        | some typeSize => directSize ns packed inner outer typeSize v
        | none => arraySum (lengthPrefix ns packed) (exprSize ns packed elem)
          (outer :: inner.reverse) v)
      (arraySum (lengthPrefix ns packed) (advanced ns packed elem) (outer :: inner.reverse) v)
      (arraySum (lengthPrefix ns packed) (written ns packed elem true) (outer :: inner.reverse) v)
      (loopMismatch ns packed elem inner outer (mismatch ns packed elem true) v) := by
  have hwritten : arraySum (lengthPrefix ns packed) (written ns packed elem true)
      (outer :: inner.reverse) v = _ :=
    arraySum_congr _ (fun u hu => (helem u hu).2) _ v hv
  rw [arraySum_add] at hwritten
  unfold loopMismatch
  cases hp : primitiveSize ns elem (inner ++ [outer]) with
  | some k =>
    obtain ⟨hi, _, _⟩ := primitiveSize_eq_some hp
    have hadv := arraySum_direct ns (lengthPrefix_fixed ns packed)
      (fun u hu => advanced_of_primitiveSize packed hp hu) hi hv
    have hmono := lengthPrefix_mono ns packed outer
      (length_le_elementCount ns hv hi h0)
    refine ⟨?_, hwritten⟩
    simp only [directSize]
    rw [hadv, Nat.mul_add]
    omega
  | none =>
    have hsize := arraySum_congr (lengthPrefix ns packed) (fun u hu => (helem u hu).1) _ v hv
    rw [arraySum_add, arraySum_add] at hsize
    exact ⟨hsize, hwritten⟩

theorem copy_differs (hvalid : AbiType.Valid (.array elem inner outer))
    (hv : ArrayOf (HasType ns elem) (outer :: inner.reverse) v)
    (hcopy : allowMemcpy ns (.array elem inner outer) = true) :
    Differ (exprSize ns packed (.array elem inner outer) v) (copiedSize ns packed elem inner outer v)
      (copiedSize ns packed elem inner outer v) (copyMismatch ns elem inner outer v) := by
  obtain ⟨hi, hone, _⟩ := allowMemcpy_array hcopy
  have hcopied : copiedSize ns packed elem inner outer v =
      elementCount ns inner outer v * elem.memorySize ns +
        lengthPrefix ns packed outer v.elems.length := by
    unfold copiedSize elementCount
    cases outer with
    | fixed n => rw [lengthPrefix_fixed]; rfl
    | dynamic => rw [hone rfl, List.map_nil, List.prod_nil, Nat.mul_one]
  rw [exprSize]
  rcases primitiveSize_of_allowMemcpy hvalid hcopy with ⟨ty, rfl, hp⟩ | ⟨huser, hp⟩
  · -- assessed element by element, with the integers extended
    have hsum := arraySum_direct ns (lengthPrefix_fixed ns packed)
      (p := HasType ns (.userType ty)) (f := exprSize ns packed (.userType ty))
      (k := ty.wireSize ns) (fun u _ => by rw [exprSize]) hi hv
    rw [hp]
    refine ⟨?_, rfl⟩
    simp only [copyMismatch]
    rw [hsum, hcopied, wireSize_eq, Nat.mul_add]
    show _ + (elementCount ns inner outer v * ty.memorySize ns +
      elementCount ns inner outer v * extension ns (.userType ty)) + 0 =
      elementCount ns inner outer v * ty.memorySize ns + _ + _
    omega
  · have hm : copyMismatch ns elem inner outer v = ⟨0, 0, 0⟩ := by
      unfold copyMismatch
      split
      · exact absurd rfl (huser _)
      · rfl
    rw [hp, hm]
    refine ⟨?_, rfl⟩
    simp only [directSize]
    rw [hcopied]
    cases outer with
    | fixed n => rw [lengthPrefix_fixed, lengthPrefix_fixed]
    | dynamic =>
      rw [hone rfl, show elementCount ns [] .dynamic v = v.elems.length from Nat.mul_one _]

theorem fields_of_hasType (h : HasType ns (.struct first rest) v) :
    ∃ x xs, v = .struct (x :: xs) ∧ HasType ns first x ∧ HaveTypes ns rest xs := by
  cases v with
  | struct fields =>
    cases fields with
    | nil => exact h.elim
    | cons x xs => exact ⟨x, xs, rfl, h⟩
  | _ => exact h.elim

theorem nonPaddedSize_struct (h : nonPaddedSize ns (.struct first rest) = some n) :
    ∃ a b, nonPaddedSize ns first = some a ∧ nonPaddedSizes ns rest = some b ∧ n = a + b := by
  unfold nonPaddedSize at h
  split at h
  · rename_i a b ha hb
    exact ⟨a, b, ha, hb, (Option.some.inj h).symm⟩
  · cases h

theorem nonPaddedSizes_cons {ty : AbiType} {tys : List AbiType}
    (h : nonPaddedSizes ns (ty :: tys) = some n) :
    ∃ a b, nonPaddedSize ns ty = some a ∧ nonPaddedSizes ns tys = some b ∧ n = a + b := by
  unfold nonPaddedSizes at h
  split at h
  · rename_i a b ha hb
    exact ⟨a, b, ha, hb, (Option.some.inj h).symm⟩
  · cases h

mutual

/-- A field of a struct of primitive fields -/
theorem written_static (packed : Bool) : ∀ (ty : AbiType) (n : Nat) (v : Value),
    nonPaddedSize ns ty = some n → HasType ns ty v →
      written ns packed ty false v = n + looseBytes ns ty
  | .elementary ty, n, v, hn, _ | .userType ty, n, v, hn, _ => by
    rw [written, looseBytes, ← memorySize_of_nonPaddedSize _ n hn, wireSize_eq]
    rfl
  | .struct first rest, n, v, hn, hv => by
    obtain ⟨x, xs, rfl, hx, hxs⟩ := fields_of_hasType hv
    rw [written, looseBytes]
    by_cases hcopy : allowMemcpy ns (.struct first rest) = true
    · rw [if_pos ⟨rfl, hcopy⟩, if_pos hcopy, hn]
      rfl
    · obtain ⟨a, b, ha, hb, rfl⟩ := nonPaddedSize_struct hn
      rw [if_neg fun h => hcopy h.2, if_neg hcopy, written_static packed first a x ha hx,
        writtens_static packed rest b xs hb hxs]
      omega
  | .dynamicBytes, n, v, hn, _ | .string, n, v, hn, _ | .externalFunction, n, v, hn, _
  | .array _ _ _, n, v, hn, _ | .slice _, n, v, hn, _ => nomatch hn

theorem writtens_static (packed : Bool) : ∀ (tys : List AbiType) (n : Nat) (vs : List Value),
    nonPaddedSizes ns tys = some n → HaveTypes ns tys vs →
      writtens ns packed tys vs = n + looseBytesAll ns tys
  | [], n, vs, hn, _ => by
    rw [writtens, looseBytesAll, ← Option.some.inj hn]
    exact fun _ _ _ _ h => nomatch h
  | ty :: tys, n, [], _, hv => hv.elim
  | ty :: tys, n, x :: xs, hn, hv => by
    obtain ⟨a, b, ha, hb, rfl⟩ := nonPaddedSizes_cons hn
    rw [writtens, looseBytesAll, written_static packed ty a x ha hv.1,
      writtens_static packed tys b xs hb hv.2]
    omega

end

mutual

/-- The size, the advance and the bytes written of any value -/
theorem sizes_differ (packed : Bool) : ∀ (ty : AbiType) (byRef : Bool) (v : Value), ty.Valid →
    HasType ns ty v → Differ (exprSize ns packed ty v) (advanced ns packed ty v)
      (written ns packed ty byRef v) (mismatch ns packed ty byRef v)
  | .elementary ty, byRef, v, _, hv | .userType ty, byRef, v, _, hv => by
    rw [exprSize, advanced, written, mismatch]
    · exact ⟨rfl, rfl⟩
    all_goals simp
  | .externalFunction, byRef, v, _, hv => by
    rw [exprSize, advanced, written, mismatch]
    · exact ⟨rfl, rfl⟩
    all_goals simp
  | .dynamicBytes, byRef, v, _, hv | .string, byRef, v, _, hv => by
    cases v with
    | bytes data => exact ⟨rfl, rfl⟩
    | _ => exact hv.elim
  | .array elem inner outer, byRef, v, hvalid, hv => by
    rw [HasType] at hv
    by_cases hcopy : allowMemcpy ns (.array elem inner outer) = true
    · rw [advanced, written, mismatch, if_pos hcopy, if_pos hcopy, if_pos hcopy]
      exact copy_differs hvalid hv hcopy
    · rw [exprSize, advanced, written, mismatch, if_neg hcopy, if_neg hcopy, if_neg hcopy]
      exact loop_differs inner outer hvalid.2.1 hv fun u hu => sizes_differ packed elem true u hvalid.2.2 hu
  | .slice elem, byRef, v, hvalid, hv => by
    rw [HasType] at hv
    rw [exprSize, advanced, written, mismatch]
    exact loop_differs [] .dynamic (by simp) hv fun u hu =>
      sizes_differ packed elem true u hvalid hu
  | .struct first rest, byRef, v, hvalid, hv => by
    obtain ⟨x, xs, rfl, hx, hxs⟩ := fields_of_hasType hv
    have hfirst := sizes_differ packed first false x hvalid.1 hx
    have hrest := all_sizes_differ packed rest xs hvalid.2 hxs
    rw [exprSize, advanced, written, mismatch]
    cases hn : nonPaddedSize ns (.struct first rest) with
    | none =>
      have hcopy : ¬ (byRef = false ∧ allowMemcpy ns (.struct first rest) = true) := by
        rintro ⟨_, hc⟩
        rw [nonPaddedSize_of_allowMemcpy hc] at hn
        cases hn
      rw [if_neg hcopy]
      exact hfirst.add hrest
    | some n =>
      by_cases hcopy : byRef = false ∧ allowMemcpy ns (.struct first rest) = true
      · simp only [if_pos hcopy]
        exact ⟨rfl, rfl⟩
      · obtain ⟨a, b, ha, hb, rfl⟩ := nonPaddedSize_struct hn
        simp only [if_neg hcopy]
        refine ⟨rfl, ?_⟩
        rw [written_static packed first a x ha hx, writtens_static packed rest b xs hb hxs]
        show _ = a + b + (looseBytes ns first + looseBytesAll ns rest)
        omega

theorem all_sizes_differ (packed : Bool) : ∀ (tys : List AbiType) (vs : List Value),
    AllValid tys → HaveTypes ns tys vs → Differ (exprSizes ns packed tys vs)
      (advances ns packed tys vs) (writtens ns packed tys vs) (mismatches ns packed tys vs)
  | [], [], _, _ => ⟨rfl, rfl⟩
  | [], _ :: _, _, hv | _ :: _, [], _, hv => hv.elim
  | ty :: tys, x :: xs, hvalid, hv =>
    (sizes_differ packed ty false x hvalid.1 hv.1).add
      (all_sizes_differ packed tys xs hvalid.2 hv.2)

end

/-! ## Lengths -/

/-- What an event costs: the bytes that it writes -/
def Write.size (w : Write) : Nat := w.bytes.length

theorem yields_u32 : Yields Write.size (u32 n) fun m k => m = n ∧ k = 0 ∧ n < 2 ^ 32 := by
  by_cases h : n < 2 ^ 32
  · rw [u32_eq h]
    exact yields_pure ⟨rfl, rfl, h⟩
  · unfold u32 Traced.require
    rw [if_neg h]
    exact fun _ hy => nomatch hy

theorem ends_u32 (h : n < 2 ^ 32) : Ends Write.size (u32 n) fun m k => m = n ∧ k = 0 := by
  rw [u32_eq h]
  exact ends_pure ⟨rfl, rfl⟩

theorem yields_write :
    Yields Write.size (write offset bytes) fun _ k => k = bytes.length := yields_emit rfl

theorem ends_write :
    Ends Write.size (write offset bytes) fun _ k => k = bytes.length := ends_emit rfl

/-- `encode_compact` in both its uses -/
theorem yields_encodeCompact (n : Nat) (offset : Option Nat) :
    Yields Write.size (encodeCompact n offset) fun w k =>
      w = compactWidth n ∧ (k = if offset.isSome then compactWidth n else 0) ∧ n < 2 ^ 30 := by
  by_cases hn : n < 2 ^ 30
  · cases offset with
    | none =>
      rw [encodeCompact_none n hn]
      exact yields_pure ⟨rfl, rfl, hn⟩
    | some offset =>
      rw [encodeCompact_eq n offset hn]
      intro w hw
      cases hw
      exact ⟨rfl, length_toLittleEndian _ _, hn⟩
  · rw [encodeCompact_abort n offset (by omega)]
    exact yields_abort

/-- Borsh writes lengths in four bytes. -/
theorem borsh_lengths (h : ns.target = .solana) (n offset : Nat) : prefixWidth ns n = 4 ∧
    sizeWidth ns n = pure 4 ∧
      encodeSize ns n offset = ⟨[⟨offset, toLittleEndian 4 n⟩], some 4⟩ := by
  unfold prefixWidth sizeWidth encodeSize
  rw [h]
  exact ⟨rfl, rfl, rfl⟩

/-- SCALE writes lengths as compact integers. -/
theorem scale_lengths (h : ns.target ≠ .solana) (n offset : Nat) :
    prefixWidth ns n = compactWidth n ∧ sizeWidth ns n = encodeCompact n none ∧
      encodeSize ns n offset = encodeCompact n (some offset) := by
  unfold prefixWidth sizeWidth encodeSize
  cases ht : ns.target with
  | solana => exact absurd ht h
  | _ => exact ⟨rfl, rfl, rfl⟩

theorem yields_sizeWidth (n : Nat) : Yields Write.size (sizeWidth ns n) fun w k =>
    w = prefixWidth ns n ∧ k = 0 ∧ (ns.target = .solana ∨ n < 2 ^ 30) := by
  by_cases h : ns.target = .solana
  · obtain ⟨hw, hs, _⟩ := borsh_lengths h n 0
    rw [hw, hs]
    exact yields_pure ⟨rfl, rfl, .inl h⟩
  · obtain ⟨hw, hs, _⟩ := scale_lengths h n 0
    rw [hw, hs]
    exact (yields_encodeCompact n none).mono fun w _ hw => ⟨hw.1, hw.2.1, .inr hw.2.2⟩

theorem yields_encodeSize (n offset : Nat) : Yields Write.size (encodeSize ns n offset) fun w k =>
    w = prefixWidth ns n ∧ k = prefixWidth ns n := by
  by_cases h : ns.target = .solana
  · obtain ⟨hw, _, he⟩ := borsh_lengths h n offset
    rw [hw, he]
    intro w hw
    cases hw
    exact ⟨rfl, length_toLittleEndian 4 n⟩
  · obtain ⟨hw, _, he⟩ := scale_lengths h n offset
    rw [hw, he]
    exact (yields_encodeCompact n (some offset)).mono fun w _ hw => ⟨hw.1, hw.2.1⟩

theorem ends_encodeSize (offset : Nat) (hn : ns.target = .solana ∨ n < 2 ^ 30) :
    Ends Write.size (encodeSize ns n offset) fun w k =>
      w = prefixWidth ns n ∧ k = prefixWidth ns n := by
  by_cases h : ns.target = .solana
  · obtain ⟨hw, _, he⟩ := borsh_lengths h n offset
    rw [hw, he]
    exact ⟨_, rfl, rfl, length_toLittleEndian 4 n⟩
  · obtain ⟨hw, _, he⟩ := scale_lengths h n offset
    rw [hw, he, encodeCompact_eq n offset (hn.resolve_left h)]
    exact ⟨_, rfl, rfl, length_toLittleEndian _ _⟩

/-! ## What the generated code computes -/

theorem yields_calculateStringSize (n : Nat) :
    Yields Write.size (calculateStringSize ns packed n) fun s k =>
      s = lengthPrefix ns packed .dynamic n + n ∧ k = 0 ∧ LengthOk ns packed n := by
  unfold calculateStringSize
  cases packed with
  | true =>
    rw [lengthPrefix_packed, Nat.zero_add]
    exact yields_pure ⟨rfl, rfl, .inl rfl⟩
  | false =>
    rw [lengthPrefix_dynamic]
    refine (yields_sizeWidth n).bind ?_
    rintro w k ⟨rfl, rfl, hok⟩
    refine yields_u32.mono ?_
    rintro s _ ⟨rfl, rfl, _⟩
    exact ⟨rfl, rfl, .inr hok⟩

theorem lengthOk_of_packed (h : ¬ (dim = .dynamic ∧ ¬ packed = true)) (n : Nat)
    (hd : dim = .dynamic) : LengthOk ns packed n := by
  refine .inl ?_
  by_contra hp
  exact h ⟨hd, hp⟩

/-- The prefix of a dimension, in front of which `size` bytes have been counted -/
theorem yields_dimensionSize (dim : AbiLength) (n size : Nat) :
    Yields Write.size (if dim = .dynamic ∧ ¬ packed then do
        let width ← sizeWidth ns n
        u32 (size + width)
      else pure size) fun s k =>
      s = size + lengthPrefix ns packed dim n ∧ k = 0 ∧ (dim = .dynamic → LengthOk ns packed n) := by
  unfold lengthPrefix
  by_cases h : dim = .dynamic ∧ ¬ packed = true
  · rw [if_pos h, if_pos h]
    refine (yields_sizeWidth n).bind ?_
    rintro w k ⟨rfl, rfl, hok⟩
    refine yields_u32.mono ?_
    rintro s _ ⟨rfl, rfl, _⟩
    exact ⟨rfl, rfl, fun _ => .inr hok⟩
  · rw [if_neg h, if_neg h]
    exact yields_pure ⟨rfl, rfl, lengthOk_of_packed h n⟩

theorem yields_calculateComplexArraySize {elemSize : Value → Writer Nat} {p q : Value → Prop}
    {f : Value → Nat}
    (helem : ∀ u, p u → Yields Write.size (elemSize u) fun s k => s = f u ∧ k = 0 ∧ q u) :
    ∀ dims v size, ArrayOf p dims v →
      Yields Write.size (calculateComplexArraySize ns packed elemSize dims v size) fun s k =>
        s = size + arraySum (lengthPrefix ns packed) f dims v ∧ k = 0 ∧
          ArrayLengths ns packed q dims v
  | [], v, size, hv => by
    rw [calculateComplexArraySize]
    refine (helem v hv).bind ?_
    rintro s k ⟨rfl, rfl, hq⟩
    refine yields_u32.mono ?_
    rintro s _ ⟨rfl, rfl, _⟩
    exact ⟨rfl, rfl, hq⟩
  | dim :: dims, v, size, hv => by
    obtain ⟨_, helems, harr⟩ := elems_of_arrayOf hv
    rw [harr, calculateComplexArraySize]
    refine (yields_dimensionSize dim v.elems.length size).bind ?_
    rintro s k ⟨rfl, rfl, hlen⟩
    refine (yields_foldlM (g := arraySum (lengthPrefix ns packed) f dims) (k := fun _ => 0)
      v.elems _ fun u hu size =>
        yields_calculateComplexArraySize helem dims u size (helems u hu)).mono ?_
    rintro s k ⟨rfl, rfl, hall⟩
    refine ⟨Nat.add_assoc _ _ _, ?_, hlen, hall⟩
    rw [sum_map_const _ _ 0 fun _ _ => rfl]
    rfl

mutual

/-- Primitive fields have no lengths. -/
theorem lengthsOk_static : ∀ (ty : AbiType) (n : Nat) (v : Value), nonPaddedSize ns ty = some n →
    LengthsOk ns packed ty v
  | .elementary ty, n, v, _ | .userType ty, n, v, _ => by simp [LengthsOk]
  | .struct first rest, n, v, hn => by
    obtain ⟨a, b, ha, hb, _⟩ := nonPaddedSize_struct hn
    cases v with
    | struct fields =>
      cases fields with
      | nil => simp [LengthsOk]
      | cons x xs => exact ⟨lengthsOk_static first a x ha, allLengthsOk_static rest b xs hb⟩
    | _ => simp [LengthsOk]
  | .dynamicBytes, n, v, hn | .string, n, v, hn | .externalFunction, n, v, hn
  | .array _ _ _, n, v, hn | .slice _, n, v, hn => nomatch hn

theorem allLengthsOk_static : ∀ (tys : List AbiType) (n : Nat) (vs : List Value),
    nonPaddedSizes ns tys = some n → AllLengthsOk ns packed tys vs
  | [], n, vs, _ => by simp [AllLengthsOk]
  | ty :: tys, n, [], _ => by simp [AllLengthsOk]
  | ty :: tys, n, x :: xs, hn => by
    obtain ⟨a, b, ha, hb, _⟩ := nonPaddedSizes_cons hn
    exact ⟨lengthsOk_static ty a x ha, allLengthsOk_static tys b xs hb⟩

end

theorem arrayLengths_fixed {p q : Value → Prop} (h : ∀ u, p u → q u) :
    ∀ dims v, AbiLength.dynamic ∉ dims → ArrayOf p dims v → ArrayLengths ns packed q dims v
  | [], v, _, hv => h v hv
  | dim :: dims, v, hd, hv => by
    obtain ⟨_, helems, _⟩ := elems_of_arrayOf hv
    rw [List.mem_cons, not_or] at hd
    exact ⟨fun he => absurd he.symm hd.1,
      fun u hu => arrayLengths_fixed h dims u hd.2 (helems u hu)⟩

theorem yields_product (inner : List AbiLength) (n : Nat) :
    Yields Write.size (inner.foldlM (fun size dim => u32 (size * dim.size ns)) n) fun m k =>
      m = n * (inner.map (AbiLength.size ns)).prod ∧ k = 0 := by
  induction inner generalizing n with
  | nil => exact yields_pure ⟨(Nat.mul_one n).symm, rfl⟩
  | cons dim dims ih =>
    rw [List.foldlM_cons]
    refine yields_u32.bind ?_
    rintro m k ⟨rfl, rfl, _⟩
    refine (ih _).mono ?_
    rintro m k ⟨rfl, rfl⟩
    exact ⟨Nat.mul_assoc _ _ _, rfl⟩

theorem yields_calculateArraySize (inner : List AbiLength) (outer : AbiLength)
    {elemSize : Value → Writer Nat} (h0 : AbiLength.fixed 0 ∉ inner ++ [outer])
    (hv : ArrayOf (HasType ns elem) (outer :: inner.reverse) v)
    (helem : ∀ u, HasType ns elem u → Yields Write.size (elemSize u) fun s k =>
      s = exprSize ns packed elem u ∧ k = 0 ∧ LengthsOk ns packed elem u) :
    Yields Write.size (calculateArraySize ns packed elem elemSize inner outer v) fun s k =>
      (s = match primitiveSize ns elem (inner ++ [outer]) with
        | some typeSize => directSize ns packed inner outer typeSize v
        | none => arraySum (lengthPrefix ns packed) (exprSize ns packed elem)
          (outer :: inner.reverse) v) ∧ k = 0 ∧
      ArrayLengths ns packed (LengthsOk ns packed elem) (outer :: inner.reverse) v := by
  obtain ⟨hfix, helems, harr⟩ := elems_of_arrayOf hv
  unfold calculateArraySize
  cases hp : primitiveSize ns elem (inner ++ [outer]) with
  | none =>
    refine (yields_calculateComplexArraySize helem _ v 0 hv).mono ?_
    rintro s k ⟨rfl, rfl, hlen⟩
    exact ⟨Nat.zero_add _, rfl, hlen⟩
  | some typeSize =>
    obtain ⟨hi, hstatic, _⟩ := primitiveSize_eq_some hp
    have hcount := length_le_elementCount ns hv hi h0
    rw [harr]
    refine (yields_product inner _).bind ?_
    rintro size k ⟨hsize, rfl⟩
    have hsize : size = elementCount ns inner outer v := hsize
    subst hsize
    refine (yields_sizeWidth _).bind ?_
    rintro width k ⟨rfl, rfl, hok⟩
    have hlengths : ArrayLengths ns packed (LengthsOk ns packed elem) (outer :: inner.reverse) v :=
      ⟨fun _ => .inr (hok.imp_right fun h => by omega), fun u hu =>
        arrayLengths_fixed (fun u _ => lengthsOk_static elem _ u hstatic) _ u
          (by rwa [List.mem_reverse]) (helems u hu)⟩
    refine yields_u32.bind ?_
    rintro size k ⟨rfl, rfl, _⟩
    simp only [← harr]
    unfold directSize lengthPrefix
    by_cases hcase : packed = true ∨ outer ≠ .dynamic
    · rw [if_pos hcase, if_neg fun h => hcase.elim h.2 fun hne => hne h.1]
      exact yields_pure ⟨rfl, rfl, hlengths⟩
    · rw [not_or, not_not] at hcase
      rw [if_neg (by rw [not_or, not_not]; exact hcase), if_pos ⟨hcase.2, hcase.1⟩]
      refine yields_u32.mono ?_
      rintro size k ⟨rfl, rfl, _⟩
      exact ⟨rfl, rfl, hlengths⟩

mutual

theorem yields_getExprSize : ∀ (ty : AbiType) (v : Value), ty.Valid → HasType ns ty v →
    Yields Write.size (getExprSize ns packed ty v) fun s k =>
      s = exprSize ns packed ty v ∧ k = 0 ∧ LengthsOk ns packed ty v
  | .elementary ty, v, _, hv | .userType ty, v, _, hv => by
    cases v with
    | scalar bytes => exact yields_pure ⟨rfl, rfl, trivial⟩
    | _ => exact hv.elim
  | .externalFunction, v, _, hv => by
    cases v with
    | externalFunction selector address => exact yields_pure ⟨rfl, rfl, trivial⟩
    | _ => exact hv.elim
  | .dynamicBytes, v, _, hv | .string, v, _, hv => by
    cases v with
    | bytes data => exact yields_calculateStringSize data.length
    | _ => exact hv.elim
  | .array elem inner outer, v, hvalid, hv => by
    rw [HasType] at hv
    rw [getExprSize, exprSize, LengthsOk]
    exact yields_calculateArraySize inner outer hvalid.2.1 hv fun u hu =>
      yields_getExprSize elem u hvalid.2.2 hu
  | .slice elem, v, hvalid, hv => by
    rw [HasType] at hv
    rw [getExprSize, exprSize, LengthsOk]
    exact yields_calculateArraySize [] .dynamic (by simp) hv fun u hu =>
      yields_getExprSize elem u hvalid hu
  | .struct first rest, v, hvalid, hv => by
    obtain ⟨x, xs, rfl, hx, hxs⟩ := fields_of_hasType hv
    rw [getExprSize, exprSize]
    cases hn : nonPaddedSize ns (.struct first rest) with
    | some n => exact yields_pure ⟨rfl, rfl, lengthsOk_static _ n _ hn⟩
    | none =>
      refine (yields_getExprSize first x hvalid.1 hx).bind ?_
      rintro s k ⟨rfl, rfl, hlen⟩
      refine (yields_fieldsSize rest xs _ hvalid.2 hxs).mono ?_
      rintro s k ⟨rfl, rfl, hlens⟩
      exact ⟨rfl, rfl, hlen, hlens⟩

theorem yields_fieldsSize : ∀ (tys : List AbiType) (vs : List Value) (size : Nat), AllValid tys →
    HaveTypes ns tys vs → Yields Write.size (fieldsSize ns packed tys vs size) fun s k =>
      s = size + exprSizes ns packed tys vs ∧ k = 0 ∧ AllLengthsOk ns packed tys vs
  | [], [], size, _, _ => yields_pure ⟨rfl, rfl, trivial⟩
  | [], _ :: _, _, _, hv | _ :: _, [], _, _, hv => hv.elim
  | ty :: tys, x :: xs, size, hvalid, hv => by
    rw [fieldsSize, exprSizes]
    refine (yields_getExprSize ty x hvalid.1 hv.1).bind ?_
    rintro s k ⟨rfl, rfl, hlen⟩
    refine yields_u32.bind ?_
    rintro s k ⟨rfl, rfl, _⟩
    refine (yields_fieldsSize tys xs _ hvalid.2 hv.2).mono ?_
    rintro s k ⟨rfl, rfl, hlens⟩
    exact ⟨Nat.add_assoc _ _ _, rfl, hlen, hlens⟩

end

end Solang.Codegen.Encoding
