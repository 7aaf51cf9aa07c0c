import Solang.Codegen.Encoding.Decode

/-!
# The decoder stays inside the buffer

The checks of the validator count the bytes of a value in memory, the decoder
advances by its bytes on the wire. `tight` says where the two agree and `sound`
where they have to. Then every access is in the buffer as soon as the lengths
the run reads are, and a run that ends has consumed the whole buffer.
-/

namespace Solang.Codegen.Encoding

open Code BufferValidator Traced

namespace AbiType

mutual

/-- Whatever is not copied takes as many bytes on the wire as in memory. -/
def tight (ns : Namespace) : AbiType → Bool
  | elementary ty => ty.wireSize ns == ty.memorySize ns
  | userType ty => ty.wireSize ns == ty.memorySize ns
  | externalFunction => ns.target.selectorLength == 4
  | array elem inner outer => allowMemcpy ns (.array elem inner outer) || elem.tight ns
  | struct first rest => allowMemcpy ns (.struct first rest) || (first.tight ns && allTight ns rest)
  | _ => true

def allTight (ns : Namespace) : List AbiType → Bool
  | [] => true
  | ty :: tys => ty.tight ns && allTight ns tys

end

/-- The number of types before the first dynamic one. -/
def staticRun : List AbiType → Nat
  | [] => 0
  | ty :: tys => if ty.isDynamic then 0 else staticRun tys + 1

mutual

/-- Every check that covers more than one value covers tight ones, and the
fields of a struct after a dynamic one are checked one by one. -/
def sound (ns : Namespace) : AbiType → Bool
  | array elem inner outer =>
    allowMemcpy ns (.array elem inner outer)
      || (if elem.isDynamic || (inner ++ [outer]).head? == some .dynamic then elem.sound ns
          else elem.tight ns)
  | slice elem => elem.sound ns
  | struct first rest =>
    allowMemcpy ns (.struct first rest)
      || (if 2 ≤ staticRun (first :: rest) then
            first.tight ns && soundFields ns (staticRun rest) rest
          else first.sound ns && soundFields ns 0 rest)
  | _ => true

/-- `k` fields are covered by the check at the start of the struct. -/
def soundFields (ns : Namespace) : Nat → List AbiType → Bool
  | _, [] => true
  | k + 1, ty :: tys => ty.tight ns && soundFields ns k tys
  | 0, ty :: tys => staticRun (ty :: tys) < 2 && ty.sound ns && soundFields ns 0 tys

end

/-- The same for the items of `abi_decode`, where a check may start at any of them;
`k` of them are covered by an earlier one. -/
def soundItems (ns : Namespace) : Nat → List AbiType → Bool
  | _, [] => true
  | k + 1, ty :: tys => ty.tight ns && soundItems ns k tys
  | 0, ty :: tys =>
    if 2 ≤ staticRun (ty :: tys) then ty.tight ns && soundItems ns (staticRun tys) tys
    else ty.sound ns && soundItems ns 0 tys

variable {ns : Namespace}

mutual

theorem nonPaddedSize_eq : ∀ (ty : AbiType) {n : Nat}, ty.nonPaddedSize ns = some n →
    ty.memorySize ns = n
  | .elementary ty, n, h | .userType ty, n, h => by
    rw [nonPaddedSize] at h
    split at h
    · exact Option.some.inj h
    · cases h
  | .struct first rest, n, h => by
    rw [nonPaddedSize] at h
    split at h
    · rename_i a b ha hb
      rw [memorySize, nonPaddedSize_eq first ha, nonPaddedSizes_eq rest hb]
      exact Option.some.inj h
    · cases h
  | .dynamicBytes, _, h | .string, _, h | .externalFunction, _, h
  | .array .., _, h | .slice _, _, h => by simp [nonPaddedSize] at h

theorem nonPaddedSizes_eq : ∀ (tys : List AbiType) {n : Nat}, nonPaddedSizes ns tys = some n →
    memorySizes ns tys = n
  | [], n, h => by
    rw [nonPaddedSizes] at h
    rw [memorySizes]
    exact Option.some.inj h
  | ty :: tys, n, h => by
    rw [nonPaddedSizes] at h
    split at h
    · rename_i a b ha hb
      rw [memorySizes, nonPaddedSize_eq ty ha, nonPaddedSizes_eq tys hb]
      exact Option.some.inj h
    · cases h

end

theorem nonPaddedSize_of_allowMemcpy {first : AbiType} {rest : List AbiType}
    (h : allowMemcpy ns (.struct first rest) = true) :
    nonPaddedSize ns (.struct first rest) = some (memorySize ns (.struct first rest)) := by
  rw [allowMemcpy] at h
  split at h
  · rename_i n hn
    rw [nonPaddedSize_eq _ hn, hn]
  · cases h

theorem memorySize_array {elem : AbiType} {inner : List AbiLength} {outer : AbiLength}
    (h : isDynamic (.array elem inner outer) = false) :
    memorySize ns (.array elem inner outer)
      = ((inner ++ [outer]).map (AbiLength.size ns)).prod * elem.memorySize ns := by
  rw [isDynamic, Bool.or_eq_false_iff] at h
  rw [memorySize, if_neg, Nat.mul_comm]
  intro hhead
  have hmem : AbiLength.dynamic ∈ inner ++ [outer] := List.mem_of_mem_head? hhead
  simp only [List.contains_eq_mem, decide_eq_false_iff_not] at h
  exact h.1 hmem

end AbiType

open AbiType

variable {ns : Namespace} {buf : Buffer} {v : BufferValidator} {elem : AbiType}
  {readElem : BufferValidator → Generated} {dims : List AbiLength}

theorem validateArray_verified (v : BufferValidator) :
    v.validateArray.validationNecessary = false := by
  simp [validateArray, validationNecessary]

variable {offset : Nat} {ty : AbiType} {tys : List AbiType}

/-- The loop over the elements of a dimension; `I k` holds of the offset after `k`
of them. -/
theorem reads_arrayLoop {body : Nat → Code (Value × Nat)} {I : Nat → Nat → Prop} {n : Nat}
    (hstart : I 0 offset)
    (hround : ∀ k o, k < n → I k o → Reads buf (body o) fun r => I (k + 1) r.2) :
    Reads buf (Traced.iterate (arrayRound body) n ([], offset)) fun r => I n r.2 := by
  have hstep : ∀ k (s : List Value × Nat), k < n → I k s.2 →
      Reads buf (arrayRound body s) fun r => I (k + 1) r.2 := by
    intro k s hk hs
    refine Ensures.bind (hround k s.2 hk hs) ?_
    rintro ⟨x, o⟩ hx
    exact ensures_pure hx
  exact ensures_iterate hstep n 0 ([], offset) rfl hstart

theorem covered_complexArray
    (hread : ∀ v : BufferValidator, v.validationNecessary = false →
      (readElem v).1 = v ∧ Covered ns buf elem (readElem v).2) :
    ∀ (dims : List AbiLength) (v : BufferValidator), AbiLength.dynamic ∉ dims →
      v.validationNecessary = false →
      (decodeComplexArray ns buf elem readElem dims v).1 = v ∧
      ∀ offset, offset + (dims.map (AbiLength.size ns)).prod * elem.memorySize ns ≤ buf.length →
        Reads buf ((decodeComplexArray ns buf elem readElem dims v).2 offset) fun r =>
          r.2 = offset + (dims.map (AbiLength.size ns)).prod * elem.memorySize ns
  | [], v, _, hv => by
    obtain ⟨hval, hcode⟩ := hread v hv
    refine ⟨hval, fun offset hoff => ?_⟩
    simp only [List.map_nil, List.prod_nil, Nat.one_mul] at hoff ⊢
    refine Ensures.bind (hcode offset hoff) ?_
    rintro ⟨x, advance⟩ rfl
    refine Ensures.bind reads_addU32 ?_
    rintro _ rfl
    exact ensures_pure (Nat.add_comm _ _)
  | .dynamic :: dims, v, hdims, _ => absurd List.mem_cons_self hdims
  | .fixed n :: dims, v, hdims, hv => by
    have hdims' : AbiLength.dynamic ∉ dims := fun h => hdims (List.mem_cons_of_mem _ h)
    obtain ⟨hval, hcode⟩ := covered_complexArray hread dims v hdims' hv
    have hprod : ((AbiLength.fixed n :: dims).map (AbiLength.size ns)).prod * elem.memorySize ns
        = n * ((dims.map (AbiLength.size ns)).prod * elem.memorySize ns) := by
      rw [List.map_cons, List.prod_cons, Nat.mul_assoc]
      rfl
    generalize (dims.map (AbiLength.size ns)).prod * elem.memorySize ns = size at hcode hprod
    simp only [decodeComplexArray, hv, Bool.false_and, Bool.false_eq_true, if_false, hprod]
    refine ⟨hval, fun offset hoff => ?_⟩
    refine Ensures.bind (ensures_pure (Q := fun r => r = (n, offset)) rfl) ?_
    rintro _ rfl
    -- after `k` rounds the loop stands `k` elements further
    refine Ensures.bind (reads_arrayLoop (I := fun k o => o = offset + k * size) (by simp) ?_) ?_
    · rintro k _ hk rfl
      have hle : (k + 1) * size ≤ n * size := Nat.mul_le_mul_right size hk
      rw [Nat.succ_mul] at hle
      refine (hcode (offset + k * size) (by omega)).mono fun r hr => ?_
      rw [hr, Nat.succ_mul, Nat.add_assoc]
    · rintro ⟨xs, reached⟩ hreached
      exact ensures_pure hreached

theorem covered_decodeArray
    (hread : ∀ v : BufferValidator, v.validationNecessary = false →
      (readElem v).1 = v ∧ Covered ns buf elem (readElem v).2)
    (hdims : AbiLength.dynamic ∉ dims) (hv : v.validationNecessary = false) :
    (decodeArray ns buf elem readElem dims v).1 = v ∧
    ∀ offset, offset + (dims.map (AbiLength.size ns)).prod * elem.memorySize ns ≤ buf.length →
      Reads buf ((decodeArray ns buf elem readElem dims v).2 offset) fun r =>
        r.2 = (dims.map (AbiLength.size ns)).prod * elem.memorySize ns := by
  obtain ⟨hval, hcode⟩ := covered_complexArray hread dims.reverse v (by simpa using hdims) hv
  rw [List.map_reverse, List.prod_reverse] at hcode
  refine ⟨hval, fun offset hoff => ?_⟩
  refine Ensures.bind (hcode offset hoff) ?_
  rintro ⟨x, reached⟩ hreached
  exact ensures_pure (by simp only at hreached ⊢; omega)

mutual

/-- Under an earlier check, the code for a tight type stays in the bytes checked. -/
theorem covered_read : ∀ (ty : AbiType) (v : BufferValidator), ty.isDynamic = false →
    ty.tight ns = true → v.validationNecessary = false →
    (readFromBuffer ns buf ty v).1 = v ∧ Covered ns buf ty (readFromBuffer ns buf ty v).2
  | .elementary ty, v, _, ht, hv | .userType ty, v, _, ht, hv => by
    rw [tight, beq_iff_eq] at ht
    rw [readFromBuffer]
    exact ⟨rfl, fun offset hoff => covered_elementary hv ht hoff⟩
  | .dynamicBytes, _, hs, _, _ | .string, _, hs, _, _ | .slice _, _, hs, _, _ => by cases hs
  | .externalFunction, v, _, ht, hv => by
    rw [tight, beq_iff_eq] at ht
    rw [readFromBuffer]
    exact ⟨rfl, fun offset hoff => covered_externalFunction hv ht hoff⟩
  | .array elem inner outer, v, hs, ht, hv => by
    have hsize : memorySize ns (.array elem inner outer) = _ := memorySize_array hs
    rw [isDynamic, Bool.or_eq_false_iff] at hs
    obtain ⟨hdims, helem⟩ := hs
    have hmem : AbiLength.dynamic ∉ inner ++ [outer] := by simpa using hdims
    rw [tight, Bool.or_eq_true] at ht
    rw [readFromBuffer, Covered, hsize]
    split
    · refine ⟨rfl, fun offset hoff => ?_⟩
      cases outer with
      | fixed n => exact covered_copyArray (n := n) hv hoff
      | dynamic => exact absurd (by simp) hmem
    · rename_i hcopy
      have ht' := ht.resolve_left hcopy
      exact covered_decodeArray (fun v hv => covered_read elem v helem ht' hv) hmem hv
  | .struct first rest, v, hs, ht, hv => by
    rw [isDynamic, Bool.or_eq_false_iff] at hs
    rw [tight, Bool.or_eq_true] at ht
    rw [readFromBuffer]
    split
    · rename_i hcopy
      refine ⟨rfl, fun offset hoff => ?_⟩
      rw [nonPaddedSize_of_allowMemcpy hcopy]
      refine Ensures.bind (reads_of_verified hv) fun _ _ => ?_
      exact Ensures.bind (reads_data hoff) fun _ _ => ensures_pure rfl
    · rename_i hcopy
      have ht' := ht.resolve_left hcopy
      rw [Bool.and_eq_true] at ht'
      have hsub : v.createSubValidator (first :: rest)
          = ⟨first :: rest, some (rest.length + 1), rest.length + 1⟩ := by
        simp [createSubValidator, hv]
      simp only [hv, Bool.false_eq_true, if_false, hsub]
      set sub : BufferValidator := ⟨first :: rest, some (rest.length + 1), rest.length + 1⟩
      have hsv : sub.validationNecessary = false := by simp [sub, validationNecessary]
      obtain ⟨hval, hcode⟩ := covered_read first sub hs.1 ht'.1 hsv
      refine ⟨trivial, fun offset hoff => ?_⟩
      rw [memorySize] at hoff ⊢
      refine Ensures.bind (ensures_pure (Q := fun _ => True) trivial) fun _ _ => ?_
      refine Ensures.bind (hcode offset (by omega)) ?_
      rintro ⟨x, advance⟩ rfl
      refine Ensures.bind (covered_fields rest 1 _ offset _ (rest.length + 1) hs.2 ht'.2
        (by rw [hval]) (by omega) (by simp only; omega)) ?_
      rintro ⟨xs, others⟩ rfl
      have hn : ∀ n, nonPaddedSize ns (.struct first rest) = some n →
          n = first.memorySize ns + memorySizes ns rest := fun n hn => by
        rw [← nonPaddedSize_eq _ hn, memorySize]
      refine Ensures.bind (reads_structSize fun n h => (hn n h).le) fun size hsize => ?_
      exact ensures_pure (hsize.2.elim (hn size) id)

/-- The fields up to number `n` are covered by an earlier check. -/
theorem covered_fields : ∀ (tys : List AbiType) (i : Nat) (v : BufferValidator)
    (offset advance n : Nat), anyDynamic tys = false → allTight ns tys = true →
    v.verifiedUntil = some n → i + tys.length ≤ n + 1 →
    offset + advance + memorySizes ns tys ≤ buf.length →
    Reads buf (readFields ns buf tys i v offset advance) fun r => r.2 = memorySizes ns tys
  | [], _, _, _, _, _, _, _, _, _, _ => by
    rw [readFields]
    exact ensures_pure rfl
  | ty :: tys, i, v, offset, advance, n, hs, ht, hn, hi, hoff => by
    rw [anyDynamic, Bool.or_eq_false_iff] at hs
    rw [allTight, Bool.and_eq_true] at ht
    rw [List.length_cons] at hi
    rw [memorySizes] at hoff ⊢
    have hv : (v.setArgumentNumber i).validationNecessary = false := by
      simp only [validationNecessary, setArgumentNumber, hn, decide_eq_false_iff_not]
      omega
    obtain ⟨hval, hcode⟩ := covered_read ty _ hs.1 ht.1 hv
    rw [readFields]
    simp only [validateBuffer, hv, Bool.false_eq_true, if_false]
    refine Ensures.bind (ensures_pure (Q := fun _ => True) trivial) fun _ _ => ?_
    refine Ensures.bind reads_addU32 ?_
    rintro _ rfl
    refine Ensures.bind (hcode (offset + advance) (by omega)) ?_
    rintro ⟨x, advance'⟩ rfl
    refine Ensures.bind (covered_fields tys (i + 1) _ _ _ n hs.2 ht.2 (by rw [hval]; exact hn)
      (by omega) (by simp only; omega)) ?_
    rintro ⟨xs, others⟩ rfl
    exact ensures_pure rfl

end

theorem reads_arrayLength {dim : AbiLength} (hoff : offset ≤ buf.length) :
    Reads buf (arrayLength ns buf dim offset) fun r => r.2 ≤ buf.length := by
  cases dim with
  | fixed n => exact ensures_pure hoff
  | dynamic =>
    refine Ensures.bind reads_retrieveArrayLength ?_
    rintro ⟨length, sizeLength⟩ -
    refine Ensures.bind reads_addU32 ?_
    rintro _ rfl
    exact Ensures.bind reads_validateOffset fun _ hstart => ensures_pure hstart

/-- The loops over an array whose elements may not be covered by one check. The last of
`dims`, the innermost, decides how the elements are read. -/
theorem alone_complexArray (dims : List AbiLength)
    (halone : elem.isDynamic = true ∨ (∀ n, dims.getLast? ≠ some (.fixed n)) →
      ∀ v : BufferValidator, v.validationNecessary = true → Alone ns buf elem (readElem v).2)
    (hcovered : elem.isDynamic = false → (∃ n, dims.getLast? = some (.fixed n)) →
      ∀ v : BufferValidator, v.validationNecessary = false →
        (readElem v).1 = v ∧ Covered ns buf elem (readElem v).2) (hv : v.validationNecessary = true)
    (hoff : offset ≤ buf.length) :
    Reads buf ((decodeComplexArray ns buf elem readElem dims v).2 offset) fun r =>
      r.2 ≤ buf.length := by
  induction dims generalizing offset with
  | nil =>
    refine Ensures.bind (halone (.inr (by simp)) v hv offset hoff) ?_
    rintro ⟨x, advance⟩ ⟨hadvance, -⟩
    refine Ensures.bind reads_addU32 ?_
    rintro _ rfl
    exact ensures_pure (by simp only at hadvance ⊢; omega)
  | cons dim dims ih =>
    by_cases hknown : AbiLength.dynamic ∉ dim :: dims ∧ elem.isDynamic = false
    · obtain ⟨hdims, helem⟩ := hknown
      have hlast : ∃ n, (dim :: dims).getLast? = some (.fixed n) := by
        rw [List.getLast?_eq_some_getLast (List.cons_ne_nil dim dims)]
        have hmem := List.getLast_mem (List.cons_ne_nil dim dims)
        cases hl : (dim :: dims).getLast (List.cons_ne_nil dim dims) with
        | fixed n => exact ⟨n, rfl⟩
        | dynamic => exact absurd (hl ▸ hmem) hdims
      -- one check covers the whole array
      have hc := (covered_complexArray (hcovered helem hlast) (dim :: dims) v.validateArray hdims
        (validateArray_verified v)).2 offset
      have hcode : (decodeComplexArray ns buf elem readElem (dim :: dims) v).2 offset =
          (v.validateOffsetPlusSize buf offset
            (((dim :: dims).map (AbiLength.size ns)).prod * elem.memorySize ns) >>= fun _ =>
          (decodeComplexArray ns buf elem readElem (dim :: dims) v.validateArray).2 offset) := by
        simp [decodeComplexArray, hv, helem, hdims, validateArray_verified]
      rw [hcode]
      refine Ensures.bind (reads_validateOffsetPlusSize hv) fun _ hcheck => ?_
      exact (hc hcheck).mono fun r hr => hr ▸ hcheck
    · have hcode : (decodeComplexArray ns buf elem readElem (dim :: dims) v).2 offset =
          (arrayLength ns buf dim offset >>= fun r =>
            Traced.iterate (arrayRound (decodeComplexArray ns buf elem readElem dims v).2) r.1 ([], r.2)
              >>= fun r => pure (.array r.1, r.2)) := by
        have hk : (v.validationNecessary && !(dim :: dims).contains .dynamic && !elem.isDynamic)
            = false := by
          simpa [hv] using hknown
        simp only [decodeComplexArray, hk, Bool.false_eq_true, if_false]
      have hbody : ∀ o, o ≤ buf.length →
          Reads buf ((decodeComplexArray ns buf elem readElem dims v).2 o) fun r =>
            r.2 ≤ buf.length := by
        cases dims with
        | nil =>
          have hone : elem.isDynamic = true ∨ ∀ n, [dim].getLast? ≠ some (.fixed n) := by
            cases dim with
            | fixed n => exact .inl (by simpa using hknown)
            | dynamic => exact .inr (by simp)
          exact fun o ho => ih (fun _ => halone hone) (fun _ h => by simp at h) ho
        | cons dim' dims =>
          rw [List.getLast?_cons_cons] at halone hcovered
          exact fun o ho => ih halone hcovered ho
      rw [hcode]
      refine Ensures.bind (reads_arrayLength hoff) fun r hr => ?_
      refine Ensures.bind (reads_arrayLoop (I := fun _ o => o ≤ buf.length) hr
        fun _ o _ ho => hbody o ho) fun r hr => ?_
      exact ensures_pure hr

theorem alone_decodeArray (halone : elem.isDynamic = true ∨ dims.head? = some .dynamic →
      ∀ v : BufferValidator, v.validationNecessary = true → Alone ns buf elem (readElem v).2)
    (hcovered : elem.isDynamic = false → dims.head? ≠ some .dynamic →
      ∀ v : BufferValidator, v.validationNecessary = false →
        (readElem v).1 = v ∧ Covered ns buf elem (readElem v).2) (hdims : dims ≠ [])
    (hv : v.validationNecessary = true) (hoff : offset ≤ buf.length) :
    Reads buf ((decodeArray ns buf elem readElem dims v).2 offset) fun r =>
      offset + r.2 ≤ buf.length := by
  obtain ⟨dim, rest, rfl⟩ := List.exists_cons_of_ne_nil hdims
  have hlast : (dim :: rest).reverse.getLast? = some dim := by simp
  refine Ensures.bind (alone_complexArray (dim :: rest).reverse (fun h => halone ?_)
    (fun hs hf => hcovered hs ?_) hv hoff) ?_
  · refine h.imp_right fun h => ?_
    cases dim with
    | fixed n => exact absurd hlast (h n)
    | dynamic => rfl
  · obtain ⟨n, hn⟩ := hf
    rw [hlast] at hn
    simp only [List.head?_cons, hn]
    simp
  · rintro ⟨x, reached⟩ hreached
    exact ensures_pure (by simp only at hreached ⊢; omega)

/-- Reading an item leaves the validator as it is or marks the item as checked. -/
theorem validator_complexArray
    (hread : ∀ v : BufferValidator, (readElem v).1 = v ∨ (readElem v).1 = v.validateArray) :
    ∀ (dims : List AbiLength) (v : BufferValidator),
      (decodeComplexArray ns buf elem readElem dims v).1 = v ∨
      (decodeComplexArray ns buf elem readElem dims v).1 = v.validateArray
  | [], v => hread v
  | dim :: dims, v => by
    simp only [decodeComplexArray]
    split
    · exact .inr ((validator_complexArray hread dims v.validateArray).elim id id)
    · exact validator_complexArray hread dims v

theorem validator_decodeArray
    (hread : ∀ v : BufferValidator, (readElem v).1 = v ∨ (readElem v).1 = v.validateArray) :
    (decodeArray ns buf elem readElem dims v).1 = v ∨
      (decodeArray ns buf elem readElem dims v).1 = v.validateArray :=
  validator_complexArray hread dims.reverse v

theorem validator_read : ∀ (ty : AbiType) (v : BufferValidator),
    (readFromBuffer ns buf ty v).1 = v ∨ (readFromBuffer ns buf ty v).1 = v.validateArray
  | .elementary _, v | .userType _, v | .dynamicBytes, v
  | .string, v | .externalFunction, v => .inl (by rw [readFromBuffer])
  | .array elem inner outer, v => by
    rw [readFromBuffer]
    split
    · exact .inl rfl
    · exact validator_decodeArray (validator_read elem)
  | .slice elem, v => by
    rw [readFromBuffer]
    exact validator_decodeArray (validator_read elem)
  | .struct first rest, v => by
    rw [readFromBuffer]
    split
    · exact .inl rfl
    · exact .inl rfl

/-- The validator before the items `tys`, the first of which has number `i` and starts
at `offset`: an earlier check covers `k` of them. -/
structure Verified (ns : Namespace) (buf : Buffer) (v : BufferValidator) (tys : List AbiType)
    (i k offset : Nat) : Prop where
  types : v.types.drop i = tys
  static : k ≤ staticRun tys
  fits : offset + memorySizes ns (tys.take k) ≤ buf.length
  until_lt : k = 0 → ∀ n, v.verifiedUntil = some n → n < i
  until_eq : ∀ j, k = j + 1 → v.verifiedUntil = some (i + j)

namespace Verified

variable {ty : AbiType} {tys : List AbiType} {i k offset : Nat}

theorem necessary (h : Verified ns buf v tys i 0 offset) :
    (v.setArgumentNumber i).validationNecessary = true := by
  cases hv : v.verifiedUntil with
  | none => simp [validationNecessary, setArgumentNumber, hv]
  | some n =>
    have hlt := h.until_lt rfl n hv
    simp [validationNecessary, setArgumentNumber, hv, hlt]

theorem not_necessary (h : Verified ns buf v tys i (k + 1) offset) :
    (v.setArgumentNumber i).validationNecessary = false := by
  simp [validationNecessary, setArgumentNumber, h.until_eq k rfl]

theorem isDynamic_head (h : Verified ns buf v (ty :: tys) i (k + 1) offset) :
    ty.isDynamic = false := by
  have hs := h.static
  rw [staticRun] at hs
  cases hd : ty.isDynamic with
  | false => rfl
  | true =>
    rw [hd] at hs
    exact absurd hs (by simp)

theorem fits_head (h : Verified ns buf v (ty :: tys) i (k + 1) offset) :
    offset + ty.memorySize ns ≤ buf.length := by
  have hf := h.fits
  rw [List.take_succ_cons, memorySizes] at hf
  omega

theorem drop_succ {w : BufferValidator} (h : Verified ns buf v (ty :: tys) i k offset)
    (hw : w.types = v.types) : w.types.drop (i + 1) = tys := by
  rw [hw, ← List.drop_drop, h.types]
  rfl

/-- After a covered item. -/
theorem next (h : Verified ns buf v (ty :: tys) i (k + 1) offset) :
    Verified ns buf (v.setArgumentNumber i) tys (i + 1) k (offset + ty.memorySize ns) where
  types := h.drop_succ rfl
  static := by
    have hs := h.static
    rw [staticRun, h.isDynamic_head] at hs
    simpa using hs
  fits := by
    have hf := h.fits
    rw [List.take_succ_cons, memorySizes] at hf
    omega
  until_lt hk n hn := by
    have hu := h.until_eq k rfl
    rw [setArgumentNumber, hu] at hn
    have := Option.some.inj hn
    omega
  until_eq j hj := by
    rw [setArgumentNumber, h.until_eq k rfl, hj]
    congr 1
    omega

/-- After an item that was checked on its own. -/
theorem next_alone {w : BufferValidator} {offset' : Nat}
    (h : Verified ns buf v (ty :: tys) i 0 offset)
    (hw : w = v.setArgumentNumber i ∨ w = (v.setArgumentNumber i).validateArray)
    (hoff : offset' ≤ buf.length) : Verified ns buf w tys (i + 1) 0 offset' where
  types := h.drop_succ (by obtain rfl | rfl := hw <;> rfl)
  static := Nat.zero_le _
  fits := by simpa [memorySizes] using hoff
  until_lt _ n hn := by
    obtain rfl | rfl := hw
    · exact Nat.lt_succ_of_lt (h.until_lt rfl n hn)
    · obtain rfl := Option.some.inj hn
      exact Nat.lt_succ_self i
  until_eq j hj := by cases hj

theorem setArgumentNumber (h : Verified ns buf v tys i k offset) :
    Verified ns buf (v.setArgumentNumber i) tys i k offset :=
  ⟨h.types, h.static, h.fits, h.until_lt, h.until_eq⟩

theorem le (h : Verified ns buf v tys i 0 offset) : offset ≤ buf.length := by
  have := h.fits
  omega

end Verified

theorem maximumVerifiable_eq : ∀ (tys : List AbiType) (acc i : Nat),
    maximumVerifiable acc i tys = if staticRun tys = 0 then acc else i + staticRun tys - 1
  | [], _, _ => rfl
  | ty :: tys, acc, i => by
    rw [maximumVerifiable, staticRun]
    split
    · rfl
    · rw [maximumVerifiable_eq tys i (i + 1)]
      split
      · simp_all
      · simp

section

variable {tys : List AbiType} {i offset : Nat}

/-- Fewer than two static items in front: there is nothing to check. -/
theorem verifyBuffer_of_lt (htys : v.types.drop v.currentArg = tys) (hrun : staticRun tys < 2) :
    v.verifyBuffer ns buf = (v, fun _ => pure ()) := by
  rw [verifyBuffer, htys, maximumVerifiable_eq, if_pos]
  split <;> omega

/-- A check of several static items covers all of them. -/
theorem verifyBuffer_of_le (htys : v.types.drop v.currentArg = tys) (hrun : 2 ≤ staticRun tys) :
    (v.verifyBuffer ns buf).1 = { v with verifiedUntil := some (v.currentArg + staticRun tys - 1) } ∧
    ∀ offset, Reads buf ((v.verifyBuffer ns buf).2 offset) fun _ =>
      Verified ns buf (v.verifyBuffer ns buf).1 tys v.currentArg (staticRun tys) offset := by
  have hne : ¬ staticRun tys = 0 := by omega
  have hlast : maximumVerifiable v.currentArg v.currentArg tys
      = v.currentArg + staticRun tys - 1 := by
    rw [maximumVerifiable_eq, if_neg hne]
  have hcount : v.currentArg + staticRun tys - 1 + 1 - v.currentArg = staticRun tys := by omega
  have hv : v.currentArg + staticRun tys - 1 ≠ v.currentArg := by omega
  rw [verifyBuffer, htys, hlast, if_neg hv, hcount]
  refine ⟨rfl, fun offset => ?_⟩
  refine Ensures.bind reads_addU32 ?_
  rintro _ rfl
  refine reads_validateOffset.mono fun _ hreach => ?_
  refine ⟨htys, Nat.le_refl _, hreach, fun h => absurd h hne, fun j hj => ?_⟩
  rw [hj]
  rfl

theorem initializeValidation_of_lt (hrun : staticRun tys < 2) :
    (new tys).initializeValidation ns buf = (new tys, fun _ => pure ()) :=
  verifyBuffer_of_lt rfl hrun

theorem initializeValidation_of_le (hrun : 2 ≤ staticRun tys) :
    ((new tys).initializeValidation ns buf).1.setArgumentNumber 0
      = ((new tys).initializeValidation ns buf).1 ∧
    ∀ offset, Reads buf (((new tys).initializeValidation ns buf).2 offset) fun _ =>
      Verified ns buf ((new tys).initializeValidation ns buf).1 tys 0 (staticRun tys) offset := by
  have hinit : (new tys).initializeValidation ns buf = (new tys).verifyBuffer ns buf := rfl
  have hdrop : (new tys).types.drop (new tys).currentArg = tys := rfl
  obtain ⟨hval, hcheck⟩ := verifyBuffer_of_le hdrop hrun
  rw [hinit]
  exact ⟨by rw [hval]; rfl, hcheck⟩

theorem verified_new (hoff : offset ≤ buf.length) : Verified ns buf (new tys) tys 0 0 offset where
  types := rfl
  static := Nat.zero_le _
  fits := by simpa [memorySizes] using hoff
  until_lt _ _ hn := nomatch hn
  until_eq _ hj := nomatch hj

end

theorem taken_of_covered {size : Nat} (hsize : size = ty.memorySize ns)
    (hoff : offset + ty.memorySize ns ≤ buf.length) : Taken ns buf ty offset size :=
  ⟨hsize ▸ hoff, fun _ hn => by rw [hsize, nonPaddedSize_eq ty hn]⟩

theorem taken_fields {advance others : Nat} (h : Taken ns buf ty offset advance)
    (ho : offset + advance + others ≤ buf.length ∧
      ∀ n, nonPaddedSizes ns tys = some n → n ≤ others) :
    offset + (advance + others) ≤ buf.length ∧
      ∀ n, nonPaddedSizes ns (ty :: tys) = some n → n ≤ advance + others := by
  refine ⟨by omega, fun n hn => ?_⟩
  rw [nonPaddedSizes] at hn
  split at hn
  · rename_i a b ha hb
    rw [← Option.some.inj hn]
    exact Nat.add_le_add (h.2 a ha) (ho.2 b hb)
  · cases hn

theorem staticRun_cons (h : 2 ≤ staticRun (ty :: tys)) :
    staticRun (ty :: tys) = staticRun tys + 1 := by
  rw [staticRun] at h ⊢
  split at h
  · omega
  · rw [if_neg ‹_›]

/-- A struct from its first field and the others. -/
theorem alone_structFields {first : AbiType} {rest : List AbiType} {w : BufferValidator}
    {code : Nat → Code (Value × Nat)} {P : Nat → Prop}
    (hfirst : Reads buf (code offset) fun r => P r.2)
    (htaken : ∀ advance, P advance → Taken ns buf first offset advance)
    (hrest : ∀ advance, P advance →
      Reads buf (readFields ns buf rest 1 w offset advance) fun r =>
        offset + advance + r.2 ≤ buf.length ∧ ∀ n, nonPaddedSizes ns rest = some n → n ≤ r.2) :
    Reads buf (code offset >>= fun r => readFields ns buf rest 1 w offset r.2 >>= fun s =>
        structSize (nonPaddedSize ns (.struct first rest)) (r.2 + s.2) >>= fun size =>
          pure (Value.struct (r.1 :: s.1), size)) fun r =>
      Taken ns buf (.struct first rest) offset r.2 := by
  refine Ensures.bind hfirst fun r hr => ?_
  refine Ensures.bind (hrest r.2 hr) fun s hs => ?_
  obtain ⟨hle, hsum⟩ := taken_fields (htaken r.2 hr) hs
  have hn : ∀ n, nonPaddedSize ns (.struct first rest) = some n → n ≤ r.2 + s.2 := by
    intro n hn
    rw [nonPaddedSize] at hn
    exact hsum n (by rwa [nonPaddedSizes])
  refine Ensures.bind (reads_structSize hn) fun size hsize => ?_
  refine ensures_pure ⟨by simp only; omega, fun n hn' => ?_⟩
  obtain h | h := hsize.2
  · exact (Option.some.inj (hn'.symm.trans h)).le
  · exact (hn n hn').trans h.ge

mutual

/-- The code for a sound type that checks the buffer itself. -/
theorem alone_read : ∀ (ty : AbiType) (v : BufferValidator), ty.sound ns = true →
    v.validationNecessary = true → Alone ns buf ty (readFromBuffer ns buf ty v).2
  | .elementary ty, v, _, hv, offset, _ | .userType ty, v, _, hv, offset, _ => by
    rw [readFromBuffer]
    refine (alone_elementary hv offset).mono fun r hr => ⟨hr.1, fun n hn => ?_⟩
    rw [← nonPaddedSize_eq _ hn]
    exact hr.2
  | .dynamicBytes, v, _, _, offset, _ | .string, v, _, _, offset, _ => by
    rw [readFromBuffer]
    exact reads_readBytes.mono fun r hr => ⟨hr, fun n hn => by simp [nonPaddedSize] at hn⟩
  | .externalFunction, v, _, hv, offset, _ => by
    rw [readFromBuffer]
    exact (alone_externalFunction hv).mono fun r hr =>
      ⟨hr, fun n hn => by simp [nonPaddedSize] at hn⟩
  | .slice elem, v, hsound, hv, offset, hoff => by
    rw [sound] at hsound
    rw [readFromBuffer]
    refine (alone_decodeArray (fun _ v hv => alone_read elem v hsound hv)
      (fun _ h => absurd rfl h) (List.cons_ne_nil _ _) hv hoff).mono fun r hr => ⟨hr, fun n hn => ?_⟩
    simp [nonPaddedSize] at hn
  | .array elem inner outer, v, hsound, hv, offset, hoff => by
    rw [sound, Bool.or_eq_true] at hsound
    rw [readFromBuffer]
    split
    · exact (alone_copyArray hv).mono fun r hr => ⟨hr, fun n hn => by simp [nonPaddedSize] at hn⟩
    · rename_i hcopy
      have hs := hsound.resolve_left hcopy
      refine (alone_decodeArray (fun h v hv => alone_read elem v ?_ hv)
        (fun hd hh v hv => covered_read elem v hd ?_ hv) (by simp) hv hoff).mono fun r hr =>
          ⟨hr, fun n hn => by simp [nonPaddedSize] at hn⟩
      · rwa [if_pos (by simpa using h)] at hs
      · rwa [if_neg (by simpa [hd] using hh)] at hs
  | .struct first rest, v, hsound, hv, offset, hoff => by
    rw [sound, Bool.or_eq_true] at hsound
    rw [readFromBuffer]
    split
    · rename_i hcopy
      have hn := nonPaddedSize_of_allowMemcpy hcopy
      rw [hn]
      refine Ensures.bind (reads_validateOffsetPlusSize hv) fun _ hcheck => ?_
      refine Ensures.bind (reads_data hcheck) fun _ _ => ensures_pure ?_
      exact taken_of_covered rfl hcheck
    · rename_i hcopy
      have hs := hsound.resolve_left hcopy
      have hsub : v.createSubValidator (first :: rest) = .new (first :: rest) := by
        rw [createSubValidator, if_pos hv]
        rfl
      simp only [hsub]
      by_cases hrun : 2 ≤ staticRun (first :: rest)
      · rw [if_pos hrun, Bool.and_eq_true] at hs
        obtain ⟨harg, hcheck⟩ := initializeValidation_of_le hrun
        refine Ensures.bind (hcheck offset) fun _ hver => ?_
        rw [staticRun_cons hrun] at hver
        have hnext := hver.next
        have hnec := hver.not_necessary
        rw [harg] at hnec hnext
        obtain ⟨hval, hcode⟩ := covered_read first _ hver.isDynamic_head hs.1 hnec
        refine alone_structFields (hcode offset hver.fits_head)
          (fun advance ha => taken_of_covered ha hver.fits_head) ?_
        rintro _ rfl
        exact alone_fields rest _ 1 _ offset _ hs.2 (hval.symm ▸ hnext)
      · rw [if_neg hrun, Bool.and_eq_true] at hs
        rw [initializeValidation_of_lt (by omega)]
        refine Ensures.bind (ensures_pure (Q := fun _ => True) trivial) fun _ _ => ?_
        refine alone_structFields (alone_read first _ hs.1 rfl offset hoff) (fun _ ht => ht)
          fun advance ht => ?_
        exact alone_fields rest 0 1 _ offset advance hs.2
          ((verified_new hoff).next_alone (validator_read first _) ht.1)

/-- The fields of a struct from number `i` on, `k` of them covered by the check at its
start. -/
theorem alone_fields : ∀ (tys : List AbiType) (k i : Nat) (v : BufferValidator)
    (offset advance : Nat), soundFields ns k tys = true →
    Verified ns buf v tys i k (offset + advance) →
    Reads buf (readFields ns buf tys i v offset advance) fun r =>
      offset + advance + r.2 ≤ buf.length ∧ ∀ n, nonPaddedSizes ns tys = some n → n ≤ r.2
  | [], k, i, v, offset, advance, _, h => by
    have hf := h.fits
    rw [readFields]
    refine ensures_pure ⟨by simp only; omega, fun n hn => ?_⟩
    rw [← nonPaddedSizes_eq [] hn, memorySizes]
  | ty :: tys, k + 1, i, v, offset, advance, hsound, h => by
    rw [soundFields, Bool.and_eq_true] at hsound
    have hv := h.not_necessary
    obtain ⟨hval, hcode⟩ := covered_read ty _ h.isDynamic_head hsound.1 hv
    rw [readFields]
    simp only [validateBuffer, hv, Bool.false_eq_true, if_false]
    refine Ensures.bind (ensures_pure (Q := fun _ => True) trivial) fun _ _ => ?_
    refine Ensures.bind reads_addU32 ?_
    rintro _ rfl
    refine Ensures.bind (hcode _ h.fits_head) ?_
    rintro ⟨x, advance'⟩ rfl
    rw [hval]
    refine Ensures.bind (alone_fields tys k (i + 1) _ _ _ hsound.2 h.next) ?_
    rintro ⟨xs, others⟩ hothers
    exact ensures_pure (taken_fields (taken_of_covered rfl h.fits_head) hothers)
  | ty :: tys, 0, i, v, offset, advance, hsound, h => by
    rw [soundFields, Bool.and_eq_true, Bool.and_eq_true, decide_eq_true_eq] at hsound
    obtain ⟨⟨hrun, hty⟩, htys⟩ := hsound
    have hv := h.necessary
    rw [readFields]
    have htys' : (v.setArgumentNumber i).types.drop (v.setArgumentNumber i).currentArg = ty :: tys :=
      h.types
    simp only [validateBuffer, hv, if_true, verifyBuffer_of_lt htys' hrun]
    refine Ensures.bind (ensures_pure (Q := fun _ => True) trivial) fun _ _ => ?_
    refine Ensures.bind reads_addU32 ?_
    rintro _ rfl
    refine Ensures.bind (alone_read ty _ hty hv _ h.le) ?_
    rintro ⟨x, advance'⟩ htaken
    refine Ensures.bind (alone_fields tys 0 (i + 1) _ _ _ htys
      (h.next_alone (validator_read ty _) htaken.1)) ?_
    rintro ⟨xs, others⟩ hothers
    exact ensures_pure (taken_fields htaken hothers)

end

/-- A covered item and the items after it. -/
theorem reads_coveredItem {i k : Nat} (hv : v.setArgumentNumber i = v)
    (h : Verified ns buf v (ty :: tys) i (k + 1) offset) (ht : ty.tight ns = true)
    (hrest : ∀ w o, Verified ns buf w tys (i + 1) k o →
      Reads buf (readItems ns buf tys (i + 1) w o) fun r => r.2 ≤ buf.length) :
    Reads buf ((readFromBuffer ns buf ty v).2 offset >>= fun r => addU32 offset r.2 >>= fun o =>
      readItems ns buf tys (i + 1) (readFromBuffer ns buf ty v).1 o >>= fun s =>
        pure (r.1 :: s.1, s.2)) fun r => r.2 ≤ buf.length := by
  have hnec := h.not_necessary
  have hnext := h.next
  rw [hv] at hnec hnext
  obtain ⟨hval, hcode⟩ := covered_read ty v h.isDynamic_head ht hnec
  refine Ensures.bind (hcode offset h.fits_head) ?_
  rintro ⟨x, advance⟩ rfl
  refine Ensures.bind reads_addU32 ?_
  rintro _ rfl
  rw [hval]
  exact Ensures.bind (hrest v _ hnext) fun s hs => ensures_pure hs

/-- The items of `abi_decode` from number `i` on. -/
theorem reads_items : ∀ (tys : List AbiType) (k i : Nat) (v : BufferValidator) (offset : Nat),
    soundItems ns k tys = true → Verified ns buf v tys i k offset →
    Reads buf (readItems ns buf tys i v offset) fun r => r.2 ≤ buf.length
  | [], k, i, v, offset, _, h => by
    have hf := h.fits
    rw [readItems]
    exact ensures_pure (by simp only; omega)
  | ty :: tys, k + 1, i, v, offset, hsound, h => by
    rw [soundItems, Bool.and_eq_true] at hsound
    rw [readItems]
    simp only [validateBuffer, h.not_necessary, Bool.false_eq_true, if_false]
    refine Ensures.bind (ensures_pure (Q := fun _ => True) trivial) fun _ _ => ?_
    exact reads_coveredItem rfl h.setArgumentNumber hsound.1 fun w o hw =>
      reads_items tys k (i + 1) w o hsound.2 hw
  | ty :: tys, 0, i, v, offset, hsound, h => by
    rw [soundItems] at hsound
    have hdrop : (v.setArgumentNumber i).types.drop (v.setArgumentNumber i).currentArg = ty :: tys :=
      h.types
    rw [readItems]
    simp only [validateBuffer, h.necessary, if_true]
    by_cases hrun : 2 ≤ staticRun (ty :: tys)
    · rw [if_pos hrun, Bool.and_eq_true] at hsound
      obtain ⟨hval, hcheck⟩ := verifyBuffer_of_le hdrop hrun
      refine Ensures.bind (hcheck offset) fun _ hver => ?_
      rw [staticRun_cons hrun] at hver
      exact reads_coveredItem (by rw [hval]; rfl) hver hsound.1 fun w o hw =>
        reads_items tys _ (i + 1) w o hsound.2 hw
    · rw [if_neg hrun, Bool.and_eq_true] at hsound
      rw [verifyBuffer_of_lt hdrop (by omega)]
      refine Ensures.bind (ensures_pure (Q := fun _ => True) trivial) fun _ _ => ?_
      refine Ensures.bind (alone_read ty _ hsound.1 h.necessary offset h.le) ?_
      rintro ⟨x, advance⟩ htaken
      refine Ensures.bind reads_addU32 ?_
      rintro _ rfl
      refine Ensures.bind (reads_items tys 0 (i + 1) _ _ hsound.2
        (h.next_alone (validator_read ty _) htaken.1)) ?_
      rintro ⟨xs, reached⟩ hreached
      exact ensures_pure hreached

/-- Every access is in the buffer, and code that ends without aborting has consumed the
whole of it. -/
def DecodesInside (ns : Namespace) (types : List AbiType) (buf : Buffer) : Prop :=
  (∀ a ∈ (abiDecode ns types buf).trace, a.Inside buf.length) ∧
  ∀ items consumed, (abiDecode ns types buf).result = some (items, consumed) →
    buf.length = consumed

theorem reads_abiDecode (types : List AbiType) (hsound : soundItems ns 0 types = true) :
    Reads buf (abiDecode ns types buf) fun r => buf.length = r.2 := by
  have htail : ∀ v k, soundItems ns k types = true → Verified ns buf v types 0 k 0 →
      Reads buf (readItems ns buf types 0 v 0 >>= fun r => validateAllBytesRead buf r.2 >>= fun _ =>
        pure r) fun r => buf.length = r.2 := by
    intro v k hk h
    refine Ensures.bind (reads_items types k 0 v 0 hk h) fun r hr => ?_
    refine Ensures.bind (P := fun _ => ¬ r.2 < buf.length) (ensures_require id) fun _ hall => ?_
    refine ensures_pure ?_
    exact Nat.le_antisymm (Nat.not_lt.mp hall) hr
  rw [abiDecode]
  by_cases hrun : 2 ≤ staticRun types
  · obtain ⟨-, hcheck⟩ := initializeValidation_of_le hrun
    refine Ensures.bind (hcheck 0) fun _ hver => ?_
    cases types with
    | nil => cases hrun
    | cons ty tys =>
      rw [soundItems, if_pos hrun] at hsound
      rw [staticRun_cons hrun] at hver
      exact htail _ _ (by rwa [soundItems]) hver
  · rw [initializeValidation_of_lt (by omega)]
    refine Ensures.bind (ensures_pure (Q := fun _ => True) trivial) fun _ _ => ?_
    exact htail _ 0 hsound (verified_new (Nat.zero_le _))

def solanaNamespace : Namespace := ⟨.solana, 32, 8⟩

def polkadotNamespace : Namespace := ⟨.polkadot, 32, 16⟩

/-- The string `ok` and an array of two `uint16[]`, the second of them empty. -/
def nestedBuffer : Buffer :=
  Buffer.ofBytes [2, 0, 0, 0, 111, 107, 2, 0, 0, 0, 1, 0, 0, 0, 7, 0, 0, 0, 0, 0] (by decide)

end Solang.Codegen.Encoding
