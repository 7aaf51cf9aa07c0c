import Solang.Codegen.Encoding.EncodeSizeCorrect

/-!
# What the encoder writes

When `encode` ends, it has advanced and written as `advanced` and `written` say
(`yields_encode`). It does end where the buffer is below `2 ^ 32` and it writes no further than it
advances (`ends_encode`). So the size of a value is exact, exactly when nothing is written beyond
the advance and what the size lacks is what it has too much.
-/

namespace Solang.Codegen.Encoding

open Writer Traced AbiType

variable {ns : Namespace} {packed : Bool} {mem : AbiType → Value → Nat → UInt8}

/-! ## Values that are written at once -/

variable {bytes : List UInt8} {offset : Nat} {v : Value}

theorem length_store (ty : Elementary) (h : bytes.length = ty.memorySize ns) :
    (ty.store ns bytes).length = ty.wireSize ns := by
  have hle := ty.memorySize_le_wireSize ns
  unfold Elementary.store
  cases ty with
  | bytes n => rw [List.length_reverse, h]; rfl
  | uint bits | int bits =>
    rw [List.length_append, List.length_replicate]
    omega
  | _ => exact h

theorem yields_encodeElementary (ty : Elementary) (offset : Nat)
    (h : bytes.length = ty.memorySize ns) :
    Yields Write.size (encodeElementary ns ty bytes offset) fun a k =>
      a = ty.wireSize ns ∧ k = ty.wireSize ns := by
  refine yields_write.bind ?_
  rintro _ k rfl
  exact yields_pure ⟨rfl, length_store ty h⟩

theorem ends_encodeElementary (ty : Elementary) (offset : Nat) (h : bytes.length = ty.memorySize ns) :
    Ends Write.size (encodeElementary ns ty bytes offset) fun a k =>
      a = ty.wireSize ns ∧ k = ty.wireSize ns := by
  refine ends_write.bind ?_
  rintro _ k rfl
  exact ends_pure ⟨rfl, length_store ty h⟩

theorem yields_encodeBytes (data : List UInt8) (offset : Nat) :
    Yields Write.size (encodeBytes ns packed data offset) fun a k =>
      a = lengthPrefix ns packed .dynamic data.length + data.length ∧
        k = lengthPrefix ns packed .dynamic data.length + data.length := by
  unfold encodeBytes
  cases packed with
  | true =>
    rw [lengthPrefix_packed, Nat.zero_add]
    refine yields_write.bind ?_
    rintro _ k rfl
    exact yields_pure ⟨rfl, rfl⟩
  | false =>
    rw [lengthPrefix_dynamic]
    refine (yields_encodeSize data.length offset).bind ?_
    rintro size k ⟨rfl, rfl⟩
    refine yields_u32.bind ?_
    rintro dataOffset k ⟨rfl, rfl, _⟩
    refine yields_write.bind ?_
    rintro _ k rfl
    refine yields_u32.mono ?_
    rintro a k ⟨rfl, rfl, _⟩
    exact ⟨Nat.add_comm _ _, by omega⟩

theorem ends_encodeBytes {data : List UInt8} (hlen : LengthOk ns packed data.length)
    (hfit : offset + (lengthPrefix ns packed .dynamic data.length + data.length) < 2 ^ 32) :
    Ends Write.size (encodeBytes ns packed data offset) fun a k =>
      a = lengthPrefix ns packed .dynamic data.length + data.length ∧
        k = lengthPrefix ns packed .dynamic data.length + data.length := by
  unfold encodeBytes
  cases packed with
  | true =>
    rw [lengthPrefix_packed, Nat.zero_add]
    refine ends_write.bind ?_
    rintro _ k rfl
    exact ends_pure ⟨rfl, rfl⟩
  | false =>
    rw [lengthPrefix_dynamic] at *
    refine (ends_encodeSize offset (hlen.resolve_left Bool.false_ne_true)).bind ?_
    rintro size k ⟨rfl, rfl⟩
    refine (ends_u32 (by omega)).bind ?_
    rintro dataOffset k ⟨rfl, rfl⟩
    refine ends_write.bind ?_
    rintro _ k rfl
    refine (ends_u32 (by omega)).mono ?_
    rintro a k ⟨rfl, rfl⟩
    exact ⟨Nat.add_comm _ _, by omega⟩

variable {selector address : List UInt8} {elem : AbiType} {outer : AbiLength} {p : Value → Prop}

theorem yields_encodeExternalFunction (offset : Nat)
    (hs : selector.length = ns.target.selectorLength) (ha : address.length = ns.addressLength) :
    Yields Write.size (encodeExternalFunction ns selector address offset) fun a k =>
      a = ns.addressLength + ns.target.selectorLength ∧
        k = ns.addressLength + ns.target.selectorLength := by
  unfold encodeExternalFunction
  split
  · refine yields_write.bind ?_
    rintro _ k rfl
    refine yields_u32.bind ?_
    rintro next k ⟨rfl, rfl, _⟩
    refine yields_write.bind ?_
    rintro _ k rfl
    refine yields_pure ⟨Nat.add_comm _ _, ?_⟩
    rw [List.length_reverse]
    omega
  · rename_i hne
    have h4 := selectorLength_of_ne_solana hne
    refine yields_write.bind ?_
    rintro _ k rfl
    refine yields_u32.bind ?_
    rintro next k ⟨rfl, rfl, _⟩
    refine yields_write.bind ?_
    rintro _ k rfl
    refine yields_pure ⟨by rw [h4], ?_⟩
    rw [List.length_reverse]
    omega

theorem ends_encodeExternalFunction (hs : selector.length = ns.target.selectorLength)
    (ha : address.length = ns.addressLength)
    (hfit : offset + (ns.addressLength + ns.target.selectorLength) < 2 ^ 32) :
    Ends Write.size (encodeExternalFunction ns selector address offset) fun a k =>
      a = ns.addressLength + ns.target.selectorLength ∧
        k = ns.addressLength + ns.target.selectorLength := by
  unfold encodeExternalFunction
  split
  · refine ends_write.bind ?_
    rintro _ k rfl
    refine (ends_u32 (by omega)).bind ?_
    rintro next k ⟨rfl, rfl⟩
    refine ends_write.bind ?_
    rintro _ k rfl
    refine ends_pure ⟨Nat.add_comm _ _, ?_⟩
    rw [List.length_reverse]
    omega
  · rename_i hne
    have h4 := selectorLength_of_ne_solana hne
    refine ends_write.bind ?_
    rintro _ k rfl
    refine (ends_u32 (by omega)).bind ?_
    rintro next k ⟨rfl, rfl⟩
    refine ends_write.bind ?_
    rintro _ k rfl
    refine ends_pure ⟨by rw [h4], ?_⟩
    rw [List.length_reverse]
    omega

theorem yields_copyObject (ty : AbiType) (v : Value) (size offset : Nat) :
    Yields Write.size (copyObject mem ty v size offset) fun _ k => k = size := by
  refine yields_write.mono fun _ k hk => hk.trans ?_
  rw [List.length_map, List.length_range]

theorem ends_copyObject (ty : AbiType) (v : Value) (size offset : Nat) :
    Ends Write.size (copyObject mem ty v size offset) fun _ k => k = size := by
  refine ends_write.mono fun _ k hk => hk.trans ?_
  rw [List.length_map, List.length_range]

/-! ## Arrays -/

theorem prod_dims (ns : Namespace) (inner : List AbiLength) (n : Nat) (v : Value) :
    ((inner ++ [AbiLength.fixed n]).map (AbiLength.size ns)).prod =
      elementCount ns inner (.fixed n) v := by
  rw [List.map_append, List.prod_append, Nat.mul_comm]
  exact congrArg (· * _) (Nat.mul_one n)

theorem yields_encodeArrayCopy (inner : List AbiLength) (offset : Nat)
    (hv : ArrayOf p (outer :: inner.reverse) v) :
    Yields Write.size (encodeArrayCopy ns packed mem elem inner outer v offset) fun a k =>
      a = copiedSize ns packed elem inner outer v ∧ k = copiedSize ns packed elem inner outer v := by
  obtain ⟨_, _, harr⟩ := elems_of_arrayOf hv
  generalize v.elems = vs at harr
  subst harr
  unfold encodeArrayCopy copiedSize
  cases outer with
  | fixed n =>
    simp only [prod_dims ns inner n (.array vs)]
    refine (yields_copyObject _ _ _ _).bind ?_
    rintro _ k rfl
    exact yields_pure ⟨rfl, rfl⟩
  | dynamic =>
    simp only [Value.elems]
    cases packed with
    | true =>
      rw [lengthPrefix_packed, Nat.add_zero]
      refine yields_u32.bind ?_
      rintro size k ⟨rfl, rfl, _⟩
      refine (yields_copyObject _ _ _ _).bind ?_
      rintro _ k rfl
      exact yields_pure ⟨rfl, by omega⟩
    | false =>
      rw [lengthPrefix_dynamic]
      refine (yields_encodeSize _ _).bind ?_
      rintro size k ⟨rfl, rfl⟩
      refine yields_u32.bind ?_
      rintro next k ⟨rfl, rfl, _⟩
      refine yields_u32.bind ?_
      rintro size k ⟨rfl, rfl, _⟩
      refine (yields_copyObject _ _ _ _).bind ?_
      rintro _ k rfl
      refine yields_u32.mono ?_
      rintro a k ⟨rfl, rfl, _⟩
      exact ⟨rfl, by omega⟩

theorem ends_encodeArrayCopy (inner : List AbiLength) (hv : ArrayOf p (outer :: inner.reverse) v)
    (hlen : outer = .dynamic → LengthOk ns packed v.elems.length)
    (hfit : offset + copiedSize ns packed elem inner outer v < 2 ^ 32) :
    Ends Write.size (encodeArrayCopy ns packed mem elem inner outer v offset) fun a k =>
      a = copiedSize ns packed elem inner outer v ∧ k = copiedSize ns packed elem inner outer v := by
  obtain ⟨_, _, harr⟩ := elems_of_arrayOf hv
  generalize v.elems = vs at harr
  subst harr
  unfold encodeArrayCopy
  unfold copiedSize at *
  cases outer with
  | fixed n =>
    simp only [prod_dims ns inner n (.array vs)]
    refine (ends_copyObject _ _ _ _).bind ?_
    rintro _ k rfl
    exact ends_pure ⟨rfl, rfl⟩
  | dynamic =>
    have hok := hlen rfl
    simp only [Value.elems] at *
    cases packed with
    | true =>
      rw [lengthPrefix_packed, Nat.add_zero] at *
      refine (ends_u32 (by omega)).bind ?_
      rintro size k ⟨rfl, rfl⟩
      refine (ends_copyObject _ _ _ _).bind ?_
      rintro _ k rfl
      exact ends_pure ⟨rfl, by omega⟩
    | false =>
      rw [lengthPrefix_dynamic] at *
      refine (ends_encodeSize offset (hok.resolve_left Bool.false_ne_true)).bind ?_
      rintro size k ⟨rfl, rfl⟩
      refine (ends_u32 (by omega)).bind ?_
      rintro next k ⟨rfl, rfl⟩
      refine (ends_u32 (by omega)).bind ?_
      rintro size k ⟨rfl, rfl⟩
      refine (ends_copyObject _ _ _ _).bind ?_
      rintro _ k rfl
      refine (ends_u32 (by omega)).mono ?_
      rintro a k ⟨rfl, rfl⟩
      exact ⟨rfl, by omega⟩

/-- The prefix of a dimension -/
theorem yields_dimension (dim : AbiLength) (n offset : Nat) :
    Yields Write.size (if dim = .dynamic ∧ ¬ packed then do
        let size ← encodeSize ns n offset
        u32 (offset + size)
      else pure offset) fun reached k =>
      reached = offset + lengthPrefix ns packed dim n ∧ k = lengthPrefix ns packed dim n := by
  unfold lengthPrefix
  by_cases h : dim = .dynamic ∧ ¬ packed = true
  · rw [if_pos h, if_pos h]
    refine (yields_encodeSize n offset).bind ?_
    rintro size k ⟨rfl, rfl⟩
    refine yields_u32.mono ?_
    rintro reached k ⟨rfl, rfl, _⟩
    exact ⟨rfl, rfl⟩
  · rw [if_neg h, if_neg h]
    exact yields_pure ⟨rfl, rfl⟩

theorem ends_dimension {dim : AbiLength} {n : Nat} (hlen : dim = .dynamic → LengthOk ns packed n)
    (hfit : offset + lengthPrefix ns packed dim n < 2 ^ 32) :
    Ends Write.size (if dim = .dynamic ∧ ¬ packed then do
        let size ← encodeSize ns n offset
        u32 (offset + size)
      else pure offset) fun reached k =>
      reached = offset + lengthPrefix ns packed dim n ∧ k = lengthPrefix ns packed dim n := by
  unfold lengthPrefix at *
  by_cases h : dim = .dynamic ∧ ¬ packed = true
  · rw [if_pos h] at *
    rw [if_pos h]
    refine (ends_encodeSize offset ((hlen h.1).resolve_left h.2)).bind ?_
    rintro size k ⟨rfl, rfl⟩
    refine (ends_u32 hfit).mono ?_
    rintro reached k ⟨rfl, rfl⟩
    exact ⟨rfl, rfl⟩
  · rw [if_neg h, if_neg h]
    exact ends_pure ⟨rfl, rfl⟩

theorem yields_encodeComplexArray {encodeElem : Value → Nat → Writer Nat} {p : Value → Prop}
    {f g : Value → Nat}
    (helem : ∀ u offset, p u → Yields Write.size (encodeElem u offset) fun a k => a = f u ∧ k = g u) :
    ∀ dims v offset, ArrayOf p dims v →
      Yields Write.size (encodeComplexArray ns packed encodeElem dims v offset) fun reached k =>
        reached = offset + arraySum (lengthPrefix ns packed) f dims v ∧
          k = arraySum (lengthPrefix ns packed) g dims v
  | [], v, offset, hv => by
    rw [encodeComplexArray]
    refine (helem v offset hv).bind ?_
    rintro a k ⟨rfl, rfl⟩
    refine yields_u32.mono ?_
    rintro reached k ⟨rfl, rfl, _⟩
    exact ⟨Nat.add_comm _ _, rfl⟩
  | dim :: dims, v, offset, hv => by
    obtain ⟨_, helems, harr⟩ := elems_of_arrayOf hv
    rw [harr, encodeComplexArray]
    refine (yields_dimension dim v.elems.length offset).bind ?_
    rintro reached k ⟨rfl, rfl⟩
    refine (yields_foldlM (g := arraySum (lengthPrefix ns packed) f dims)
      (k := arraySum (lengthPrefix ns packed) g dims) (P := fun _ => True) v.elems _ ?_).mono ?_
    · intro u hu offset
      refine (yields_encodeComplexArray helem dims u offset (helems u hu)).mono ?_
      rintro reached k ⟨hr, hk⟩
      exact ⟨hr, hk, trivial⟩
    · rintro reached k ⟨rfl, rfl, _⟩
      exact ⟨Nat.add_assoc _ _ _, rfl⟩

theorem ends_encodeComplexArray {encodeElem : Value → Nat → Writer Nat} {p q : Value → Prop}
    {f g : Value → Nat}
    (helem : ∀ u offset, p u → q u → offset + f u < 2 ^ 32 →
      Ends Write.size (encodeElem u offset) fun a k => a = f u ∧ k = g u) :
    ∀ dims v offset, ArrayOf p dims v → ArrayLengths ns packed q dims v →
      offset + arraySum (lengthPrefix ns packed) f dims v < 2 ^ 32 →
      Ends Write.size (encodeComplexArray ns packed encodeElem dims v offset) fun reached k =>
        reached = offset + arraySum (lengthPrefix ns packed) f dims v ∧
          k = arraySum (lengthPrefix ns packed) g dims v
  | [], v, offset, hv, hlen, hfit => by
    rw [arraySum] at *
    rw [encodeComplexArray]
    refine (helem v offset hv hlen hfit).bind ?_
    rintro a k ⟨rfl, rfl⟩
    refine (ends_u32 (by omega)).mono ?_
    rintro reached k ⟨rfl, rfl⟩
    exact ⟨Nat.add_comm _ _, rfl⟩
  | dim :: dims, v, offset, hv, hlen, hfit => by
    obtain ⟨_, helems, harr⟩ := elems_of_arrayOf hv
    rw [arraySum] at hfit
    rw [harr, encodeComplexArray]
    refine (ends_dimension hlen.1 (by omega)).bind ?_
    rintro reached k ⟨rfl, rfl⟩
    refine (ends_foldlM (g := arraySum (lengthPrefix ns packed) f dims)
      (k := arraySum (lengthPrefix ns packed) g dims) v.elems _ (fun u hu offset hle =>
        ends_encodeComplexArray helem dims u offset (helems u hu) (hlen.2 u hu)
          (Nat.lt_of_le_of_lt hle hfit)) (by omega)).mono ?_
    rintro reached k ⟨rfl, rfl⟩
    exact ⟨Nat.add_assoc _ _ _, rfl⟩

/-! ## Any value -/

mutual

theorem yields_encode : ∀ (ty : AbiType) (byRef : Bool) (v : Value) (offset : Nat),
    HasType ns ty v → Yields Write.size (encode ns packed mem ty byRef v offset) fun a k =>
      a = advanced ns packed ty v ∧ k = written ns packed ty byRef v
  | .elementary ty, byRef, v, offset, hv | .userType ty, byRef, v, offset, hv => by
    cases v with
    | scalar bytes => exact yields_encodeElementary ty offset hv
    | _ => exact hv.elim
  | .externalFunction, byRef, v, offset, hv => by
    cases v with
    | externalFunction selector address => exact yields_encodeExternalFunction offset hv.1 hv.2
    | _ => exact hv.elim
  | .dynamicBytes, byRef, v, offset, hv | .string, byRef, v, offset, hv => by
    cases v with
    | bytes data => exact yields_encodeBytes data offset
    | _ => exact hv.elim
  | .array elem inner outer, byRef, v, offset, hv => by
    rw [HasType] at hv
    rw [encode, advanced, written]
    split
    · exact yields_encodeArrayCopy inner offset hv
    · refine (yields_encodeComplexArray (fun u offset hu => yields_encode elem true u offset hu)
        _ v offset hv).bind ?_
      rintro reached k ⟨rfl, rfl⟩
      exact yields_pure ⟨Nat.add_sub_cancel_left _ _, rfl⟩
  | .slice elem, byRef, v, offset, hv => by
    rw [HasType] at hv
    rw [encode, advanced, written]
    refine (yields_encodeComplexArray (fun u offset hu => yields_encode elem true u offset hu)
      _ v offset hv).bind ?_
    rintro reached k ⟨rfl, rfl⟩
    exact yields_pure ⟨Nat.add_sub_cancel_left _ _, rfl⟩
  | .struct first rest, byRef, v, offset, hv => by
    obtain ⟨x, xs, rfl, hx, hxs⟩ := fields_of_hasType hv
    rw [encode, advanced, written]
    by_cases hcopy : byRef = false ∧ allowMemcpy ns (.struct first rest) = true
    · rw [if_pos hcopy, if_pos hcopy, nonPaddedSize_of_allowMemcpy hcopy.2]
      refine (yields_copyObject _ _ _ _).bind ?_
      rintro _ k rfl
      exact yields_pure ⟨rfl, rfl⟩
    · rw [if_neg hcopy, if_neg hcopy]
      refine (yields_encode first false x offset hx).bind ?_
      rintro a k ⟨rfl, rfl⟩
      refine (yields_encodeFields rest xs offset _ _ hxs).bind ?_
      rintro size k ⟨rfl, rfl⟩
      cases nonPaddedSize ns (.struct first rest) with
      | some n => exact yields_pure ⟨rfl, rfl⟩
      | none =>
        refine yields_u32.mono ?_
        rintro a k ⟨rfl, rfl, _⟩
        exact ⟨rfl, rfl⟩

theorem yields_encodeFields : ∀ (tys : List AbiType) (vs : List Value) (offset advance size : Nat),
    HaveTypes ns tys vs →
      Yields Write.size (encodeFields ns packed mem tys vs offset advance size) fun s k =>
        s = size + advances ns packed tys vs ∧ k = writtens ns packed tys vs
  | [], [], _, _, _, _ => yields_pure ⟨rfl, rfl⟩
  | [], _ :: _, _, _, _, hv | _ :: _, [], _, _, _, hv => hv.elim
  | ty :: tys, x :: xs, offset, advance, size, hv => by
    rw [encodeFields, advances, writtens]
    refine yields_u32.bind ?_
    rintro next k ⟨rfl, rfl, _⟩
    refine (yields_encode ty false x _ hv.1).bind ?_
    rintro a k ⟨rfl, rfl⟩
    refine (yields_encodeFields tys xs _ _ _ hv.2).mono ?_
    rintro s k ⟨rfl, rfl⟩
    exact ⟨Nat.add_assoc _ _ _, Nat.zero_add _⟩

end

mutual

/-- A field of a struct of primitive fields that is written at its size in memory -/
theorem advanced_static (packed : Bool) : ∀ (ty : AbiType) (n : Nat) (v : Value),
    nonPaddedSize ns ty = some n → HasType ns ty v → looseBytes ns ty = 0 →
      advanced ns packed ty v = n ∧ (mismatch ns packed ty false v).beyond = 0
  | .elementary ty, n, v, hn, _, hl => by
    have hn := memorySize_of_nonPaddedSize _ n hn
    rw [looseBytes] at hl
    rw [advanced, wireSize_eq, hl, mismatch]
    · exact ⟨hn, rfl⟩
    all_goals simp
  | .userType ty, n, v, hn, _, hl => by
    have hn := memorySize_of_nonPaddedSize _ n hn
    rw [looseBytes] at hl
    have hl : extension ns (.elementary ty) = 0 := hl
    rw [advanced, wireSize_eq, hl, mismatch]
    · exact ⟨hn, rfl⟩
    all_goals simp
  | .struct first rest, n, v, hn, hv, hl => by
    obtain ⟨x, xs, rfl, hx, hxs⟩ := fields_of_hasType hv
    rw [looseBytes] at hl
    rw [advanced, mismatch, hn]
    refine ⟨rfl, ?_⟩
    simp only
    split
    · rfl
    · rename_i hcopy
      rw [if_neg fun h => hcopy ⟨trivial, h⟩] at hl
      exact hl
  | .dynamicBytes, n, v, hn, _, _ | .string, n, v, hn, _, _
  | .externalFunction, n, v, hn, _, _ | .array _ _ _, n, v, hn, _, _
  | .slice _, n, v, hn, _, _ => nomatch hn

theorem advances_static (packed : Bool) : ∀ (tys : List AbiType) (n : Nat) (vs : List Value),
    nonPaddedSizes ns tys = some n → HaveTypes ns tys vs → looseBytesAll ns tys = 0 →
      advances ns packed tys vs = n ∧ (mismatches ns packed tys vs).beyond = 0
  | [], n, [], hn, _, _ => ⟨Option.some.inj hn, rfl⟩
  | [], _, _ :: _, _, hv, _ | _ :: _, _, [], _, hv, _ => hv.elim
  | ty :: tys, n, x :: xs, hn, hv, hl => by
    obtain ⟨a, b, ha, hb, rfl⟩ := nonPaddedSizes_cons hn
    rw [looseBytesAll] at hl
    obtain ⟨h1, h2⟩ := advanced_static packed ty a x ha hv.1 (by omega)
    obtain ⟨h3, h4⟩ := advances_static packed tys b xs hb hv.2 (by omega)
    rw [advances, mismatches, h1, h3]
    refine ⟨rfl, ?_⟩
    show _ + _ = 0
    rw [h2, h4]

end

theorem arrayLengths_and {q : Value → Prop} {f : Value → Nat} :
    ∀ dims v, ArrayLengths ns packed q dims v → arraySum (fun _ _ => 0) f dims v = 0 →
      ArrayLengths ns packed (fun u => q u ∧ f u = 0) dims v
  | [], v, hq, hf => ⟨hq, hf⟩
  | dim :: dims, v, hq, hf => by
    rw [arraySum, Nat.zero_add, List.sum_eq_zero_iff_forall_eq_nat] at hf
    exact ⟨hq.1, fun u hu => arrayLengths_and dims u (hq.2 u hu)
      (hf _ (List.mem_map_of_mem hu))⟩

/-- An array that is looped through, whose elements end -/
theorem ends_encodeLoop (elem : AbiType)
    (helem : ∀ u offset, HasType ns elem u → LengthsOk ns packed elem u →
      (mismatch ns packed elem true u).beyond = 0 → offset + advanced ns packed elem u < 2 ^ 32 →
      Ends Write.size (encode ns packed mem elem true u offset) fun a k =>
        a = advanced ns packed elem u ∧ k = written ns packed elem true u)
    (inner : List AbiLength) (outer : AbiLength) (v : Value) (offset : Nat)
    (hv : ArrayOf (HasType ns elem) (outer :: inner.reverse) v)
    (hlen : ArrayLengths ns packed (LengthsOk ns packed elem) (outer :: inner.reverse) v)
    (hbeyond : (loopMismatch ns packed elem inner outer (mismatch ns packed elem true) v).beyond = 0)
    (hfit : offset + arraySum (lengthPrefix ns packed) (advanced ns packed elem)
      (outer :: inner.reverse) v < 2 ^ 32) :
    Ends Write.size (encodeArrayLoop ns packed (encode ns packed mem elem true)
      (outer :: inner.reverse) v offset) fun a k =>
      a = arraySum (lengthPrefix ns packed) (advanced ns packed elem) (outer :: inner.reverse) v ∧
        k = arraySum (lengthPrefix ns packed) (written ns packed elem true)
          (outer :: inner.reverse) v := by
  have hsum : arraySum (fun _ _ => 0) (fun u => (mismatch ns packed elem true u).beyond)
      (outer :: inner.reverse) v = 0 := by
    unfold loopMismatch at hbeyond
    cases hp : primitiveSize ns elem (inner ++ [outer]) with
    | some k => rw [hp] at hbeyond; exact hbeyond
    | none => rw [hp] at hbeyond; exact hbeyond
  refine (ends_encodeComplexArray (fun u offset hu hq hf => helem u offset hu hq.1 hq.2 hf)
    _ v offset hv (arrayLengths_and _ v hlen hsum) hfit).bind ?_
  rintro reached k ⟨rfl, rfl⟩
  exact ends_pure ⟨Nat.add_sub_cancel_left _ _, rfl⟩

mutual

/-- The code ends where it writes no further than it advances. -/
theorem ends_encode : ∀ (ty : AbiType) (byRef : Bool) (v : Value) (offset : Nat),
    HasType ns ty v → LengthsOk ns packed ty v → (mismatch ns packed ty byRef v).beyond = 0 →
      offset + advanced ns packed ty v < 2 ^ 32 →
      Ends Write.size (encode ns packed mem ty byRef v offset) fun a k =>
        a = advanced ns packed ty v ∧ k = written ns packed ty byRef v
  | .elementary ty, byRef, v, offset, hv, _, _, _
  | .userType ty, byRef, v, offset, hv, _, _, _ => by
    cases v with
    | scalar bytes => exact ends_encodeElementary ty offset hv
    | _ => exact hv.elim
  | .externalFunction, byRef, v, offset, hv, _, _, hfit => by
    cases v with
    | externalFunction selector address => exact ends_encodeExternalFunction hv.1 hv.2 hfit
    | _ => exact hv.elim
  | .dynamicBytes, byRef, v, offset, hv, hlen, _, hfit
  | .string, byRef, v, offset, hv, hlen, _, hfit => by
    cases v with
    | bytes data => exact ends_encodeBytes hlen hfit
    | _ => exact hv.elim
  | .array elem inner outer, byRef, v, offset, hv, hlen, hbeyond, hfit => by
    rw [HasType] at hv
    rw [LengthsOk] at hlen
    rw [advanced] at hfit
    rw [encode, advanced, written]
    rw [mismatch] at hbeyond
    by_cases hcopy : allowMemcpy ns (.array elem inner outer) = true
    · rw [if_pos hcopy] at hfit
      rw [if_pos hcopy, if_pos hcopy, if_pos hcopy]
      exact ends_encodeArrayCopy inner hv hlen.1 hfit
    · rw [if_neg hcopy] at hfit hbeyond
      rw [if_neg hcopy, if_neg hcopy, if_neg hcopy]
      exact ends_encodeLoop elem (fun u offset hu hl hb hf => ends_encode elem true u offset hu hl hb hf)
        inner outer v offset hv hlen hbeyond hfit
  | .slice elem, byRef, v, offset, hv, hlen, hbeyond, hfit => by
    rw [HasType] at hv
    rw [LengthsOk] at hlen
    rw [advanced] at hfit
    rw [encode, advanced, written]
    rw [mismatch] at hbeyond
    exact ends_encodeLoop elem (fun u offset hu hl hb hf => ends_encode elem true u offset hu hl hb hf)
      [] .dynamic v offset hv hlen hbeyond hfit
  | .struct first rest, byRef, v, offset, hv, hlen, hbeyond, hfit => by
    obtain ⟨x, xs, rfl, hx, hxs⟩ := fields_of_hasType hv
    rw [advanced] at hfit
    rw [encode, advanced, written]
    rw [mismatch] at hbeyond
    by_cases hcopy : byRef = false ∧ allowMemcpy ns (.struct first rest) = true
    · rw [if_pos hcopy, if_pos hcopy, nonPaddedSize_of_allowMemcpy hcopy.2]
      refine (ends_copyObject _ _ _ _).bind ?_
      rintro _ k rfl
      exact ends_pure ⟨rfl, rfl⟩
    · rw [if_neg hcopy, if_neg hcopy]
      -- the fields advance as the struct does, also where its size is known
      have hfields : (mismatch ns packed first false x).beyond = 0 ∧
          (mismatches ns packed rest xs).beyond = 0 ∧
          offset + (advanced ns packed first x + advances ns packed rest xs) < 2 ^ 32 := by
        cases hn : nonPaddedSize ns (.struct first rest) with
        | some n =>
          obtain ⟨a, b, ha, hb, rfl⟩ := nonPaddedSize_struct hn
          rw [hn] at hbeyond hfit
          simp only [if_neg hcopy] at hbeyond
          obtain ⟨h1, h2⟩ := advanced_static packed first a x ha hx (by omega)
          obtain ⟨h3, h4⟩ := advances_static packed rest b xs hb hxs (by omega)
          rw [h1, h3]
          exact ⟨h2, h4, hfit⟩
        | none =>
          rw [hn] at hbeyond hfit
          have hsum : (mismatch ns packed first false x).beyond +
            (mismatches ns packed rest xs).beyond = 0 := hbeyond
          exact ⟨by omega, by omega, hfit⟩
      obtain ⟨hb1, hb2, hf⟩ := hfields
      refine (ends_encode first false x offset hx hlen.1 hb1 (by omega)).bind ?_
      rintro a k ⟨rfl, rfl⟩
      refine (ends_encodeFields rest xs offset _ _ hxs hlen.2 hb2 (by omega)).bind ?_
      rintro size k ⟨rfl, rfl⟩
      cases nonPaddedSize ns (.struct first rest) with
      | some n => exact ends_pure ⟨rfl, rfl⟩
      | none =>
        refine (ends_u32 (by omega)).mono ?_
        rintro a k ⟨rfl, rfl⟩
        exact ⟨rfl, rfl⟩

theorem ends_encodeFields : ∀ (tys : List AbiType) (vs : List Value) (offset advance size : Nat),
    HaveTypes ns tys vs → AllLengthsOk ns packed tys vs →
      (mismatches ns packed tys vs).beyond = 0 →
      offset + advance + advances ns packed tys vs < 2 ^ 32 →
      Ends Write.size (encodeFields ns packed mem tys vs offset advance size) fun s k =>
        s = size + advances ns packed tys vs ∧ k = writtens ns packed tys vs
  | [], [], _, _, _, _, _, _, _ => ends_pure ⟨rfl, rfl⟩
  | [], _ :: _, _, _, _, hv, _, _, _ | _ :: _, [], _, _, _, hv, _, _, _ => hv.elim
  | ty :: tys, x :: xs, offset, advance, size, hv, hlen, hbeyond, hfit => by
    rw [advances] at hfit
    have hsum : (mismatch ns packed ty false x).beyond + (mismatches ns packed tys xs).beyond = 0 :=
      hbeyond
    rw [encodeFields, advances, writtens]
    refine (ends_u32 (by omega)).bind ?_
    rintro next k ⟨rfl, rfl⟩
    refine (ends_encode ty false x _ hv.1 hlen.1 (by omega) (by omega)).bind ?_
    rintro a k ⟨rfl, rfl⟩
    refine (ends_encodeFields tys xs _ _ _ hv.2 hlen.2 (by omega) (by omega)).mono ?_
    rintro s k ⟨rfl, rfl⟩
    exact ⟨Nat.add_assoc _ _ _, Nat.zero_add _⟩

end

/-! ## Exact sizes -/

/-- `encode` advances by `size` and writes that many bytes. -/
def Exact (ns : Namespace) (packed : Bool) (mem : AbiType → Value → Nat → UInt8) (ty : AbiType)
    (byRef : Bool) (v : Value) (offset size : Nat) : Prop :=
  Ends Write.size (encode ns packed mem ty byRef v offset) fun a k => a = size ∧ k = size

/-- The mismatches cancel each other, and nothing is written beyond the advance. -/
def Balanced (ns : Namespace) (packed : Bool) (ty : AbiType) (byRef : Bool) (v : Value) : Prop :=
  let m := mismatch ns packed ty byRef v
  m.surplus = m.deficit ∧ m.beyond = 0

instance (ns : Namespace) (packed : Bool) (ty : AbiType) (byRef : Bool) (v : Value) :
    Decidable (Balanced ns packed ty byRef v) :=
  inferInstanceAs (Decidable (_ ∧ _))

theorem exact_iff_balanced {ty : AbiType} {byRef : Bool} {size : Nat} (hvalid : ty.Valid)
    (hv : HasType ns ty v) (hsize : (getExprSize ns packed ty v).result = some size)
    (hfit : offset + size < 2 ^ 32) :
    Exact ns packed mem ty byRef v offset size ↔ Balanced ns packed ty byRef v := by
  obtain ⟨rfl, _, hlen⟩ := yields_getExprSize ty v hvalid hv size hsize
  obtain ⟨hdiff, hwritten⟩ := sizes_differ packed ty byRef v hvalid hv
  constructor
  · rintro ⟨a, ha, rfl, hk⟩
    obtain ⟨hadv, hwr⟩ := yields_encode ty byRef v offset hv _ ha
    refine ⟨?_, ?_⟩ <;> omega
  · rintro ⟨hbal, hbeyond⟩
    have hadv : exprSize ns packed ty v = advanced ns packed ty v := by omega
    rw [hadv] at hfit
    refine (ends_encode ty byRef v offset hv hlen hbeyond hfit).mono ?_
    rintro a k ⟨rfl, rfl⟩
    exact ⟨hadv.symm, by omega⟩

/-- What `calculate_array_size` and `encode_array` are for -/
def AbiType.IsArray : AbiType → Prop
  | .array _ _ _ => True
  | .slice _ => True
  | _ => False

/-- The size of an array is that of its encoding, exactly when the mismatches in it cancel each
other. -/
theorem array_size_exact_iff {ty : AbiType} {byRef : Bool} {v : Value} {offset size : Nat}
    (_ : ty.IsArray) (hvalid : ty.Valid) (hv : HasType ns ty v)
    (hsize : (getExprSize ns packed ty v).result = some size) (hfit : offset + size < 2 ^ 32) :
    Exact ns packed mem ty byRef v offset size ↔ Balanced ns packed ty byRef v :=
  exact_iff_balanced hvalid hv hsize hfit

namespace Sample

def polkadot : Namespace := ⟨.polkadot, 32, 16⟩

/-- `bool[3][]` -/
def triplesType : AbiType := .array (.elementary .bool) [.fixed 3] .dynamic

def triples (n : Nat) : Value :=
  .array (List.replicate n (.array (List.replicate 3 (.scalar [0]))))

theorem triples_hasType (n : Nat) : HasType polkadot triplesType (triples n) := by
  refine ⟨fun _ h => (nomatch h), fun v hv => ?_⟩
  rw [(List.mem_replicate.mp hv).2]
  refine ⟨fun k hk => ?_, fun u hu => ?_⟩
  · cases hk
    rfl
  · rw [(List.mem_replicate.mp hu).2]
    rfl

theorem triplesType_valid : triplesType.Valid :=
  ⟨fun _ _ _ h => (nomatch h), by decide, trivial⟩

theorem one_triple_is_exact :
    Exact polkadot false (fun _ _ _ => 0) triplesType false (triples 1) 0 4 := by
  refine (array_size_exact_iff ?_ triplesType_valid (triples_hasType 1) rfl (by decide)).mpr ?_
  · trivial
  · decide

/-- The length 30 takes one byte, and the 90 elements have been counted for a length of two. -/
theorem thirty_triples_are_not :
    ¬ ∀ (ns : Namespace) packed mem ty byRef v offset size, ty.IsArray → ty.Valid →
      HasType ns ty v → (getExprSize ns packed ty v).result = some size → offset + size < 2 ^ 32 →
      Exact ns packed mem ty byRef v offset size := by
  intro hall
  have hexact := hall polkadot false (fun _ _ _ => 0) triplesType false (triples 30) 0 92 trivial
    triplesType_valid (triples_hasType 30) rfl (by decide)
  have hbalanced := (exact_iff_balanced triplesType_valid (triples_hasType 30) rfl
    (by decide)).mp hexact
  exact absurd hbalanced (by decide)

end Sample

/-- The size of a struct is that of its encoding, exactly when the mismatches in it cancel each
other. -/
theorem struct_size_exact_iff {first : AbiType} {rest : List AbiType} {byRef : Bool} {v : Value}
    {offset size : Nat} (hvalid : AbiType.Valid (.struct first rest))
    (hv : HasType ns (.struct first rest) v)
    (hsize : (getExprSize ns packed (.struct first rest) v).result = some size)
    (hfit : offset + size < 2 ^ 32) :
    Exact ns packed mem (.struct first rest) byRef v offset size ↔
      Balanced ns packed (.struct first rest) byRef v :=
  exact_iff_balanced hvalid hv hsize hfit

namespace Sample

/-- A string and a `uint24` have their sizes added up, and the integer is extended. -/
theorem string_and_uint24_are_exact :
    Exact polkadot false (fun _ _ _ => 0) (.struct .string [.elementary (.uint 24)]) false
      (.struct [.bytes [104, 105], .scalar [1, 0, 0]]) 0 7 := by
  refine (struct_size_exact_iff ?_ ?_ (by decide) (by decide)).mpr ?_
  · exact ⟨trivial, trivial, trivial⟩
  · exact ⟨trivial, rfl, trivial⟩
  · decide

/-- A `uint24` and a `bool` take five bytes, and are said to take four. -/
theorem uint24_and_bool_are_not :
    ¬ ∀ (ns : Namespace) packed mem first rest byRef v offset size,
      AbiType.Valid (.struct first rest) → HasType ns (.struct first rest) v →
      (getExprSize ns packed (.struct first rest) v).result = some size → offset + size < 2 ^ 32 →
      Exact ns packed mem (.struct first rest) byRef v offset size := by
  intro hall
  have hvalid : AbiType.Valid (.struct (.elementary (.uint 24)) [.elementary .bool]) :=
    ⟨trivial, trivial, trivial⟩
  have htype : HasType polkadot (.struct (.elementary (.uint 24)) [.elementary .bool])
      (.struct [.scalar [1, 0, 0], .scalar [1]]) := ⟨rfl, rfl, trivial⟩
  have hexact := hall polkadot false (fun _ _ _ => 0) _ _ false _ 0 4 hvalid htype (by decide)
    (by decide)
  have hbalanced := (exact_iff_balanced hvalid htype (by decide) (by decide)).mp hexact
  exact absurd hbalanced (by decide)

end Sample

end Solang.Codegen.Encoding
