import Solang.Codegen.Encoding.EncodeCopy
import Solang.Codegen.Encoding.EncodeWritten

/-!
# Copies are right without extended integers

A type that is copied and has no integer that the encoding extends is `Contiguous`: memory holds its
elements one after the other, each in its size on the wire. For such types the copy is the
concatenation of the elements, in both directions. Where an integer is extended, the copy is
shorter than the concatenation.
-/

namespace Solang.Codegen.Encoding

open AbiType

variable {L : Layout} {ns : Namespace}

/-! ## Padding -/

variable {align total size : Nat} {holds : Value → (Nat → UInt8) → Prop}

theorem padTo_of_dvd (h : align ∣ total) : padTo align total = total := by
  unfold padTo
  exact if_pos (Nat.mod_eq_zero_of_dvd h)

theorem le_padTo (align total : Nat) : total ≤ padTo align total := by
  unfold padTo
  split <;> omega

theorem dvd_of_padTo (hpos : 0 < align) (h : padTo align total = total) :
    align ∣ total := by
  unfold padTo at h
  split at h
  · exact Nat.dvd_of_mod_eq_zero ‹_›
  · have := Nat.mod_lt total hpos
    omega

theorem le_foldl_padded (ns : Namespace) (tys : List AbiType) (pos : Nat) : pos + memorySizes ns tys ≤
    tys.foldl (fun total ty => padTo (ty.alignment ns) total + ty.memorySize ns) pos := by
  induction tys generalizing pos with
  | nil => exact Nat.le_refl _
  | cons ty tys ih =>
    have hpad := le_padTo (ty.alignment ns) pos
    have hrest := ih (padTo (ty.alignment ns) pos + ty.memorySize ns)
    rw [memorySizes, List.foldl_cons]
    omega

/-- The alignment in memory divides the alignment that the encoder reckons with, and the size. -/
structure NaturallyAligned (L : Layout) (ns : Namespace) (ty : AbiType) : Prop where
  aligned : ∃ a b, llvmAlign L ns ty = 2 ^ a ∧ ty.alignment ns = 2 ^ b ∧ a ≤ b
  size : llvmSize L ns ty = ty.memorySize ns

theorem pow_of_extension_eq_zero {bits : Nat} (hpos : 0 < bits) (h8 : 8 ∣ bits)
    (h : nextPowerOfTwo bits / 8 - bits / 8 = 0) : ∃ k, bits / 8 = 2 ^ k := by
  obtain ⟨q, rfl⟩ := h8
  have hle := le_nextPowerOfTwo (8 * q)
  unfold nextPowerOfTwo at *
  have h3 : 3 ≤ Nat.clog 2 (8 * q) := by
    by_contra hlt
    have : 2 ^ Nat.clog 2 (8 * q) ≤ 2 ^ 2 := Nat.pow_le_pow_right (by decide) (by omega)
    omega
  obtain ⟨c, hc⟩ := Nat.exists_eq_add_of_le h3
  rw [hc, Nat.pow_add] at h hle
  exact ⟨c, by omega⟩

/-- An integer whose size is a power of two -/
theorem aligned_pow (hL : L.Lawful ns) (k : Nat) :
    ∃ a, L.align (2 ^ k) = 2 ^ a ∧ a ≤ k ∧ padTo (L.align (2 ^ k)) (2 ^ k) = 2 ^ k := by
  obtain ⟨a, ha, he⟩ := (Nat.dvd_prime_pow Nat.prime_two).mp (hL.natural k)
  exact ⟨a, he, ha, padTo_of_dvd (hL.natural k)⟩

variable {ty : Elementary} {bytes : List UInt8} {inner : List AbiLength} {outer : AbiLength}
  {v : Value} {m : Nat → UInt8}

theorem elementary_aligned (hL : L.Lawful ns) (hcopy : ty.allowMemcpy = true) (hw : ty.WidthOk)
    (hext : extension ns (.elementary ty) = 0) :
    (∃ a b, ty.llvmAlign L ns = 2 ^ a ∧ ty.alignment ns = 2 ^ b ∧ a ≤ b) ∧
      padTo (ty.llvmAlign L ns) (ty.memorySize ns) = ty.memorySize ns := by
  cases ty with
  | bool | address => exact ⟨⟨0, 0, rfl, rfl, Nat.le_refl 0⟩, padTo_of_dvd (Nat.one_dvd _)⟩
  | contract | enum => cases hcopy
  | value =>
    obtain ⟨k, hk⟩ := hL.value
    obtain ⟨a, ha, hle, hpad⟩ := aligned_pow hL k
    unfold Elementary.llvmAlign Elementary.alignment Elementary.memorySize nextPowerOfTwo
    rw [hk, Nat.clog_pow 2 k (by decide)]
    exact ⟨⟨a, k, ha, rfl, hle⟩, hpad⟩
  | bytes n =>
    have hn : n = 2 ^ 0 := by
      have h2 : n < 2 := of_decide_eq_true hcopy
      have h0 : 0 < n := hw
      omega
    subst hn
    obtain ⟨a, ha, hle, hpad⟩ := aligned_pow hL 0
    exact ⟨⟨a, 0, ha, rfl, hle⟩, hpad⟩
  | uint bits | int bits =>
    obtain ⟨k, hk⟩ := pow_of_extension_eq_zero hw.1 hw.2 hext
    obtain ⟨a, ha, hle, hpad⟩ := aligned_pow hL k
    show (∃ a b, L.align (bits / 8) = 2 ^ a ∧ bits / 8 = 2 ^ b ∧ a ≤ b) ∧
      padTo (L.align (bits / 8)) (bits / 8) = bits / 8
    rw [hk]
    exact ⟨⟨a, k, ha, rfl, hle⟩, hpad⟩

mutual

/-- The elements are one after the other in memory, and no integer is extended. -/
def Contiguous (L : Layout) (ns : Namespace) : AbiType → Prop
  | .elementary ty => ty.allowMemcpy = true ∧ extension ns (.elementary ty) = 0
  | .userType ty => ty.allowMemcpy = true ∧ extension ns (.elementary ty) = 0
  | .struct first rest =>
    Contiguous L ns first ∧ llvmSize L ns first = first.memorySize ns ∧
      FieldsContiguous L ns rest (first.memorySize ns)
  | _ => False

def FieldsContiguous (L : Layout) (ns : Namespace) : List AbiType → Nat → Prop
  | [], _ => True
  | ty :: tys, pos =>
    padTo (llvmAlign L ns ty) pos = pos ∧ Contiguous L ns ty ∧
      llvmSize L ns ty = ty.memorySize ns ∧ FieldsContiguous L ns tys (pos + ty.memorySize ns)

end

theorem max_two_pow (a b : Nat) : max (2 ^ a) (2 ^ b) = 2 ^ max a b := by
  rcases Nat.le_total a b with h | h
  · rw [Nat.max_eq_right h, Nat.max_eq_right (Nat.pow_le_pow_right (by decide) h)]
  · rw [Nat.max_eq_left h, Nat.max_eq_left (Nat.pow_le_pow_right (by decide) h)]

mutual

theorem contiguous_of_copied (hL : L.Lawful ns) : ∀ (ty : AbiType) (n : Nat),
    nonPaddedSize ns ty = some n → ty.allowMemcpy ns = true → ty.WidthsOk → extensions ns ty = 0 →
      NaturallyAligned L ns ty ∧ Contiguous L ns ty
  | .elementary ty, _, _, hcopy, hw, hext | .userType ty, _, _, hcopy, hw, hext => by
    rw [extensions] at hext
    obtain ⟨ha, hs⟩ := elementary_aligned hL hcopy hw hext
    exact ⟨⟨ha, hs⟩, hcopy, hext⟩
  | .struct first rest, n, hn, hcopy, hw, hext => by
    obtain ⟨a, b, ha, hb, rfl⟩ := nonPaddedSize_struct hn
    rw [extensions] at hext
    unfold allowMemcpy at hcopy
    rw [hn] at hcopy
    simp only [Bool.and_eq_true, beq_iff_eq] at hcopy
    obtain ⟨⟨hpadded, hrem⟩, hfirst, hrest⟩ := hcopy
    have hmem := memorySize_of_nonPaddedSize (.struct first rest) (a + b) hn
    rw [← hmem] at hpadded
    obtain ⟨⟨⟨i, j, hi, hj, hij⟩, hsize⟩, hcont⟩ :=
      contiguous_of_copied hL first a ha hfirst hw.1 (by omega)
    -- the padded size is the size: no field has padding in front of it
    have hstart : padTo (first.alignment ns) 0 + first.memorySize ns = first.memorySize ns := by
      rw [padTo_of_dvd (Nat.dvd_zero _), Nat.zero_add]
    have hpadded : rest.foldl (fun total ty => padTo (ty.alignment ns) total + ty.memorySize ns)
        (first.memorySize ns) = first.memorySize ns + memorySizes ns rest := by
      rw [paddedSize, List.foldl_cons, hstart] at hpadded
      exact hpadded.symm
    obtain ⟨hflush, hend, haligns⟩ := fieldsContiguous_of_copied hL rest b _ hb hrest hw.2
      (by omega) hpadded
    obtain ⟨a', b', ha', hb', hab⟩ := haligns i j hij
    have hstruct : llvmAlign L ns (.struct first rest) = 2 ^ a' ∧
        alignment ns (.struct first rest) = 2 ^ b' := by
      rw [llvmAlign, alignment, hi, hj]
      exact ⟨ha', hb'⟩
    refine ⟨⟨⟨a', b', hstruct.1, hstruct.2, hab⟩, ?_⟩, hcont, hsize, hflush⟩
    rw [llvmSize, hsize, hend, hstruct.1, ← memorySize]
    apply padTo_of_dvd
    have hdvd : 2 ^ b' ∣ memorySize ns (.struct first rest) := by
      rw [hstruct.2, paddedSize, List.foldl_cons, hstart, hpadded] at hrem
      exact Nat.dvd_of_mod_eq_zero hrem
    exact Nat.dvd_trans (Nat.pow_dvd_pow 2 hab) hdvd
  | .dynamicBytes, _, hn, _, _, _ | .string, _, hn, _, _, _
  | .externalFunction, _, hn, _, _, _ | .array _ _ _, _, hn, _, _, _
  | .slice _, _, hn, _, _, _ => nomatch hn

theorem fieldsContiguous_of_copied (hL : L.Lawful ns) : ∀ (tys : List AbiType) (n pos : Nat),
    nonPaddedSizes ns tys = some n → allAllowMemcpy ns tys = true → AllWidthsOk tys →
      extensionsAll ns tys = 0 →
      tys.foldl (fun total ty => padTo (ty.alignment ns) total + ty.memorySize ns) pos =
        pos + memorySizes ns tys →
      FieldsContiguous L ns tys pos ∧ llvmEnd L ns tys pos = pos + memorySizes ns tys ∧
        ∀ a b, a ≤ b → ∃ a' b', max (2 ^ a) (llvmAligns L ns tys) = 2 ^ a' ∧
          max (2 ^ b) (alignments ns tys) = 2 ^ b' ∧ a' ≤ b'
  | [], _, pos, _, _, _, _, _ => by
    refine ⟨trivial, rfl, fun a b hab => ⟨a, b, ?_, ?_, hab⟩⟩
    · rw [llvmAligns, Nat.max_zero]
    · rw [alignments, Nat.max_zero]
  | ty :: tys, n, pos, hn, hcopy, hw, hext, hpad => by
    obtain ⟨p, q, hp, hq, rfl⟩ := nonPaddedSizes_cons hn
    rw [extensionsAll] at hext
    rw [allAllowMemcpy, Bool.and_eq_true] at hcopy
    rw [List.foldl_cons, memorySizes] at hpad
    obtain ⟨⟨⟨i, j, hi, hj, hij⟩, hsize⟩, hcont⟩ :=
      contiguous_of_copied hL ty p hp hcopy.1 hw.1 (by omega)
    have hge := le_foldl_padded ns tys (padTo (ty.alignment ns) pos + ty.memorySize ns)
    have hle := le_padTo (ty.alignment ns) pos
    have hnone : padTo (ty.alignment ns) pos = pos := by omega
    rw [hnone] at hpad
    have hdvd : llvmAlign L ns ty ∣ pos := by
      rw [hi]
      have hj' := dvd_of_padTo (by rw [hj]; exact Nat.two_pow_pos j) hnone
      rw [hj] at hj'
      exact Nat.dvd_trans (Nat.pow_dvd_pow 2 hij) hj'
    obtain ⟨hflush, hend, haligns⟩ := fieldsContiguous_of_copied hL tys q (pos + ty.memorySize ns)
      hq hcopy.2 hw.2 (by omega) (by omega)
    refine ⟨⟨padTo_of_dvd hdvd, hcont, hsize, hflush⟩, ?_, fun a b hab => ?_⟩
    · rw [llvmEnd, padTo_of_dvd hdvd, hsize, hend, memorySizes]
      omega
    · rw [llvmAligns, alignments, hi, hj, ← Nat.max_assoc, ← Nat.max_assoc, max_two_pow, max_two_pow]
      exact haligns _ _ (by omega)

end

/-! ## Structs and elementary values -/

theorem range_map_add {α : Type} (m : Nat → α) (a b : Nat) : (List.range (a + b)).map m =
    (List.range a).map m ++ (List.range b).map fun i => m (a + i) := by
  rw [List.range_add, List.map_append, List.map_map]
  rfl

theorem getD_drop (bytes : List UInt8) (pos : Nat) :
    (fun i => (bytes.drop pos).getD i 0) = fun i => bytes.getD (pos + i) 0 := by
  funext i
  simp only [List.getD, List.getElem?_drop]

theorem range_map_getD (bytes : List UInt8) (n : Nat) (h : n ≤ bytes.length) :
    (List.range n).map (fun i => bytes.getD i 0) = bytes.take n := by
  apply List.ext_getElem
  · simp only [List.length_map, List.length_range, List.length_take]
    omega
  · intro i hi _
    simp only [List.length_map, List.length_range] at hi
    have hi' : i < bytes.length := by omega
    simp [hi']

theorem reverse_of_length_le_one (h : bytes.length ≤ 1) :
    bytes.reverse = bytes := by
  match bytes, h with
  | [], _ => rfl
  | [b], _ => rfl

theorem store_eq (hcopy : ty.allowMemcpy = true) (hext : extension ns (.elementary ty) = 0)
    (hlen : bytes.length = ty.memorySize ns) :
    ty.store ns bytes = bytes := by
  have hwire : ty.wireSize ns - bytes.length = 0 := by
    rw [wireSize_eq, hext, hlen]
    omega
  unfold Elementary.store
  cases ty with
  | bytes n =>
    have h2 : n < 2 := of_decide_eq_true hcopy
    have hn : bytes.length = n := hlen
    exact reverse_of_length_le_one (by omega)
  | uint bits => rw [hwire, List.replicate_zero, List.append_nil]
  | int bits => simp only [hwire, List.replicate_zero, List.append_nil]
  | _ => rfl

theorem load_eq (hcopy : ty.allowMemcpy = true) (hlen : bytes.length = ty.memorySize ns) :
    ty.load bytes = .scalar bytes := by
  unfold Elementary.load
  cases ty with
  | bytes n =>
    have h2 : n < 2 := of_decide_eq_true hcopy
    have hn : bytes.length = n := hlen
    simp only
    rw [reverse_of_length_le_one (by omega)]
  | _ => rfl

theorem wireSize_of_extension (ty : Elementary) (h : extension ns (.elementary ty) = 0) :
    ty.wireSize ns = ty.memorySize ns := by
  rw [wireSize_eq, h, Nat.add_zero]

mutual

/-- What memory holds of a value is what is written of it. -/
theorem bytes_of_holds : ∀ (ty : AbiType) (v : Value) (m : Nat → UInt8), Contiguous L ns ty →
    HasType ns ty v → Holds L ns ty v m →
      (List.range (ty.memorySize ns)).map m = elementwise ns ty v
  | .elementary ty, v, m, hc, hv, hm | .userType ty, v, m, hc, hv, hm => by
    cases v with
    | scalar bytes =>
      have hlen : bytes.length = ty.memorySize ns := hv
      have hm : (List.range bytes.length).map m = bytes := hm
      rw [elementwise, store_eq hc.1 hc.2 hlen, memorySize, ← hlen]
      exact hm
    | _ => exact hv.elim
  | .struct first rest, v, m, hc, hv, hm => by
    obtain ⟨x, xs, rfl, hx, hxs⟩ := fields_of_hasType hv
    obtain ⟨hfirst, hsize, hrest⟩ := hc
    have hm' : Holds L ns first x m ∧ HoldFields L ns rest xs (llvmSize L ns first) m := hm
    rw [hsize] at hm'
    rw [elementwise, memorySize, range_map_add, bytes_of_holds first x m hfirst hx hm'.1,
      bytes_of_holdFields rest xs _ m hrest hxs hm'.2]

theorem bytes_of_holdFields : ∀ (tys : List AbiType) (vs : List Value) (pos : Nat)
    (m : Nat → UInt8), FieldsContiguous L ns tys pos → HaveTypes ns tys vs →
      HoldFields L ns tys vs pos m →
      (List.range (memorySizes ns tys)).map (fun i => m (pos + i)) = elementwiseFields ns tys vs
  | [], [], _, _, _, _, _ => rfl
  | [], _ :: _, _, _, _, hv, _ | _ :: _, [], _, _, _, hv, _ => hv.elim
  | ty :: tys, x :: xs, pos, m, hc, hv, hm => by
    obtain ⟨hpad, hty, hsize, hrest⟩ := hc
    have hm' : Holds L ns ty x (fun i => m (padTo (llvmAlign L ns ty) pos + i)) ∧
      HoldFields L ns tys xs (padTo (llvmAlign L ns ty) pos + llvmSize L ns ty) m := hm
    rw [hpad, hsize] at hm'
    have hothers := bytes_of_holdFields tys xs _ m hrest hv.2 hm'.2
    rw [elementwiseFields, memorySizes, range_map_add, bytes_of_holds ty x _ hty hv.1 hm'.1,
      ← hothers]
    congr 2
    funext i
    congr 1
    omega

end

mutual

/-- What is read of bytes is what they hold as memory. -/
theorem holds_decodeEach : ∀ (ty : AbiType) (k : Nat) (bytes : List UInt8), Contiguous L ns ty →
    ty.memorySize ns ≤ bytes.length →
      (decodeEach ns ty k bytes).2 = bytes.drop (ty.memorySize ns) ∧
        Holds L ns ty (decodeEach ns ty k bytes).1 fun i => bytes.getD i 0
  | .elementary ty, k, bytes, hc, hlen | .userType ty, k, bytes, hc, hlen => by
    have hlen : ty.memorySize ns ≤ bytes.length := hlen
    have htake : (bytes.take (ty.memorySize ns)).length = ty.memorySize ns := by
      rw [List.length_take]
      omega
    rw [decodeEach, wireSize_of_extension ty hc.2, load_eq hc.1 htake]
    refine ⟨rfl, ?_⟩
    show (List.range (bytes.take (ty.memorySize ns)).length).map _ = _
    rw [htake]
    exact range_map_getD bytes _ hlen
  | .struct first rest, k, bytes, hc, hlen => by
    obtain ⟨hfirst, hsize, hrest⟩ := hc
    rw [memorySize] at hlen
    obtain ⟨hb, hx⟩ := holds_decodeEach first 0 bytes hfirst (by omega)
    obtain ⟨hbs, hxs⟩ := holdFields_decodeEachField rest (first.memorySize ns) bytes hrest hlen
    rw [decodeEach, memorySize]
    simp only
    rw [hb]
    refine ⟨hbs, hx, ?_⟩
    rw [hsize]
    exact hxs

theorem holdFields_decodeEachField : ∀ (tys : List AbiType) (pos : Nat) (bytes : List UInt8),
    FieldsContiguous L ns tys pos → pos + memorySizes ns tys ≤ bytes.length →
      (decodeEachField ns tys (bytes.drop pos)).2 = bytes.drop (pos + memorySizes ns tys) ∧
        HoldFields L ns tys (decodeEachField ns tys (bytes.drop pos)).1 pos fun i => bytes.getD i 0
  | [], _, _, _, _ => ⟨rfl, trivial⟩
  | ty :: tys, pos, bytes, hc, hlen => by
    obtain ⟨hpad, hty, hsize, hrest⟩ := hc
    rw [memorySizes] at hlen
    obtain ⟨hb, hx⟩ := holds_decodeEach ty 0 (bytes.drop pos) hty
      (by rw [List.length_drop]; omega)
    obtain ⟨hbs, hxs⟩ := holdFields_decodeEachField tys (pos + ty.memorySize ns) bytes hrest
      (by omega)
    rw [List.drop_drop] at hb
    rw [decodeEachField, memorySizes]
    simp only
    rw [hb]
    refine ⟨by rw [hbs, Nat.add_assoc], ?_, ?_⟩
    · simp only [hpad]
      rwa [getD_drop] at hx
    · simp only [hpad, hsize]
      exact hxs

end

/-! ## Arrays -/

theorem bytes_of_holdsEach {holds : Value → (Nat → UInt8) → Prop} {stride : Nat}
    {f : Value → List UInt8} : ∀ (vs : List Value) (m : Nat → UInt8),
      (∀ v ∈ vs, ∀ m, holds v m → (List.range stride).map m = f v) →
      HoldsEach holds stride vs m → (List.range (vs.length * stride)).map m = vs.flatMap f
  | [], m, _, _ => by rw [List.length_nil, Nat.zero_mul]; rfl
  | v :: vs, m, h, hm => by
    rw [List.length_cons, Nat.succ_mul, Nat.add_comm, range_map_add, List.flatMap_cons,
      h v List.mem_cons_self m hm.1,
      bytes_of_holdsEach vs _ (fun u hu => h u (List.mem_cons_of_mem v hu)) hm.2]

theorem bytes_of_holdsArray {p : Value → Prop} {holds : Value → (Nat → UInt8) → Prop} {size : Nat}
    {f : Value → List UInt8} (h : ∀ v m, p v → holds v m → (List.range size).map m = f v) :
    ∀ dims v m, AbiLength.dynamic ∉ dims → ArrayOf p dims v → HoldsArray ns holds size dims v m →
      (List.range ((dims.map (AbiLength.size ns)).prod * size)).map m = arrayBytes f dims v
  | [], v, m, _, hv, hm => by
    rw [List.map_nil, List.prod_nil, Nat.one_mul]
    exact h v m hv hm
  | dim :: dims, v, m, hd, hv, hm => by
    obtain ⟨hlen, helems, _⟩ := elems_of_arrayOf hv
    rw [List.mem_cons, not_or] at hd
    have hsize : v.elems.length = dim.size ns := by
      cases dim with
      | dynamic => exact absurd rfl hd.1
      | fixed n => exact hlen n rfl
    rw [List.map_cons, List.prod_cons, ← hsize, Nat.mul_assoc, arrayBytes]
    exact bytes_of_holdsEach v.elems m (fun u hu m' hm' =>
      bytes_of_holdsArray h dims u m' hd.2 (helems u hu) hm') hm

/-- An array of which only the outer dimension may be dynamic -/
theorem bytes_of_holdsOuter {p : Value → Prop} {f : Value → List UInt8}
    (h : ∀ v m, p v → holds v m → (List.range size).map m = f v) (hi : AbiLength.dynamic ∉ inner)
    (hv : ArrayOf p (outer :: inner.reverse) v)
    (hm : HoldsArray ns holds size (outer :: inner.reverse) v m) :
    (List.range (elementCount ns inner outer v * size)).map m =
      arrayBytes f (outer :: inner.reverse) v := by
  obtain ⟨hlen, helems, _⟩ := elems_of_arrayOf hv
  have hcount : elementCount ns inner outer v * size =
      v.elems.length * ((inner.reverse.map (AbiLength.size ns)).prod * size) := by
    rw [List.map_reverse, List.prod_reverse, ← Nat.mul_assoc]
    unfold elementCount
    cases outer with
    | fixed n => rw [hlen n rfl]
    | dynamic => rfl
  rw [hcount, arrayBytes]
  exact bytes_of_holdsEach v.elems m (fun u hu m' hm' =>
    bytes_of_holdsArray h inner.reverse u m' (by rwa [List.mem_reverse]) (helems u hu) hm') hm

theorem holdsEach_decodeTimes {holds : Value → (Nat → UInt8) → Prop} {stride : Nat}
    {g : List UInt8 → Value × List UInt8}
    (hg : ∀ bytes, stride ≤ bytes.length →
      (g bytes).2 = bytes.drop stride ∧ holds (g bytes).1 fun i => bytes.getD i 0) :
    ∀ (n : Nat) (bytes : List UInt8), n * stride ≤ bytes.length →
      (decodeTimes g n bytes).2 = bytes.drop (n * stride) ∧
        HoldsEach holds stride (decodeTimes g n bytes).1 fun i => bytes.getD i 0
  | 0, bytes, _ => ⟨by rw [Nat.zero_mul]; rfl, trivial⟩
  | n + 1, bytes, hlen => by
    rw [Nat.succ_mul] at hlen
    obtain ⟨hb, hx⟩ := hg bytes (by omega)
    obtain ⟨hbs, hxs⟩ := holdsEach_decodeTimes hg n (bytes.drop stride)
      (by rw [List.length_drop]; omega)
    rw [List.drop_drop] at hbs
    rw [decodeTimes]
    simp only
    rw [hb]
    refine ⟨by rw [hbs, Nat.succ_mul, Nat.add_comm], hx, ?_⟩
    rwa [getD_drop] at hxs

theorem holdsArray_decodeDims (ns : Namespace) (length : Nat)
    {holds : Value → (Nat → UInt8) → Prop} {size : Nat}
    {g : List UInt8 → Value × List UInt8}
    (hg : ∀ bytes, size ≤ bytes.length →
      (g bytes).2 = bytes.drop size ∧ holds (g bytes).1 fun i => bytes.getD i 0) :
    ∀ (dims : List AbiLength) (bytes : List UInt8), AbiLength.dynamic ∉ dims →
      (dims.map (AbiLength.size ns)).prod * size ≤ bytes.length →
      (decodeDims g length dims bytes).2 =
          bytes.drop ((dims.map (AbiLength.size ns)).prod * size) ∧
        HoldsArray ns holds size dims (decodeDims g length dims bytes).1 fun i => bytes.getD i 0
  | [], bytes, _, hlen => by
    rw [List.map_nil, List.prod_nil, Nat.one_mul] at *
    exact hg bytes hlen
  | dim :: dims, bytes, hd, hlen => by
    rw [List.mem_cons, not_or] at hd
    cases dim with
    | dynamic => exact absurd rfl hd.1
    | fixed n =>
      rw [List.map_cons, List.prod_cons, Nat.mul_assoc] at *
      exact holdsEach_decodeTimes
        (fun bytes hb => holdsArray_decodeDims ns length hg dims bytes hd.2 hb) n bytes hlen

theorem holdsOuter_decodeDims {g : List UInt8 → Value × List UInt8}
    (hg : ∀ bytes, size ≤ bytes.length →
      (g bytes).2 = bytes.drop size ∧ holds (g bytes).1 fun i => bytes.getD i 0)
    (hi : AbiLength.dynamic ∉ inner) (hlen : bytes.length = elementCount ns inner outer v * size) :
    (decodeDims g v.elems.length (outer :: inner.reverse) bytes).2 = [] ∧
      HoldsArray ns holds size (outer :: inner.reverse)
        (decodeDims g v.elems.length (outer :: inner.reverse) bytes).1 fun i => bytes.getD i 0 := by
  have hi' : AbiLength.dynamic ∉ inner.reverse := by rwa [List.mem_reverse]
  have hdims := holdsArray_decodeDims ns v.elems.length hg inner.reverse
  have hcount : ∀ n, n * (inner.map (AbiLength.size ns)).prod * size =
      n * ((inner.reverse.map (AbiLength.size ns)).prod * size) := by
    intro n
    rw [List.map_reverse, List.prod_reverse, Nat.mul_assoc]
  unfold elementCount at hlen
  rw [hcount] at hlen
  obtain ⟨hrest, hholds⟩ := holdsEach_decodeTimes (fun bytes hb => hdims bytes hi' hb) _ bytes
    (Nat.le_of_eq hlen.symm)
  rw [← hlen, List.drop_length] at hrest
  exact ⟨hrest, hholds⟩

/-! ## Lengths -/

mutual

/-- Element by element, the extended integers take more than in memory. -/
theorem length_elementwise : ∀ (ty : AbiType) (n : Nat) (v : Value), nonPaddedSize ns ty = some n →
    HasType ns ty v → (elementwise ns ty v).length = ty.memorySize ns + extensions ns ty
  | .elementary ty, _, v, _, hv | .userType ty, _, v, _, hv => by
    cases v with
    | scalar bytes =>
      rw [elementwise, length_store ty hv, wireSize_eq]
      rfl
    | _ => exact hv.elim
  | .struct first rest, n, v, hn, hv => by
    obtain ⟨x, xs, rfl, hx, hxs⟩ := fields_of_hasType hv
    obtain ⟨a, b, ha, hb, rfl⟩ := nonPaddedSize_struct hn
    rw [elementwise, List.length_append, length_elementwise first a x ha hx,
      length_elementwiseFields rest b xs hb hxs, memorySize, extensions]
    omega
  | .dynamicBytes, _, _, hn, _ | .string, _, _, hn, _ | .externalFunction, _, _, hn, _
  | .array _ _ _, _, _, hn, _ | .slice _, _, _, hn, _ => nomatch hn

theorem length_elementwiseFields : ∀ (tys : List AbiType) (n : Nat) (vs : List Value),
    nonPaddedSizes ns tys = some n → HaveTypes ns tys vs →
      (elementwiseFields ns tys vs).length = memorySizes ns tys + extensionsAll ns tys
  | [], _, [], _, _ => rfl
  | [], _, _ :: _, _, hv | _ :: _, _, [], _, hv => hv.elim
  | ty :: tys, n, x :: xs, hn, hv => by
    obtain ⟨a, b, ha, hb, rfl⟩ := nonPaddedSizes_cons hn
    rw [elementwiseFields, List.length_append, length_elementwise ty a x ha hv.1,
      length_elementwiseFields tys b xs hb hv.2, memorySizes, extensionsAll]
    omega

end

theorem length_arrayBytes (f : Value → List UInt8) : ∀ dims v, (arrayBytes f dims v).length =
    arraySum (fun _ _ => 0) (fun u => (f u).length) dims v
  | [], _ => rfl
  | _ :: dims, v => by
    rw [arrayBytes, arraySum, List.length_flatMap, Nat.zero_add,
      List.map_congr_left fun u _ => length_arrayBytes f dims u]

/-! ## The copy against the elements -/

theorem nonPaddedSize_of_copied {ty : AbiType} (h : ty.allowMemcpy ns = true)
    (harray : ∀ e i o, ty ≠ .array e i o) : nonPaddedSize ns ty = some (ty.memorySize ns) := by
  cases ty with
  | elementary ty | userType ty =>
    have hprim : ty.isPrimitive = true := by
      cases ty with
      | bytes n => rfl
      | _ => exact h
    exact if_pos hprim
  | struct first rest => exact nonPaddedSize_of_allowMemcpy h
  | array e i o => exact absurd rfl (harray e i o)
  | _ => cases h

theorem copySize_of_ne_array {ty : AbiType} (harray : ∀ e i o, ty ≠ .array e i o) (v : Value) :
    copySize ns ty v = ty.memorySize ns := by
  cases ty with
  | array e i o => exact absurd rfl (harray e i o)
  | _ => rfl

/-- An object that is no array -/
theorem object_agrees_iff (hL : L.Lawful ns) {ty : AbiType} (hcopy : ty.allowMemcpy ns = true)
    (harray : ∀ e i o, ty ≠ .array e i o) (hw : ty.WidthsOk) (hv : HasType ns ty v)
    (hm : Holds L ns ty v m) :
    CopyAgrees ns L ty v m ↔ extensions ns ty = 0 := by
  have hsize := nonPaddedSize_of_copied hcopy harray
  constructor
  · rintro ⟨hencodes, _⟩
    have hlength := congrArg List.length hencodes
    rw [copySize_of_ne_array harray, List.length_map, List.length_range,
      length_elementwise ty _ v hsize hv] at hlength
    omega
  · intro hext
    obtain ⟨_, hcont⟩ := contiguous_of_copied hL ty _ hsize hcopy hw hext
    refine ⟨?_, fun bytes hlen => ?_⟩
    · rw [copySize_of_ne_array harray]
      exact bytes_of_holds ty v m hcont hv hm
    · rw [copySize_of_ne_array harray] at hlen
      obtain ⟨hrest, hholds⟩ := holds_decodeEach ty v.elems.length bytes hcont hlen.ge
      rw [← hlen, List.drop_length] at hrest
      exact ⟨hrest, hholds⟩

/-- An array of elements that are contiguous, or of no elements -/
theorem array_agrees_iff (hL : L.Lawful ns) {elem : AbiType}
    (hcopy : allowMemcpy ns (.array elem inner outer) = true)
    (hvalid : AbiType.Valid (.array elem inner outer)) (hw : elem.WidthsOk)
    (hv : HasType ns (.array elem inner outer) v) (hm : Holds L ns (.array elem inner outer) v m) :
    CopyAgrees ns L (.array elem inner outer) v m ↔ extensions ns elem = 0 ∨ v = .array [] := by
  obtain ⟨hi, _, helem⟩ := allowMemcpy_array hcopy
  obtain ⟨harray, h0, _⟩ := hvalid
  have hsize := nonPaddedSize_of_copied helem harray
  have hv : ArrayOf (HasType ns elem) (outer :: inner.reverse) v := hv
  obtain ⟨hfixed, _, heq⟩ := elems_of_arrayOf hv
  constructor
  · rintro ⟨hencodes, _⟩
    have hlength := congrArg List.length hencodes
    rw [elementwise, length_arrayBytes, arraySum_direct ns (fun _ _ => rfl)
      (fun u hu => length_elementwise elem _ u hsize hu) hi hv, List.length_map,
      List.length_range, copySize, Nat.mul_add] at hlength
    rcases Nat.mul_eq_zero.mp (by omega : elementCount ns inner outer v * extensions ns elem = 0)
      with hcount | hext
    · have hle := length_le_elementCount ns hv hi h0
      rw [heq, List.eq_nil_of_length_eq_zero (by omega : v.elems.length = 0)]
      exact .inr rfl
    · exact .inl hext
  · rintro (hext | hnil)
    · obtain ⟨⟨_, hstride⟩, hcont⟩ := contiguous_of_copied hL elem _ hsize helem hw hext
      have hm : HoldsArray ns (Holds L ns elem) (llvmSize L ns elem) (outer :: inner.reverse) v m :=
        hm
      rw [hstride] at hm
      refine ⟨bytes_of_holdsOuter (fun u m' hu hm' => bytes_of_holds elem u m' hcont hu hm') hi hv
        hm, fun bytes hlen => ?_⟩
      have hdims := holdsOuter_decodeDims
        (fun bytes hb => holds_decodeEach elem 0 bytes hcont hb) hi hlen
      refine ⟨hdims.1, ?_⟩
      show HoldsArray ns (Holds L ns elem) (llvmSize L ns elem) (outer :: inner.reverse) _ _
      rw [hstride]
      exact hdims.2
    · subst hnil
      cases outer with
      | fixed n =>
        have hn : 0 = n := hfixed n rfl
        exact absurd (hn ▸ List.mem_append_right _ List.mem_cons_self) h0
      | dynamic =>
        have hnone : copySize ns (.array elem inner .dynamic) (.array []) = 0 := by
          show 0 * _ * _ = 0
          rw [Nat.zero_mul, Nat.zero_mul]
        refine ⟨by rw [hnone]; rfl, fun bytes hlen => ?_⟩
        rw [hnone] at hlen
        obtain rfl := List.eq_nil_of_length_eq_zero hlen
        exact ⟨rfl, trivial⟩

/-- A copy is the elements one after the other exactly when no integer in it is extended, or there
are no elements. -/
theorem copy_agrees_iff (hL : L.Lawful ns) {ty : AbiType} {v : Value} {m : Nat → UInt8}
    (hcopy : ty.allowMemcpy ns = true) (hvalid : ty.Valid) (hw : ty.WidthsOk)
    (hv : HasType ns ty v) (hm : Holds L ns ty v m) :
    CopyAgrees ns L ty v m ↔ extensions ns ty = 0 ∨ v = .array [] := by
  by_cases harray : ∃ e i o, ty = .array e i o
  · obtain ⟨elem, inner, outer, rfl⟩ := harray
    rw [array_agrees_iff hL hcopy hvalid hw hv hm, extensions]
  · push Not at harray
    rw [object_agrees_iff hL hcopy harray hw hv hm]
    refine (or_iff_left ?_).symm
    rintro rfl
    cases ty with
    | array e i o => exact harray e i o rfl
    | struct first rest => obtain ⟨_, _, h, _⟩ := fields_of_hasType hv; cases h
    | _ => first | exact hv.elim | cases hcopy

/-! ## What the encoder writes -/

section Encoder

variable {mem : AbiType → Value → Nat → UInt8}

variable {α β : Type} {xs ys : List UInt8}

theorem writes_pure (x : α) : Writes (pure x) [] := fun _ _ => rfl

theorem writes_write (offset : Nat) (bytes : List UInt8) :
    Writes (Writer.write offset bytes) bytes := fun _ _ => List.append_nil _

theorem writes_u32 (n : Nat) : Writes (Writer.u32 n) [] := by
  intro x hx
  by_cases hn : n < 2 ^ 32
  · simp only [Writer.u32, Traced.require, if_pos hn]
    rfl
  · simp only [Writer.u32, Traced.require, if_neg hn] at hx
    cases hx

theorem Writes.bind {w : Writer α} {f : α → Writer β} (hw : Writes w xs)
    (hf : ∀ x, w.result = some x → Writes (f x) ys) :
    Writes (w >>= f) (xs ++ ys) := by
  obtain ⟨t, r⟩ := w
  cases r with
  | none => exact fun _ hy => nomatch hy
  | some x =>
    intro y hy
    show (t ++ (f x).trace).flatMap Write.bytes = _
    rw [List.flatMap_append, hw x rfl, hf x rfl y hy]

/-- A step that writes nothing, and one that is followed by nothing written -/
theorem Writes.after {w : Writer α} {f : α → Writer β} (hw : Writes w [])
    (hf : ∀ x, w.result = some x → Writes (f x) ys) : Writes (w >>= f) ys :=
  hw.bind hf

theorem Writes.before {w : Writer α} {f : α → Writer β} (hw : Writes w xs)
    (hf : ∀ x, Writes (f x) []) : Writes (w >>= f) xs := by
  have := hw.bind fun x _ => hf x
  rwa [List.append_nil] at this

theorem writes_foldlM {f : Nat → Value → Writer Nat} {g : Value → List UInt8} :
    ∀ (vs : List Value), (∀ v ∈ vs, ∀ x, Writes (f x v) (g v)) →
      ∀ x, Writes (vs.foldlM f x) (vs.flatMap g)
  | [], _, x => writes_pure x
  | v :: vs, h, x => by
    rw [List.foldlM_cons, List.flatMap_cons]
    exact (h v List.mem_cons_self x).bind fun y _ =>
      writes_foldlM vs (fun u hu => h u (List.mem_cons_of_mem v hu)) y

theorem writes_encodeComplexArray {p : Value → Prop} {encodeElem : Value → Nat → Writer Nat}
    {f : Value → List UInt8} (h : ∀ v, p v → ∀ offset, Writes (encodeElem v offset) (f v)) :
    ∀ dims v offset, ArrayOf p dims v →
      Writes (encodeComplexArray ns true encodeElem dims v offset) (arrayBytes f dims v)
  | [], v, offset, hv => (h v hv offset).before fun _ => writes_u32 _
  | dim :: dims, v, offset, hv => by
    obtain ⟨_, helems, heq⟩ := elems_of_arrayOf hv
    rw [heq, encodeComplexArray, if_neg (by simp), arrayBytes]
    exact (writes_pure offset).after fun x _ => writes_foldlM v.elems (fun u hu y =>
      writes_encodeComplexArray h dims u y (helems u hu)) x

/-- What it copies it takes from memory as it is. -/
theorem writes_copy {ty : AbiType} {byRef : Bool} {offset : Nat} (hcopy : ty.allowMemcpy ns = true)
    (hobject : (∃ e i o, ty = .array e i o) ∨ byRef = false ∧ ∃ first rest, ty = .struct first rest)
    (hv : HasType ns ty v) : Writes (encode ns true mem ty byRef v offset)
      ((List.range (copySize ns ty v)).map (mem ty v)) := by
  rcases hobject with ⟨elem, inner, outer, rfl⟩ | ⟨rfl, first, rest, rfl⟩
  · obtain ⟨_, _, heq⟩ := elems_of_arrayOf (p := HasType ns elem) hv
    obtain ⟨_, hinner, _⟩ := allowMemcpy_array hcopy
    rw [encode, if_pos hcopy]
    cases outer with
    | fixed n =>
      have hsize : copySize ns (.array elem inner (.fixed n)) v =
          ((inner ++ [AbiLength.fixed n]).map (AbiLength.size ns)).prod * elem.memorySize ns := by
        rw [List.map_append, List.prod_append, Nat.mul_comm (List.prod _)]
        simp [copySize, elementCount, AbiLength.size]
      rw [hsize]
      exact (writes_write offset _).before fun _ => writes_pure _
    | dynamic =>
      obtain rfl := hinner rfl
      have hsize : copySize ns (.array elem [] .dynamic) v =
          v.elems.length * elem.memorySize ns := by
        simp [copySize, elementCount]
      rw [hsize, heq]
      refine (writes_u32 _).after fun size hu => ?_
      obtain rfl := (yields_u32 _ hu).1
      exact (writes_write offset _).before fun _ => writes_pure _
  · obtain ⟨x, xs, rfl, _, _⟩ := fields_of_hasType hv
    rw [encode, if_pos ⟨rfl, hcopy⟩, nonPaddedSize_of_allowMemcpy hcopy]
    exact (writes_write offset _).before fun _ => writes_pure _

theorem Copied.encodes (hL : L.Lawful ns) {ty : AbiType} (h : Copied L ns mem ty v)
    (hcopy : ty.allowMemcpy ns = true) :
    (List.range (copySize ns ty v)).map (mem ty v) = elementwise ns ty v := by
  obtain ⟨hvalid, hw, hv, hm, hext⟩ := h
  by_cases harray : ∃ e i o, ty = .array e i o
  · obtain ⟨e, i, o, rfl⟩ := harray
    exact ((array_agrees_iff hL hcopy hvalid hw hv hm).mpr (.inl hext)).encodes
  · push Not at harray
    exact ((object_agrees_iff hL hcopy harray hw hv hm).mpr hext).encodes

mutual

/-- Packed, the encoder writes the elements one after the other, whatever it copies. -/
theorem writes_elementwise (hL : L.Lawful ns) : ∀ (ty : AbiType) (byRef : Bool) (v : Value)
    (offset : Nat), Held L ns mem ty byRef v →
      Writes (encode ns true mem ty byRef v offset) (elementwise ns ty v)
  | .elementary ty, byRef, v, offset, h | .userType ty, byRef, v, offset, h => by
    cases v with
    | scalar bytes => exact (writes_write offset _).before fun _ => writes_pure _
    | _ => exact h.elim
  | .array elem inner outer, byRef, v, offset, h => by
    rw [Held] at h
    by_cases hcopy : allowMemcpy ns (.array elem inner outer) = true
    · rw [if_pos hcopy] at h
      exact h.encodes hL hcopy ▸ writes_copy hcopy (.inl ⟨elem, inner, outer, rfl⟩) h.type
    · rw [if_neg hcopy] at h
      rw [encode, if_neg hcopy, elementwise]
      exact (writes_encodeComplexArray (fun u hu o => writes_elementwise hL elem true u o hu) _ v
        offset h).before fun _ => writes_pure _
  | .struct first rest, byRef, .struct (x :: xs), offset, h => by
    rw [Held] at h
    by_cases hcopy : byRef = false ∧ allowMemcpy ns (.struct first rest) = true
    · rw [if_pos hcopy] at h
      exact h.encodes hL hcopy.2 ▸ writes_copy hcopy.2 (.inr ⟨hcopy.1, first, rest, rfl⟩) h.type
    · rw [if_neg hcopy] at h
      rw [encode, elementwise, if_neg hcopy]
      refine (writes_elementwise hL first false x offset h.1).bind fun advance _ =>
        (writes_elementwiseFields hL rest xs offset advance advance h.2).before fun n => ?_
      cases nonPaddedSize ns (.struct first rest) with
      | some k => exact writes_pure k
      | none => exact writes_u32 n

theorem writes_elementwiseFields (hL : L.Lawful ns) : ∀ (tys : List AbiType) (vs : List Value)
    (offset advance size : Nat), HeldIn L ns mem tys vs →
      Writes (encodeFields ns true mem tys vs offset advance size) (elementwiseFields ns tys vs)
  | [], [], _, _, _, _ => writes_pure _
  | ty :: tys, x :: xs, offset, advance, size, h => by
    rw [encodeFields, elementwiseFields]
    exact (writes_u32 _).after fun o _ => (writes_elementwise hL ty false x o h.1).bind fun a _ =>
      writes_elementwiseFields hL tys xs o a (size + a) h.2

end

end Encoder

namespace Sample

/-- Integers of up to eight bytes are aligned to their size, rounded up to a power of two. -/
def layout : Layout := ⟨fun n => min (nextPowerOfTwo n) 8⟩

theorem layout_lawful : layout.Lawful polkadot where
  natural k := by
    show min (nextPowerOfTwo (2 ^ k)) (2 ^ 3) ∣ 2 ^ k
    unfold nextPowerOfTwo
    rw [Nat.clog_pow 2 k (by decide)]
    rcases Nat.le_total k 3 with hk | hk
    · rw [Nat.min_eq_left (Nat.pow_le_pow_right (by decide) hk)]
    · rw [Nat.min_eq_right (Nat.pow_le_pow_right (by decide) hk)]
      exact Nat.pow_dvd_pow 2 hk
  value := ⟨4, rfl⟩

/-- `uint16[2]` and `uint24[2]`, with the values 1 and 2 -/
def pairType (bits : Nat) : AbiType := .array (.elementary (.uint bits)) [] (.fixed 2)

def pair (first second : List UInt8) : Value := .array [.scalar first, .scalar second]

theorem uint16_pair_agrees : CopyAgrees polkadot layout (pairType 16) (pair [1, 0] [2, 0])
    fun i => [1, 0, 2, 0].getD i 0 := by
  refine (copy_agrees_iff layout_lawful (by decide) ?_ ?_ ?_ ?_).mpr (.inl ?_)
  · exact ⟨fun _ _ _ h => (nomatch h), by decide, trivial⟩
  · exact ⟨by decide, by decide⟩
  · refine ⟨fun k hk => ?_, fun u hu => ?_⟩
    · cases hk
      rfl
    · rcases List.mem_cons.mp hu with rfl | hu
      · rfl
      · rw [List.mem_singleton.mp hu]
        rfl
  · refine ⟨rfl, ?_, trivial⟩
    show (List.range 2).map _ = [(2 : UInt8), 0]
    decide
  · decide

/-- In memory a `uint24` is followed by a byte of padding, on the wire by a byte of zero. Six of
eight bytes are copied. -/
theorem uint24_pair_disagrees :
    ¬ ∀ (ns : Namespace) (L : Layout) ty v m, L.Lawful ns → ty.allowMemcpy ns = true → ty.Valid →
      ty.WidthsOk → HasType ns ty v → Holds L ns ty v m → CopyAgrees ns L ty v m := by
  intro hall
  have hcopy := hall polkadot layout (pairType 24) (pair [1, 0, 0] [2, 0, 0])
    (fun i => [1, 0, 0, 7, 2, 0, 0, 7].getD i 0) layout_lawful (by decide)
    ⟨fun _ _ _ h => (nomatch h), by decide, trivial⟩ ⟨by decide, by decide⟩
    ⟨fun k hk => by cases hk; rfl, fun u hu => by
      rcases List.mem_cons.mp hu with rfl | hu
      · rfl
      · rw [List.mem_singleton.mp hu]
        rfl⟩
    ⟨rfl, by show (List.range 3).map _ = [(2 : UInt8), 0, 0]; decide, trivial⟩
  exact absurd hcopy.encodes (by decide)

end Sample

end Solang.Codegen.Encoding
