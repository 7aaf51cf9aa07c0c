import Solang.Codegen.Encoding.ConstEncode

/-!
# Encodings at compile time and at run time

`runTimeBytes` are the bytes of one literal in the buffer, and `abiEncode_literals` says that the buffer is their
concatenation. Argument by argument they are at least as long as those of `const_encode`, and with the packed
encoder at most as long: so the whole encodings are equal exactly when each of the parts is.
-/

namespace Solang.Codegen.Encoding

open Writer Traced AbiType

/-- The prefix of a length, where it has one -/
def lengthBytes (n : Nat) : List UInt8 := toLittleEndian (compactWidth n) (compactWord n)

section RunTime

variable (packed : Bool)

def stringBytes (data : List UInt8) : Option (List UInt8) :=
  if packed then some data
  else if data.length < 2 ^ 30 then some (lengthBytes data.length ++ data)
  else none

/-- The width of the prefix is calculated for the packed encoder too, which aborts for a long slice. -/
def sliceBytes (data : List UInt8) : Option (List UInt8) :=
  if data.length < 2 ^ 30 then some ((if packed then [] else lengthBytes data.length) ++ data) else none

/-- What the generated code writes for a literal, `none` where it aborts -/
def runTimeBytes : Argument → Option (List UInt8)
  | .allocDynamicBytes (.slice _) _ (some data) => sliceBytes packed data
  | .allocDynamicBytes _ _ (some data) => stringBytes packed data
  | .numberLiteral (.elementary (.bytes n)) value => some (toLittleEndian n value.toNat).reverse
  | .numberLiteral (.elementary _) value => some (toLittleEndian 32 value.toNat)
  | _ => none

end RunTime

/-- Code that has no effect besides, from the bytes that are to be encoded -/
def sizeOfBytes : Option (List UInt8) → Writer Nat
  | some bytes => pure bytes.length
  | none => abort

@[simp] theorem length_lengthBytes (n : Nat) : (lengthBytes n).length = compactWidth n :=
  length_toLittleEndian _ _

theorem compactWidth_pos (n : Nat) : 0 < compactWidth n := by
  unfold compactWidth
  split
  · omega
  · split <;> omega

theorem compactWidth_le (n : Nat) : compactWidth n ≤ 4 := by
  unfold compactWidth
  split
  · omega
  · split <;> omega

section Sizes

variable {ns : Namespace} {packed : Bool}

theorem calculateStringSize_eq (hns : ns.target ≠ .solana) (data : List UInt8) :
    calculateStringSize ns packed data.length = sizeOfBytes (stringBytes packed data) := by
  obtain ⟨_, hsize, _⟩ := scale_lengths hns data.length 0
  unfold calculateStringSize stringBytes
  cases packed with
  | true => rfl
  | false =>
    simp only [Bool.false_eq_true, if_false, hsize]
    by_cases hlen : data.length < 2 ^ 30
    · have hwidth := compactWidth_le data.length
      rw [if_pos hlen, encodeCompact_none _ hlen]
      show u32 (compactWidth data.length + data.length) = _
      rw [u32_eq (by omega), sizeOfBytes, List.length_append, length_lengthBytes]
    · rw [if_neg hlen, encodeCompact_abort _ _ (by omega)]
      rfl

theorem sliceSize_eq (hns : ns.target ≠ .solana) (data : List UInt8) :
    getExprSize ns packed (.slice (.elementary (.bytes 1))) (.array (data.map fun b => .scalar [b])) =
      sizeOfBytes (sliceBytes packed data) := by
  obtain ⟨_, hsize, _⟩ := scale_lengths hns data.length 0
  have hcode : getExprSize ns packed (.slice (.elementary (.bytes 1))) (.array (data.map fun b => .scalar [b])) =
      (do
        let width ← sizeWidth ns data.length
        let size ← u32 (data.length * 1)
        if packed = true ∨ AbiLength.dynamic ≠ .dynamic then pure size else u32 (size + width)) := by
    rw [← List.length_map fun b => Value.scalar [b]]
    rfl
  rw [hcode, hsize]
  unfold sliceBytes
  by_cases hlen : data.length < 2 ^ 30
  · have hwidth := compactWidth_le data.length
    rw [if_pos hlen, encodeCompact_none _ hlen, u32_eq (by omega)]
    cases packed with
    | true => rw [Nat.mul_one]; rfl
    | false =>
      show u32 (data.length * 1 + compactWidth data.length) = _
      rw [u32_eq (by omega), sizeOfBytes, if_neg Bool.false_ne_true, List.length_append, length_lengthBytes,
        Nat.mul_one, Nat.add_comm]
  · rw [if_neg hlen, encodeCompact_abort _ _ (by omega)]
    rfl

theorem getExprSize_eq (hns : ns.target ≠ .solana) {codec : Codec} {arg : Argument} {bytes : List UInt8}
    (h : Literal codec arg bytes) :
    getExprSize ns packed arg.ty (arg.value ns) = sizeOfBytes (runTimeBytes packed arg) := by
  cases h with
  | string size bytes | dynamicBytes size bytes => exact calculateStringSize_eq hns bytes
  | slice size => exact sliceSize_eq hns bytes
  | bytes4 value => rfl
  | uint256 value =>
    show pure ((Elementary.uint 256).wireSize ns) = (pure (toLittleEndian 32 value.toNat).length : Writer Nat)
    rw [length_toLittleEndian]
    rfl

end Sizes

/-! ## The writes -/

section Writes

variable {ns : Namespace} {packed : Bool} {mem : AbiType → Value → Nat → UInt8} {offset : Nat}
  {data bytes : List UInt8}

theorem some_bind {α β : Type} (writes : List Write) (x : α) (f : α → Writer β) :
    (⟨writes, some x⟩ : Writer α) >>= f = ⟨writes ++ (f x).trace, (f x).result⟩ := rfl

theorem encodes_encodeSize (hns : ns.target ≠ .solana) {n : Nat} (hn : n < 2 ^ 30) :
    encodeSize ns n offset = ⟨[⟨offset, lengthBytes n⟩], some (compactWidth n)⟩ := by
  obtain ⟨_, _, hsize⟩ := scale_lengths hns n offset
  rw [hsize, encodeCompact_eq n offset hn]
  rfl

theorem encodes_string (hns : ns.target ≠ .solana) (h : stringBytes packed data = some bytes)
    (hfit : offset + bytes.length < 2 ^ 32) : Encodes (encodeBytes ns packed data offset) offset bytes := by
  unfold encodeBytes
  unfold stringBytes at h
  cases packed with
  | true =>
    obtain rfl : data = bytes := Option.some.inj h
    exact ⟨rfl, consecutive_single offset data⟩
  | false =>
    simp only [Bool.false_eq_true, if_false] at h ⊢
    split at h
    · rename_i hlen
      obtain rfl := Option.some.inj h
      rw [List.length_append, length_lengthBytes] at hfit
      rw [encodes_encodeSize hns hlen]
      have hcode : (do
          let dataOffset ← u32 (offset + compactWidth data.length)
          write dataOffset data
          u32 (data.length + compactWidth data.length)) =
          (⟨[⟨offset + compactWidth data.length, data⟩], some (data.length + compactWidth data.length)⟩ :
            Writer Nat) := by
        rw [u32_eq (by omega), u32_eq (by omega)]
        rfl
      rw [some_bind, hcode]
      refine ⟨?_, (consecutive_single offset (lengthBytes data.length)).append ?_⟩
      · rw [List.length_append, length_lengthBytes, Nat.add_comm (compactWidth _)]
      · rw [length_lengthBytes]
        exact consecutive_single _ data
    · cases h

variable (ns packed mem) in
/-- The loop over the elements of a slice, with the offset behind it as its result -/
theorem encodes_elements : ∀ (data : List UInt8) (offset : Nat), offset + data.length < 2 ^ 32 →
    ∃ writes, (data.map fun b => Value.scalar [b]).foldlM (fun offset v =>
        encodeComplexArray ns packed (encode ns packed mem (.elementary (.bytes 1)) true) [] v offset) offset =
      ⟨writes, some (offset + data.length)⟩ ∧ Consecutive offset writes data
  | [], offset, _ => ⟨[], rfl, rfl⟩
  | b :: data, offset, hfit => by
    rw [List.length_cons] at hfit
    obtain ⟨writes, hrest, hwrites⟩ := encodes_elements data (offset + 1) (by omega)
    refine ⟨⟨offset, [b]⟩ :: writes, ?_, rfl, data, rfl, hwrites⟩
    rw [List.map_cons, List.foldlM_cons]
    have hfirst : encodeComplexArray ns packed (encode ns packed mem (.elementary (.bytes 1)) true) []
        (.scalar [b]) offset = ⟨[⟨offset, [b]⟩], some (offset + 1)⟩ := by
      rw [encodeComplexArray]
      show (⟨[⟨offset, [b]⟩] ++ (u32 (1 + offset)).trace, (u32 (1 + offset)).result⟩ : Writer Nat) = _
      rw [u32_eq (by omega), Nat.add_comm]
      rfl
    rw [hfirst, some_bind, hrest, List.length_cons, Nat.add_assoc, Nat.add_comm 1]
    rfl

theorem encodes_slice (hns : ns.target ≠ .solana) (h : sliceBytes packed data = some bytes)
    (hfit : offset + bytes.length < 2 ^ 32) :
    Encodes (encode ns packed mem (.slice (.elementary (.bytes 1))) false
      (.array (data.map fun b => .scalar [b])) offset) offset bytes := by
  unfold sliceBytes at h
  split at h
  · rename_i hlen
    obtain rfl := Option.some.inj h
    rw [List.length_append] at hfit
    have hprefix : ∃ writes, (if AbiLength.dynamic = .dynamic ∧ ¬ packed = true then do
          let size ← encodeSize ns (data.map fun b => Value.scalar [b]).length offset
          u32 (offset + size)
        else pure offset) =
        (⟨writes, some (offset + (if packed then [] else lengthBytes data.length).length)⟩ : Writer Nat) ∧
          Consecutive offset writes (if packed then [] else lengthBytes data.length) := by
      cases packed with
      | true => exact ⟨[], rfl, rfl⟩
      | false =>
        simp only [Bool.false_eq_true, if_false, length_lengthBytes] at hfit ⊢
        refine ⟨_, ?_, consecutive_single offset _⟩
        rw [if_pos ⟨trivial, not_false⟩, List.length_map, encodes_encodeSize hns hlen, some_bind, u32_eq (by omega)]
        rfl
    obtain ⟨front, hfront, hwritten⟩ := hprefix
    obtain ⟨writes, hloop, hwrites⟩ := encodes_elements ns packed mem data
      (offset + (if packed then [] else lengthBytes data.length).length) (by omega)
    rw [encode]
    unfold encodeArrayLoop
    rw [encodeComplexArray, hfront, some_bind, hloop, some_bind]
    refine ⟨?_, ?_⟩
    · show some (offset + _ + data.length - offset) = _
      rw [List.length_append, Nat.add_assoc, Nat.add_sub_cancel_left]
    · show Consecutive offset ((front ++ writes) ++ []) _
      rw [List.append_nil]
      exact hwritten.append hwrites
  · cases h

theorem takeD_eq_append : ∀ {n : Nat} {bytes : List UInt8}, bytes.length ≤ n →
    bytes.takeD n 0 = bytes ++ List.replicate (n - bytes.length) 0
  | n, [], _ => List.takeD_nil n 0
  | n + 1, b :: bytes, h => by
    rw [List.takeD, List.length_cons, Nat.add_sub_add_right]
    exact congrArg (b :: ·) (takeD_eq_append (Nat.le_of_succ_le_succ h))

/-- Four bytes of a magnitude, the highest first -/
theorem bigEndian_bytes4 {value : Int} (hpos : 0 ≤ value) (hlt : value < 2 ^ 32) :
    List.replicate (4 - (toBytesBe value).length) 0 ++ toBytesBe value =
      (toLittleEndian 4 value.toNat).reverse := by
  have hlen : (ConstantFolding.toBytesLe value).length ≤ 4 :=
    (ConstantFolding.length_toBytesLe_le_iff (by decide)).mpr (by omega)
  have hresized := ConstantFolding.takeD_toBytesLe 4 value
  rw [takeD_eq_append hlen] at hresized
  rw [toBytesBe, List.length_reverse, show value.toNat = value.natAbs by omega, ← hresized, List.reverse_append,
    List.reverse_replicate]

variable (mem offset) in
theorem encodes_literal (hns : ns.target ≠ .solana) {codec : Codec} {arg : Argument} {constant : List UInt8}
    (hliteral : Literal codec arg constant) (htyped : arg.WellTyped) (h : runTimeBytes packed arg = some bytes)
    (hfit : offset + bytes.length < 2 ^ 32) :
    Encodes (encode ns packed mem arg.ty false (arg.value ns) offset) offset bytes := by
  cases hliteral with
  | string size data | dynamicBytes size data => exact encodes_string hns h hfit
  | slice size => exact encodes_slice hns h hfit
  | bytes4 value =>
    obtain rfl := Option.some.inj h
    obtain ⟨hpos, hlt⟩ := htyped
    refine ⟨?_, ?_⟩
    · rw [List.length_reverse, length_toLittleEndian]
      rfl
    · have hvalue : (value % 2 ^ (8 * 4)).toNat = value.toNat := by rw [Int.emod_eq_of_lt hpos hlt]
      show Consecutive offset [⟨offset, (toLittleEndian 4 (value % 2 ^ (8 * 4)).toNat).reverse⟩] _
      rw [hvalue]
      exact consecutive_single _ _
  | uint256 value =>
    obtain rfl := Option.some.inj h
    obtain ⟨hpos, hlt⟩ := htyped
    refine ⟨?_, ?_⟩
    · rw [length_toLittleEndian]
      rfl
    · have hvalue : (value % 2 ^ (8 * 32)).toNat = value.toNat := by rw [Int.emod_eq_of_lt hpos hlt]
      have hstored : (Elementary.uint 256).store ns (toLittleEndian 32 (value % 2 ^ (8 * 32)).toNat) =
          toLittleEndian 32 value.toNat := by
        show _ ++ List.replicate (32 - (toLittleEndian 32 _).length) 0 = _
        rw [length_toLittleEndian, hvalue]
        exact List.append_nil _
      show Consecutive offset [⟨offset, (Elementary.uint 256).store ns
        (toLittleEndian 32 (value % 2 ^ (8 * 32)).toNat)⟩] _
      rw [hstored]
      exact consecutive_single _ _

end Writes

/-! ## All arguments -/

section Arguments

variable {ns : Namespace} {packed : Bool} {mem : AbiType → Value → Nat → UInt8} {codec : Codec}

variable {arg : Argument} {constant bytes : List UInt8} {args : List Argument}
  {constants : List (List UInt8)}

theorem length_runTimeBytes (hliteral : Literal codec arg constant) (htyped : arg.WellTyped)
    (h : runTimeBytes packed arg = some bytes) : bytes.length < 2 ^ 32 := by
  have hstring {data : List UInt8} (hdata : data.length < 2 ^ 32) (h : stringBytes packed data = some bytes) :
      bytes.length < 2 ^ 32 := by
    unfold stringBytes at h
    split at h
    · obtain rfl := Option.some.inj h
      exact hdata
    · split at h
      · have hwidth := compactWidth_le data.length
        obtain rfl := Option.some.inj h
        rw [List.length_append, length_lengthBytes]
        omega
      · cases h
  cases hliteral with
  | string size data | dynamicBytes size data => exact hstring (htyped.1 ▸ htyped.2) h
  | slice size =>
    have h : sliceBytes packed constant = some bytes := h
    unfold sliceBytes at h
    split at h
    · have hwidth := compactWidth_le constant.length
      have hprefix : (if packed then [] else lengthBytes constant.length).length ≤ 4 := by
        cases packed with
        | true => exact Nat.zero_le 4
        | false => rwa [if_neg Bool.false_ne_true, length_lengthBytes]
      obtain rfl := Option.some.inj h
      rw [List.length_append]
      omega
    · cases h
  | bytes4 value =>
    obtain rfl := Option.some.inj h
    rw [List.length_reverse, length_toLittleEndian]
    decide
  | uint256 value =>
    obtain rfl := Option.some.inj h
    rw [length_toLittleEndian]
    decide

/-- The size of one literal, when there is one -/
theorem result_getExprSize (hns : ns.target ≠ .solana) (hliteral : Literal codec arg constant)
    {size : Nat} (h : (getExprSize ns packed arg.ty (arg.value ns)).result = some size) :
    ∃ bytes, runTimeBytes packed arg = some bytes ∧ size = bytes.length := by
  rw [getExprSize_eq hns hliteral] at h
  cases hbytes : runTimeBytes packed arg with
  | none =>
    rw [hbytes] at h
    cases h
  | some bytes =>
    rw [hbytes] at h
    exact ⟨bytes, rfl, (Option.some.inj h).symm⟩

theorem result_addSizes (hns : ns.target ≠ .solana) : ∀ {args : List Argument} {constants : List (List UInt8)}
    {start size : Nat}, List.Forall₂ (Literal codec) args constants →
      (addSizes ns packed args start).result = some size →
        ∃ parts, List.Forall₂ (fun arg part => runTimeBytes packed arg = some part) args parts ∧
          size = start + parts.flatten.length ∧ (start < 2 ^ 32 → size < 2 ^ 32)
  | [], _, start, size, _, h => ⟨[], .nil, (Option.some.inj h).symm, fun hstart => Option.some.inj h ▸ hstart⟩
  | arg :: args, _, start, size, .cons hliteral hliterals, h => by
    obtain ⟨additional, hadditional, h⟩ := result_bind h
    obtain ⟨part, hpart, rfl⟩ := result_getExprSize hns hliteral hadditional
    obtain ⟨next, hnext, h⟩ := result_bind h
    obtain ⟨rfl, _, hlt⟩ := yields_u32 next hnext
    obtain ⟨parts, hparts, rfl, hsize⟩ := result_addSizes hns hliterals h
    refine ⟨part :: parts, .cons hpart hparts, ?_, fun _ => hsize hlt⟩
    rw [List.flatten_cons, List.length_append, Nat.add_assoc]

theorem result_calculateSizeArgs (hns : ns.target ≠ .solana)
    (hliterals : List.Forall₂ (Literal codec) args constants) (htyped : ∀ arg ∈ args, arg.WellTyped)
    {size : Nat} (h : (calculateSizeArgs ns packed args).result = some size) :
    ∃ parts, List.Forall₂ (fun arg part => runTimeBytes packed arg = some part) args parts ∧
      size = parts.flatten.length ∧ size < 2 ^ 32 := by
  cases hliterals with
  | nil =>
    obtain rfl := Option.some.inj h
    exact ⟨[], .nil, rfl, by decide⟩
  | @cons arg _ args _ hliteral hliterals =>
    obtain ⟨first, hfirst, h⟩ := result_bind h
    obtain ⟨part, hpart, rfl⟩ := result_getExprSize hns hliteral hfirst
    obtain ⟨parts, hparts, rfl, hsize⟩ := result_addSizes hns hliterals h
    refine ⟨part :: parts, .cons hpart hparts, ?_, hsize ?_⟩
    · rw [List.flatten_cons, List.length_append]
    · exact length_runTimeBytes hliteral (htyped arg List.mem_cons_self) hpart

theorem getExprSize_pure (hns : ns.target ≠ .solana) (hliteral : Literal codec arg constant)
    (h : runTimeBytes packed arg = some bytes) :
    getExprSize ns packed arg.ty (arg.value ns) = pure bytes.length := by
  rw [getExprSize_eq hns hliteral, h]
  rfl

theorem addSizes_eq (hns : ns.target ≠ .solana) : ∀ {args : List Argument} {constants parts : List (List UInt8)}
    {start : Nat}, List.Forall₂ (Literal codec) args constants →
      List.Forall₂ (fun arg part => runTimeBytes packed arg = some part) args parts →
        start + parts.flatten.length < 2 ^ 32 →
          addSizes ns packed args start = pure (start + parts.flatten.length)
  | [], _, _, start, .nil, .nil, _ => rfl
  | arg :: args, _, part :: parts, start, .cons hliteral hliterals, .cons hpart hparts, hfit => by
    rw [List.flatten_cons, List.length_append] at hfit ⊢
    rw [addSizes, getExprSize_pure hns hliteral hpart]
    show (u32 (start + part.length) >>= fun size => addSizes ns packed args size) = _
    rw [u32_eq (by omega), ← Nat.add_assoc]
    exact addSizes_eq hns hliterals hparts (by omega)

theorem calculateSizeArgs_eq (hns : ns.target ≠ .solana) {parts : List (List UInt8)}
    (hliterals : List.Forall₂ (Literal codec) args constants)
    (hparts : List.Forall₂ (fun arg part => runTimeBytes packed arg = some part) args parts)
    (hfit : parts.flatten.length < 2 ^ 32) :
    calculateSizeArgs ns packed args = pure parts.flatten.length := by
  cases hliterals with
  | nil =>
    cases hparts
    rfl
  | cons hliteral hliterals =>
    cases hparts with
    | cons hpart hparts =>
      rw [List.flatten_cons, List.length_append] at hfit ⊢
      rw [calculateSizeArgs, getExprSize_pure hns hliteral hpart]
      exact addSizes_eq hns hliterals hparts hfit

variable (mem) in
theorem encodes_items (hns : ns.target ≠ .solana) : ∀ {args : List Argument}
    {constants parts : List (List UInt8)} (offset : Nat), List.Forall₂ (Literal codec) args constants →
      (∀ arg ∈ args, arg.WellTyped) →
        List.Forall₂ (fun arg part => runTimeBytes packed arg = some part) args parts →
          offset + parts.flatten.length < 2 ^ 32 →
            (encodeItems ns packed mem args offset).result = some () ∧
              Consecutive offset (encodeItems ns packed mem args offset).trace parts.flatten
  | [], _, _, offset, .nil, _, .nil, _ => ⟨rfl, rfl⟩
  | arg :: args, _, part :: parts, offset, .cons hliteral hliterals, htyped, .cons hpart hparts, hfit => by
    rw [List.flatten_cons, List.length_append] at hfit
    obtain ⟨hresult, hwrites⟩ := encodes_literal mem offset hns hliteral
      (htyped arg List.mem_cons_self) hpart (by omega)
    have hfirst : encode ns packed mem arg.ty false (arg.value ns) offset =
        ⟨(encode ns packed mem arg.ty false (arg.value ns) offset).trace, some part.length⟩ :=
      congrArg (Traced.mk _) hresult
    rw [encodeItems, hfirst, some_bind, List.flatten_cons]
    cases args with
    | nil =>
      cases hparts
      refine ⟨rfl, ?_⟩
      show Consecutive offset (_ ++ []) (part ++ [])
      rw [List.append_nil, List.append_nil]
      exact hwrites
    | cons next args =>
      obtain ⟨hdone, hrest⟩ := encodes_items hns (offset + part.length) hliterals
        (fun a ha => htyped a (List.mem_cons_of_mem arg ha)) hparts (by omega)
      have hcode : (do
          let offset ← u32 (offset + part.length)
          encodeItems ns packed mem (next :: args) offset) =
          encodeItems ns packed mem (next :: args) (offset + part.length) := by
        rw [u32_eq (by omega)]
        rfl
      show (do
          let offset ← u32 (offset + part.length)
          encodeItems ns packed mem (next :: args) offset).result = _ ∧ Consecutive offset (_ ++ (do
          let offset ← u32 (offset + part.length)
          encodeItems ns packed mem (next :: args) offset).trace) _
      rw [hcode]
      exact ⟨hdone, hwrites.append hrest⟩

/-- The buffer is the concatenation of what is written for each literal, and there is one when its size fits. -/
theorem abiEncode_literals (hns : ns.target ≠ .solana)
    (hliterals : List.Forall₂ (Literal codec) args constants) (htyped : ∀ arg ∈ args, arg.WellTyped) :
    abiEncode ns packed mem args = some bytes ↔
      ∃ parts, List.Forall₂ (fun arg part => runTimeBytes packed arg = some part) args parts ∧
        bytes = parts.flatten ∧ bytes.length < 2 ^ 32 := by
  have hfits {parts : List (List UInt8)}
      (hparts : List.Forall₂ (fun arg part => runTimeBytes packed arg = some part) args parts)
      (hlt : parts.flatten.length < 2 ^ 32) : abiEncode ns packed mem args = some parts.flatten := by
    obtain ⟨hdone, hwrites⟩ := encodes_items mem hns 0 hliterals htyped hparts (by omega)
    have hbuffer := hwrites.overwrite (List.replicate parts.flatten.length 0)
      (by rw [List.length_replicate, Nat.zero_add])
    unfold abiEncode
    rw [calculateSizeArgs_eq hns hliterals hparts hlt]
    cases hitems : encodeItems ns packed mem args 0 with
    | mk writes result =>
      rw [hitems] at hdone hbuffer
      obtain rfl : result = some () := hdone
      show some (writes.foldl overwrite (List.replicate parts.flatten.length 0)) = _
      rw [hbuffer, Nat.zero_add, List.take_zero, List.nil_append,
        List.drop_eq_nil_of_le (by rw [List.length_replicate]), List.append_nil]
  constructor
  · intro h
    cases hsize : (calculateSizeArgs ns packed args).result with
    | none =>
      unfold abiEncode at h
      rw [hsize] at h
      cases h
    | some size =>
      obtain ⟨parts, hparts, rfl, hlt⟩ := result_calculateSizeArgs hns hliterals htyped hsize
      obtain rfl : parts.flatten = bytes := Option.some.inj ((hfits hparts hlt).symm.trans h)
      exact ⟨parts, hparts, rfl, hlt⟩
  · rintro ⟨parts, hparts, rfl, hlt⟩
    exact hfits hparts hlt

end Arguments

/-- The argument is encoded in the same way at run time. -/
def EncodedAlike (packed : Bool) : Argument → Prop
  | .allocDynamicBytes (.slice _) _ (some data) => packed = true ∧ data.length < 2 ^ 30
  | .allocDynamicBytes _ _ (some data) => packed = false ∧ data.length < 2 ^ 30
  | _ => True

/-- The bytes of an argument, with the prefix of its length -/
def Argument.encodedSize : Argument → Nat
  | .allocDynamicBytes (.slice _) _ (some data) => data.length
  | .allocDynamicBytes _ _ (some data) => compactWidth data.length + data.length
  | .numberLiteral (.elementary (.bytes n)) _ => n
  | _ => 32

theorem scaleCompact_eq {n : Nat} (h : n < 2 ^ 30) : scaleCompact n = lengthBytes n := by
  unfold scaleCompact lengthBytes compactWord compactWidth
  split
  · rfl
  · split
    · rfl
    · rfl

theorem scaleCompact_pos (n : Nat) : 0 < (scaleCompact n).length := by
  by_cases h : n < 2 ^ 30
  · rw [scaleCompact_eq h, length_lengthBytes]
    exact compactWidth_pos n
  · unfold scaleCompact
    rw [if_neg (by omega), if_neg (by omega), if_neg h]
    exact Nat.succ_pos _

/-- Without prefixes the bytes at run time are as many or fewer, and with them as many or more. -/
def Compares (packed : Bool) (constant bytes : List UInt8) : Prop :=
  if packed then bytes.length ≤ constant.length else constant.length ≤ bytes.length

section Both

variable {ns : Namespace} {packed : Bool} {mem : AbiType → Value → Nat → UInt8} {codec : Codec} {arg : Argument}
  {constant bytes : List UInt8}

theorem constant_bytes4 {value : Int} (htyped : Argument.WellTyped (.numberLiteral (.elementary (.bytes 4)) value)) :
    List.replicate (4 - (toBytesBe value).length) 0 ++ toBytesBe value = (toLittleEndian 4 value.toNat).reverse :=
  bigEndian_bytes4 htyped.1 htyped.2

theorem constant_uint256 (hcodec : codec.Scale) {value : Int}
    (htyped : Argument.WellTyped (.numberLiteral (.elementary (.uint 256)) value)) :
    codec.encodeU256 (fromBigEndian (toBytesBe value)) = toLittleEndian 32 value.toNat := by
  obtain ⟨hpos, hlt⟩ := htyped
  have hvalue : fromBigEndian (toBytesBe value) = value.toNat := by
    rw [fromBigEndian, toBytesBe, List.reverse_reverse, ConstantFolding.littleEndian_toBytesLe]
    omega
  rw [hvalue, hcodec.u256 _ (by omega)]

theorem runTimeBytes_of_encodedAlike (hcodec : codec.Scale) (hliteral : Literal codec arg constant)
    (htyped : arg.WellTyped) (h : EncodedAlike packed arg) :
    runTimeBytes packed arg = some constant ∧ constant.length = arg.encodedSize := by
  have hstring {size : Nat} {data : List UInt8} (hdata : data.length = size ∧ size < 2 ^ 32)
      (halike : packed = false ∧ data.length < 2 ^ 30) :
      stringBytes packed data = some (codec.encodeBytes data) ∧
        (codec.encodeBytes data).length = compactWidth data.length + data.length := by
    obtain ⟨rfl, hlen⟩ := halike
    rw [hcodec.bytes data (hdata.1 ▸ hdata.2), scaleCompact_eq hlen]
    unfold stringBytes
    rw [if_neg Bool.false_ne_true, if_pos hlen, List.length_append, length_lengthBytes]
    exact ⟨rfl, rfl⟩
  cases hliteral with
  | string size data | dynamicBytes size data => exact hstring htyped h
  | slice size =>
    obtain ⟨rfl, hlen⟩ := h
    refine ⟨?_, rfl⟩
    show sliceBytes true constant = _
    unfold sliceBytes
    rw [if_pos hlen, if_pos rfl, List.nil_append]
  | bytes4 value =>
    rw [constant_bytes4 htyped]
    exact ⟨rfl, by rw [List.length_reverse, length_toLittleEndian]; rfl⟩
  | uint256 value =>
    rw [constant_uint256 hcodec htyped]
    exact ⟨rfl, length_toLittleEndian 32 _⟩

theorem compares_runTimeBytes (hcodec : codec.Scale) (hliteral : Literal codec arg constant)
    (htyped : arg.WellTyped) (h : runTimeBytes packed arg = some bytes) :
    Compares packed constant bytes ∧ (constant.length = bytes.length → EncodedAlike packed arg) := by
  have hstring {size : Nat} {data : List UInt8} (hdata : data.length = size ∧ size < 2 ^ 32)
      (h : stringBytes packed data = some bytes) : Compares packed (codec.encodeBytes data) bytes ∧
        ((codec.encodeBytes data).length = bytes.length → packed = false ∧ data.length < 2 ^ 30) := by
    have hpos := scaleCompact_pos data.length
    rw [hcodec.bytes data (hdata.1 ▸ hdata.2), List.length_append]
    unfold stringBytes at h
    unfold Compares
    cases packed with
    | true =>
      obtain rfl := Option.some.inj h
      rw [if_pos rfl, List.length_append]
      exact ⟨by omega, fun hlen => by omega⟩
    | false =>
      rw [if_neg Bool.false_ne_true] at h ⊢
      split at h
      · rename_i hlen
        obtain rfl := Option.some.inj h
        rw [scaleCompact_eq hlen]
        exact ⟨Nat.le_refl _, fun _ => ⟨rfl, hlen⟩⟩
      · cases h
  have hsame (hconstant : constant = bytes) (halike : EncodedAlike packed arg) :
      Compares packed constant bytes ∧ (constant.length = bytes.length → EncodedAlike packed arg) := by
    rw [hconstant]
    refine ⟨?_, fun _ => halike⟩
    unfold Compares
    split <;> exact Nat.le_refl _
  cases hliteral with
  | string size data | dynamicBytes size data => exact hstring htyped h
  | slice size =>
    have h : sliceBytes packed constant = some bytes := h
    unfold sliceBytes at h
    split at h
    · rename_i hlen
      obtain rfl := Option.some.inj h
      cases packed with
      | true => exact hsame rfl ⟨rfl, hlen⟩
      | false =>
        have hpos := compactWidth_pos constant.length
        unfold Compares
        rw [if_neg Bool.false_ne_true, if_neg Bool.false_ne_true, List.length_append, length_lengthBytes]
        exact ⟨by omega, fun heq => by omega⟩
    · cases h
  | bytes4 value =>
    obtain rfl := Option.some.inj h
    exact hsame (constant_bytes4 htyped) trivial
  | uint256 value =>
    obtain rfl := Option.some.inj h
    exact hsame (constant_uint256 hcodec htyped) trivial

theorem compares_flatten (hcodec : codec.Scale) : ∀ {args : List Argument} {constants parts : List (List UInt8)},
    List.Forall₂ (Literal codec) args constants → (∀ arg ∈ args, arg.WellTyped) →
      List.Forall₂ (fun arg part => runTimeBytes packed arg = some part) args parts →
        Compares packed constants.flatten parts.flatten ∧
          (constants.flatten.length = parts.flatten.length → ∀ arg ∈ args, EncodedAlike packed arg)
  | [], _, _, .nil, _, .nil => by
    refine ⟨?_, fun _ _ hmem => absurd hmem List.not_mem_nil⟩
    unfold Compares
    split <;> exact Nat.le_refl _
  | arg :: args, constant :: constants, part :: parts, .cons hliteral hliterals, htyped, .cons hpart hparts => by
    obtain ⟨hfirst, halike⟩ := compares_runTimeBytes hcodec hliteral (htyped arg List.mem_cons_self) hpart
    obtain ⟨hrest, hallAlike⟩ := compares_flatten hcodec hliterals
      (fun a ha => htyped a (List.mem_cons_of_mem arg ha)) hparts
    -- None of the differences makes up for another one.
    have hboth : Compares packed (constant ++ constants.flatten) (part ++ parts.flatten) ∧
        ((constant ++ constants.flatten).length = (part ++ parts.flatten).length →
          constant.length = part.length ∧ constants.flatten.length = parts.flatten.length) := by
      unfold Compares at *
      rw [List.length_append, List.length_append]
      cases packed with
      | true => simp only [if_true] at *; omega
      | false => simp only [Bool.false_eq_true, if_false] at *; omega
    rw [List.flatten_cons, List.flatten_cons]
    refine ⟨hboth.1, fun heq a ha => ?_⟩
    obtain ⟨heqFirst, heqRest⟩ := hboth.2 heq
    rcases List.mem_cons.mp ha with rfl | ha
    · exact halike heqFirst
    · exact hallAlike heqRest a ha

theorem parts_of_encodedAlike (hcodec : codec.Scale) : ∀ {args : List Argument} {constants : List (List UInt8)},
    List.Forall₂ (Literal codec) args constants → (∀ arg ∈ args, arg.WellTyped) →
      (∀ arg ∈ args, EncodedAlike packed arg) →
        List.Forall₂ (fun arg part => runTimeBytes packed arg = some part) args constants ∧
          constants.flatten.length = (args.map Argument.encodedSize).sum
  | [], _, .nil, _, _ => ⟨.nil, rfl⟩
  | arg :: args, constant :: constants, .cons hliteral hliterals, htyped, halike => by
    obtain ⟨hpart, hlen⟩ := runTimeBytes_of_encodedAlike hcodec hliteral (htyped arg List.mem_cons_self)
      (halike arg List.mem_cons_self)
    obtain ⟨hparts, hlens⟩ := parts_of_encodedAlike hcodec hliterals
      (fun a ha => htyped a (List.mem_cons_of_mem arg ha)) (fun a ha => halike a (List.mem_cons_of_mem arg ha))
    refine ⟨.cons hpart hparts, ?_⟩
    rw [List.flatten_cons, List.length_append, List.map_cons, List.sum_cons, hlen, hlens]

/-- Arguments that have an encoding at compile time get it at run time too, exactly when each of them is encoded in
the same way and the whole fits into a buffer. -/
theorem constEncode_agrees_iff (hcodec : codec.Scale) {args : List Argument}
    (htyped : ∀ arg ∈ args, arg.WellTyped) (h : constEncode codec ns args = some bytes) :
    abiEncode ns packed mem args = some bytes ↔
      (∀ arg ∈ args, EncodedAlike packed arg) ∧ (args.map Argument.encodedSize).sum < 2 ^ 32 := by
  obtain ⟨hns, constants, hliterals, rfl⟩ := literals_of_constEncode h
  rw [abiEncode_literals hns hliterals htyped]
  constructor
  · rintro ⟨parts, hparts, heq, hfit⟩
    have halike := (compares_flatten hcodec hliterals htyped hparts).2 (congrArg List.length heq)
    obtain ⟨_, hlen⟩ := parts_of_encodedAlike hcodec hliterals htyped halike
    exact ⟨halike, hlen ▸ hfit⟩
  · rintro ⟨halike, hfit⟩
    obtain ⟨hparts, hlen⟩ := parts_of_encodedAlike hcodec hliterals htyped halike
    exact ⟨constants, hparts, rfl, hlen ▸ hfit⟩

end Both

/-! ## Sample arguments -/

namespace Sample

/-- A codec that is SCALE -/
def scale : Codec := ⟨fun data => scaleCompact data.length ++ data, toLittleEndian 32⟩

theorem scale_lawful : scale.Scale := ⟨fun _ _ => rfl, fun _ _ => rfl⟩

/-- The data of `Error("a")` -/
def errorArguments : List Argument :=
  [.numberLiteral (.elementary (.bytes 4)) 0x08c379a0, .allocDynamicBytes .string 1 (some [97])]

theorem errorArguments_wellTyped : ∀ arg ∈ errorArguments, arg.WellTyped :=
  List.forall_mem_cons.mpr ⟨⟨by decide, by decide⟩,
    List.forall_mem_cons.mpr ⟨⟨rfl, by decide⟩, List.forall_mem_nil _⟩⟩

theorem errorArguments_encodedAlike : ∀ arg ∈ errorArguments, EncodedAlike false arg :=
  List.forall_mem_cons.mpr ⟨trivial, List.forall_mem_cons.mpr ⟨⟨rfl, by decide⟩, List.forall_mem_nil _⟩⟩

theorem constEncode_agrees_error : abiEncode polkadot false (fun _ _ _ => 0) errorArguments =
    some [0x08, 0xc3, 0x79, 0xa0, 4, 97] :=
  (constEncode_agrees_iff scale_lawful errorArguments_wellTyped rfl).mpr
    ⟨errorArguments_encodedAlike, by decide⟩

def sliceArguments : List Argument := [.allocDynamicBytes (.slice (.elementary (.bytes 1))) 1 (some [97])]

/-- A slice of one byte: no prefix at compile time, and one at run time -/
theorem slice_is_prefixed : ¬ ∀ (codec : Codec) (ns : Namespace) (mem : AbiType → Value → Nat → UInt8)
    (args : List Argument) (bytes : List UInt8), codec.Scale → (∀ arg ∈ args, arg.WellTyped) →
      constEncode codec ns args = some bytes → abiEncode ns false mem args = some bytes := by
  intro hall
  have htyped : ∀ arg ∈ sliceArguments, arg.WellTyped :=
    List.forall_mem_cons.mpr ⟨⟨rfl, by decide⟩, List.forall_mem_nil _⟩
  have h := hall scale polkadot (fun _ _ _ => 0) sliceArguments [97] scale_lawful htyped rfl
  exact absurd h (by decide)

end Sample

end Solang.Codegen.Encoding
