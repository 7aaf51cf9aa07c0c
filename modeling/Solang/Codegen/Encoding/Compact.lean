import Solang.Codegen.Encoding.LittleEndian

/-!
# Compact integers

`encode_compact` writes a length in one, two or four bytes, and `decode_compact` reads it back.
The first byte is read before it is known how many follow, and nothing is compared with the
length of the buffer: the reads are inside the buffer exactly when it is long enough for what
its first byte asks for.
-/

namespace Solang.Codegen.Encoding

open Writer Traced

/-! ## Bytes of the buffer -/

theorem Buffer.slice_succ (buf : Buffer) (offset size : Nat) :
    buf.slice offset (size + 1) = buf.byte offset :: buf.slice (offset + 1) size := by
  unfold Buffer.slice
  rw [List.range_succ_eq_map, List.map_cons, List.map_map]
  congr 1
  apply List.map_congr_left
  intro i _
  show buf.byte (offset + (i + 1)) = buf.byte (offset + 1 + i)
  congr 1
  omega

theorem littleEndian_first (buf : Buffer) (offset size : Nat) :
    littleEndian (buf.slice offset 1) = littleEndian (buf.slice offset (size + 1)) % 256 := by
  have hbyte := (buf.byte offset).toNat_lt
  rw [Buffer.slice_succ, Buffer.slice_succ]
  show (buf.byte offset).toNat + 256 * 0 = _
  rw [littleEndian]
  omega

/-! ## The three modes -/

/-- The bytes that a length takes -/
def compactWidth (n : Nat) : Nat := if n < 2 ^ 6 then 1 else if n < 2 ^ 14 then 2 else 4

/-- The integer that is written, with the mode in its lowest bits -/
def compactWord (n : Nat) : Nat := 4 * n + compactWidth n / 2

theorem or_mode (n mode : Nat) (h : mode < 4) : n * 4 ||| mode = 4 * n + mode := by
  have := Nat.shiftLeft_add_eq_or_of_lt (i := 2) h n
  rw [Nat.shiftLeft_eq, show 2 ^ 2 = 4 from rfl] at this
  omega

theorem u32_eq {n : Nat} (h : n < 2 ^ 32) : u32 n = pure n := by
  unfold u32 Traced.require
  rw [if_pos h]
  rfl

theorem encodeCompact_eq (n offset : Nat) (h : n < 2 ^ 30) : encodeCompact n (some offset) =
    ⟨[⟨offset, toLittleEndian (compactWidth n) (compactWord n)⟩], some (compactWidth n)⟩ := by
  unfold encodeCompact compactWord compactWidth
  rw [if_neg (by omega), u32_eq (by omega)]
  by_cases hsmall : n < 2 ^ 6
  · rw [if_neg (by omega), if_pos hsmall, Nat.mul_comm]
    rfl
  · rw [if_pos (by omega), if_neg hsmall]
    by_cases hmedium : n < 2 ^ 14
    · rw [if_neg (by omega), if_pos hmedium, ← or_mode n 1 (by omega)]
      rfl
    · rw [if_pos (by omega), if_neg hmedium, ← or_mode n 2 (by omega)]
      rfl

theorem encodeCompact_none (n : Nat) (h : n < 2 ^ 30) :
    encodeCompact n none = pure (compactWidth n) := by
  unfold encodeCompact compactWidth
  rw [if_neg (by omega), u32_eq (by omega)]
  by_cases hsmall : n < 2 ^ 6
  · rw [if_neg (by omega), if_pos hsmall]
    rfl
  · rw [if_pos (by omega), if_neg hsmall]
    by_cases hmedium : n < 2 ^ 14
    · rw [if_neg (by omega), if_pos hmedium]
      rfl
    · rw [if_pos (by omega), if_neg hmedium]
      rfl

theorem encodeCompact_abort (n : Nat) (offset : Option Nat) (h : 2 ^ 30 ≤ n) :
    encodeCompact n offset = Traced.abort := by
  unfold encodeCompact
  exact if_pos (by omega)

/-! ## Reading back -/

/-- The bytes that the length at `offset` takes, as its first byte has them: `none` for lengths
that are not supported -/
def compactReach (buf : Buffer) (offset : Nat) : Option Nat :=
  match (buf.byte offset).toNat % 4 with
  | 0 => some 1
  | 1 => some 2
  | 2 => some 4
  | _ => none

theorem decodeCompact_eq (buf : Buffer) (offset : Nat) : decodeCompact buf offset =
    match compactReach buf offset with
    | some width =>
      ⟨⟨.length, offset, 1⟩ :: if width = 1 then [] else [⟨.length, offset, width⟩],
        some (littleEndian (buf.slice offset width) / 4, width)⟩
    | none => ⟨[⟨.length, offset, 1⟩], none⟩ := by
  have hfirst : littleEndian (buf.slice offset 1) = (buf.byte offset).toNat := by
    rw [Buffer.slice_succ]
    rfl
  unfold decodeCompact compactReach
  show Traced.bind _ _ = _
  unfold Code.read Traced.emit Traced.bind
  simp only
  rw [hfirst]
  have hmod : (buf.byte offset).toNat % 4 < 4 := Nat.mod_lt _ (by decide)
  generalize (buf.byte offset).toNat % 4 = mode at hmod
  interval_cases mode
  · rw [← hfirst]
    rfl
  all_goals rfl

/-- A buffer that starts with an encoded length at this offset -/
theorem decodeCompact_encoded (n : Nat) (buf : Buffer) (offset : Nat) (h : n < 2 ^ 30)
    (hbuf : buf.slice offset (compactWidth n) = toLittleEndian (compactWidth n) (compactWord n)) :
    (decodeCompact buf offset).result = some (n, compactWidth n) := by
  have hword := congrArg littleEndian hbuf
  rw [littleEndian_toLittleEndian] at hword
  have hmode : ∀ width, compactWidth n = width + 1 →
      (buf.byte offset).toNat % 4 = compactWord n % 256 ^ (width + 1) % 4 := by
    intro width hw
    have hfirst := littleEndian_first buf offset width
    rw [← hw, hword] at hfirst
    have hbyte : littleEndian (buf.slice offset 1) = (buf.byte offset).toNat := by
      rw [Buffer.slice_succ]
      rfl
    rw [← hbyte, hfirst, ← hw]
    omega
  rw [decodeCompact_eq]
  unfold compactReach
  unfold compactWord compactWidth at *
  by_cases hsmall : n < 2 ^ 6
  · simp only [if_pos hsmall] at *
    rw [hmode 0 rfl, show (4 * n + 1 / 2) % 256 ^ (0 + 1) % 4 = 0 by omega]
    simp only [hword]
    congr 2
    omega
  · simp only [if_neg hsmall] at *
    by_cases hmedium : n < 2 ^ 14
    · simp only [if_pos hmedium] at *
      rw [hmode 1 rfl, show (4 * n + 2 / 2) % 256 ^ (1 + 1) % 4 = 1 by omega]
      simp only [hword]
      congr 2
      omega
    · simp only [if_neg hmedium] at *
      rw [hmode 3 rfl, show (4 * n + 4 / 2) % 256 ^ (3 + 1) % 4 = 2 by omega]
      simp only [hword]
      congr 2
      omega

/-- What is asked of compact integers: a length below `2 ^ 30` is written in as many bytes as
`size_width` says and read back from them, a larger one is refused, and a length that is read is
inside the buffer. -/
structure CompactCorrect (ns : Namespace) (n : Nat) (buf : Buffer) (offset : Nat) : Prop where
  encodes : n < 2 ^ 30 → ∃ width bytes,
    encodeCompact n (some offset) = ⟨[⟨offset, bytes⟩], some width⟩ ∧ bytes.length = width ∧
    width ∈ [1, 2, 4] ∧ (sizeWidth { ns with target := .polkadot } n).result = some width ∧
    (buf.slice offset width = bytes → (decodeCompact buf offset).result = some (n, width))
  refuses : 2 ^ 30 ≤ n → encodeCompact n (some offset) = Traced.abort ∧
    sizeWidth { ns with target := .polkadot } n = Traced.abort
  inside : (decodeCompact buf offset).result = none ∨
    ∀ a ∈ (decodeCompact buf offset).trace, a.Inside buf.length

theorem decodeCompact_inside_iff (buf : Buffer) (offset : Nat) :
    ((decodeCompact buf offset).result = none ∨
      ∀ a ∈ (decodeCompact buf offset).trace, a.Inside buf.length) ↔
    ∀ width, compactReach buf offset = some width → offset + width ≤ buf.length := by
  rw [decodeCompact_eq]
  cases hreach : compactReach buf offset with
  | none => simp
  | some width =>
    have hwidth : 1 ≤ width := by
      unfold compactReach at hreach
      split at hreach <;> cases hreach <;> omega
    by_cases h1 : width = 1
    · subst h1
      simp [Access.Inside]
    · simp only [if_neg h1, Access.Inside, reduceCtorEq, false_or, List.mem_cons,
        List.not_mem_nil, or_false, forall_eq_or_imp, forall_eq, Option.some.injEq, forall_eq']
      omega

/-- Compact integers are correct, exactly when the buffer that is read has the bytes that its
first one asks for. -/
theorem compact_correct_iff (ns : Namespace) (n : Nat) (buf : Buffer) (offset : Nat) :
    CompactCorrect ns n buf offset ↔
      ∀ width, compactReach buf offset = some width → offset + width ≤ buf.length := by
  constructor
  · intro hc
    exact (decodeCompact_inside_iff buf offset).mp hc.inside
  · intro hfits
    refine ⟨fun hn => ?_, fun hn => ?_, (decodeCompact_inside_iff buf offset).mpr hfits⟩
    · refine ⟨_, _, encodeCompact_eq n offset hn, length_toLittleEndian _ _, ?_, ?_,
        decodeCompact_encoded n buf offset hn⟩
      · unfold compactWidth
        split_ifs <;> simp
      · show (encodeCompact n none).result = _
        rw [encodeCompact_none n hn]
        rfl
    · exact ⟨encodeCompact_abort n _ hn, encodeCompact_abort n none hn⟩

/-- The empty buffer, in front of a memory of zeros -/
def Sample.emptyBuffer : Buffer := Buffer.ofBytes [] (by decide)

theorem Sample.empty_buffer_is_read : ¬ ∀ (ns : Namespace) n buf offset,
    CompactCorrect ns n buf offset := by
  intro hall
  have hfits := (decodeCompact_inside_iff emptyBuffer 0).mp
    (hall ⟨.polkadot, 32, 16⟩ 0 emptyBuffer 0).inside
  exact absurd (hfits 1 rfl) (by decide)

end Solang.Codegen.Encoding
