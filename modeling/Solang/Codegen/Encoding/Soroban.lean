import Solang.Emit.SorobanStorage

/-!
# Integers as Soroban values

`codegen/encoding/soroban_encoding.rs`: an argument or a result of a call is a word of 64 bits,
a value with a tag in its low byte. An integer that is narrow enough sits in the word itself,
above the tag. The others are objects of the host, made from their words of 64 bits. The
functions of this module are the code that is generated; `none` is an addition that was found
to overflow.
-/

namespace Solang.Codegen.Soroban

open Solang.Emit.Soroban (Val objectTag)

/-- The integers that are encoded; sema rounds every other width up to one of these. -/
inductive IntTy where
  | uint32
  | int32
  | uint64
  | int64
  | uint128
  | int128
  | uint256
  | int256
deriving DecidableEq, Repr

@[reducible] def IntTy.bits : IntTy → Nat
  | .uint32 | .int32 => 32
  | .uint64 | .int64 => 64
  | .uint128 | .int128 => 128
  | .uint256 | .int256 => 256

/-- The tag of an integer that is not an object -/
def IntTy.tag : IntTy → Nat
  | .uint32 => 4
  | .int32 => 5
  | .uint64 => 6
  | .int64 => 7
  | .uint128 => 10
  | .int128 => 11
  | .uint256 => 12
  | .int256 => 13

/-- `HostFunctions`, those for large integers: `ObjFromI128Pieces` if signed and
`ObjFromU128Pieces` if not, and so on -/
structure Host (σ : Type) where
  objFrom128Pieces (signed : Bool) (hi lo : BitVec 64) : σ → Val × σ
  objTo128Lo64 (signed : Bool) (obj : Val) : σ → BitVec 64
  objTo128Hi64 (signed : Bool) (obj : Val) : σ → BitVec 64
  objFrom256Pieces (signed : Bool) (hiHi hiLo loHi loLo : BitVec 64) : σ → Val × σ
  objTo256LoLo (signed : Bool) (obj : Val) : σ → BitVec 64
  objTo256LoHi (signed : Bool) (obj : Val) : σ → BitVec 64
  objTo256HiLo (signed : Bool) (obj : Val) : σ → BitVec 64
  objTo256HiHi (signed : Bool) (obj : Val) : σ → BitVec 64

/-- `Add` that is not `overflowing` -/
def add {w : Nat} (signed : Bool) (a b : BitVec w) : Option (BitVec w) :=
  if (if signed then a.saddOverflow b else a.uaddOverflow b) then none else some (a + b)

/-- `extract_tag` -/
def extractTag (arg : Val) : Val := arg &&& 0xff

section Code

variable {σ : Type} (h : Host σ)

/-- `encode_i128` -/
def encodeI128 (signed : Bool) (lo high : BitVec 64) (s : σ) : Option (Val × σ) :=
  let high8Bits := lo >>> 56
  if high8Bits = 0 then do
    let ret ← add false (lo <<< 8) (if signed then 11 else 10)
    some (ret, s)
  else some (h.objFrom128Pieces signed high lo s)

/-- `encode_i256` -/
def encodeI256 (signed : Bool) (loLo loHi hiLo hiHi : BitVec 64) (s : σ) : Option (Val × σ) :=
  some (h.objFrom256Pieces signed hiHi hiLo loHi loLo s)

/-- `decode_i128` -/
def decodeI128 (signed : Bool) (arg : Val) (s : σ) : Option (BitVec 128) :=
  let predicate := if signed then 11 else 10
  if extractTag arg = predicate then some ((arg >>> 8).setWidth 128)
  else
    let low := (h.objTo128Lo64 signed arg s).setWidth 128
    let total := (h.objTo128Hi64 signed arg s).setWidth 128 <<< 64
    add signed total low

/-- `decode_i256` -/
def decodeI256 (signed : Bool) (arg : Val) (s : σ) : Option (BitVec 256) := do
  let combined := (h.objTo256HiHi signed arg s).setWidth 256
  let combined ← add signed (combined <<< 64) ((h.objTo256HiLo signed arg s).setWidth 256)
  let combined ← add signed (combined <<< 64) ((h.objTo256LoHi signed arg s).setWidth 256)
  add signed (combined <<< 64) ((h.objTo256LoLo signed arg s).setWidth 256)

/-- `soroban_encode_arg`, for integers -/
def sorobanEncodeArg : (ty : IntTy) → BitVec ty.bits → σ → Option (Val × σ)
  | .uint32, item, s => do
    let obj ← add false (item.setWidth 64 <<< 32) 4
    some (obj, s)
  | .int32, item, s => do
    let obj ← add false (item.signExtend 64 <<< 32) 5
    some (obj, s)
  | .uint64, item, s => do
    let obj ← add false (item <<< 8) 6
    some (obj, s)
  | .int64, item, s => do
    let obj ← add false (item <<< 8) 7
    some (obj, s)
  | .uint128, item, s => encodeI128 h false (item.setWidth 64) ((item >>> 64).setWidth 64) s
  | .int128, item, s => encodeI128 h true (item.setWidth 64) ((item >>> 64).setWidth 64) s
  | .uint256, item, s =>
    encodeI256 h false (item.setWidth 64) ((item >>> 64).setWidth 64)
      ((item >>> 128).setWidth 64) ((item >>> 192).setWidth 64) s
  | .int256, item, s =>
    encodeI256 h true (item.setWidth 64) ((item.sshiftRight 64).setWidth 64)
      ((item.sshiftRight 128).setWidth 64) ((item.sshiftRight 192).setWidth 64) s

/-- `soroban_decode_arg`, for integers -/
def sorobanDecodeArg : (ty : IntTy) → Val → σ → Option (BitVec ty.bits)
  | .uint32, arg, _ => some ((arg >>> 32).setWidth 32)
  | .int32, arg, _ => some ((arg.sshiftRight 32).setWidth 32)
  | .uint64, arg, _ => some (arg >>> 8)
  | .int64, arg, _ => some (arg.sshiftRight 8)
  | .uint128, arg, s => decodeI128 h false arg s
  | .int128, arg, s => decodeI128 h true arg s
  | .uint256, arg, s => decodeI256 h false arg s
  | .int256, arg, s => decodeI256 h true arg s

end Code

/-! ## Words above a tag -/

variable {w k : Nat}

theorem toNat_shiftLeft_eq (x : BitVec w) (hk : k ≤ w) :
    (x <<< k).toNat = x.toNat % 2 ^ (w - k) * 2 ^ k := by
  have hw : 2 ^ w = 2 ^ (w - k) * 2 ^ k := by
    rw [← Nat.pow_add]
    congr 1
    omega
  rw [BitVec.toNat_shiftLeft, Nat.shiftLeft_eq, hw, Nat.mul_mod_mul_right]

/-- What is added below the shifted bits stays below them. -/
theorem shifted_add_lt (x t : BitVec w) (hk : k ≤ w) (ht : t.toNat < 2 ^ k) :
    x.toNat % 2 ^ (w - k) * 2 ^ k + t.toNat < 2 ^ w := by
  have hm : x.toNat % 2 ^ (w - k) + 1 ≤ 2 ^ (w - k) := Nat.mod_lt _ (Nat.two_pow_pos _)
  have hw : 2 ^ w = 2 ^ (w - k) * 2 ^ k := by
    rw [← Nat.pow_add]
    congr 1
    omega
  have := Nat.mul_le_mul_right (2 ^ k) hm
  rw [← hw, Nat.add_mul] at this
  omega

theorem toNat_shifted_add (x t : BitVec w) (hk : k ≤ w) (ht : t.toNat < 2 ^ k) :
    (x <<< k + t).toNat = x.toNat % 2 ^ (w - k) * 2 ^ k + t.toNat := by
  rw [BitVec.toNat_add, toNat_shiftLeft_eq x hk, Nat.mod_eq_of_lt (shifted_add_lt x t hk ht)]

theorem not_uaddOverflow (x t : BitVec w) (hk : k ≤ w) (ht : t.toNat < 2 ^ k) :
    (x <<< k).uaddOverflow t = false := by
  have := shifted_add_lt x t hk ht
  rw [BitVec.uaddOverflow, toNat_shiftLeft_eq x hk]
  exact decide_eq_false (by omega)

/-- With a sign: the two have no common bits, so the sum has the sign of the shifted one. -/
theorem not_saddOverflow (x t : BitVec w) (hk : k < w) (ht : t.toNat < 2 ^ k) :
    (x <<< k).saddOverflow t = false := by
  have hw : 2 ^ w = 2 * 2 ^ (w - 1) := by
    rw [← Nat.pow_succ']
    congr 1
    omega
  have hhalf : 2 ^ (w - 1) = 2 ^ (w - 1 - k) * 2 ^ k := by
    rw [← Nat.pow_add]
    congr 1
    omega
  have hkw : 2 ^ k ≤ 2 ^ (w - 1) := Nat.pow_le_pow_right (by omega) (by omega)
  have htop : (2 ^ (w - 1) : Int) = ((2 ^ (w - 1) : Nat) : Int) := by push_cast; rfl
  have hlt := shifted_add_lt x t (by omega) ht
  have ht' : t.toInt = t.toNat := by
    rw [BitVec.toInt_eq_toNat_cond]
    exact if_pos (by omega)
  have hx := toNat_shiftLeft_eq x (Nat.le_of_lt hk)
  rw [BitVec.saddOverflow, ht', BitVec.toInt_eq_toNat_cond, hx, htop]
  generalize x.toNat % 2 ^ (w - k) = m at *
  by_cases hneg : 2 * (m * 2 ^ k) < 2 ^ w
  · rw [if_pos hneg]
    have hm : m < 2 ^ (w - 1 - k) := by
      apply Nat.lt_of_mul_lt_mul_right (a := 2 ^ k)
      omega
    have := Nat.mul_le_mul_right (2 ^ k) (Nat.succ_le_of_lt hm)
    rw [← hhalf, Nat.succ_mul] at this
    simp only [Bool.or_eq_false_iff, decide_eq_false_iff_not]
    omega
  · rw [if_neg hneg]
    simp only [Bool.or_eq_false_iff, decide_eq_false_iff_not]
    omega

theorem toNat_shifted_shiftRight (x t : BitVec w) (hk : k ≤ w) (ht : t.toNat < 2 ^ k) :
    ((x <<< k + t) >>> k).toNat = x.toNat % 2 ^ (w - k) := by
  rw [BitVec.toNat_ushiftRight, Nat.shiftRight_eq_div_pow, toNat_shifted_add x t hk ht,
    Nat.add_comm, Nat.add_mul_div_right _ _ (Nat.two_pow_pos k), Nat.div_eq_of_lt ht, Nat.zero_add]

/-- The bits that are shifted in are cut off again. -/
theorem setWidth_sshiftRight {n : Nat} (x : BitVec w) (hn : k + n ≤ w) :
    (x.sshiftRight k).setWidth n = (x >>> k).setWidth n := by
  apply BitVec.eq_of_getLsbD_eq
  intro i hi
  simp only [BitVec.getLsbD_setWidth, BitVec.getLsbD_sshiftRight, BitVec.getLsbD_ushiftRight]
  rw [if_pos (by omega)]
  have hi' : ¬ w ≤ i := by omega
  simp [hi']

theorem add_shifted (signed : Bool) (x t : BitVec w) (hk : k < w) (ht : t.toNat < 2 ^ k) :
    add signed (x <<< k) t = some (x <<< k + t) := by
  unfold add
  cases signed with
  | false => simp [not_uaddOverflow x t (Nat.le_of_lt hk) ht]
  | true => simp [not_saddOverflow x t hk ht]

/-! ## Integers of one word -/

/-- The values that are left whole by the shift above the tag -/
def FitsWord : (ty : IntTy) → BitVec ty.bits → Prop
  | .uint64, v => v.toNat < 2 ^ 56
  | .int64, v => -2 ^ 55 ≤ v.toInt ∧ v.toInt < 2 ^ 55
  | _, _ => True

section Words

variable {σ : Type} (h : Host σ)

/-- The argument is encoded under the tag of its type, and is decoded from that value. -/
def RoundTrips (ty : IntTy) (v : BitVec ty.bits) (s : σ) : Prop :=
  ∃ val s', sorobanEncodeArg h ty v s = some (val, s') ∧ val.tag = ty.tag ∧
    sorobanDecodeArg h ty val s' = some v

theorem tag_shifted (x t : BitVec 64) (hk : 8 ≤ k) (hk' : k < 64) (ht : t.toNat < 256) :
    Solang.Emit.Soroban.Val.tag (x <<< k + t) = t.toNat := by
  have ht' : t.toNat < 2 ^ k := Nat.lt_of_lt_of_le ht (Nat.pow_le_pow_right Nat.two_pos hk)
  have hk2 : 2 ^ k = 2 ^ (k - 8) * 256 := by
    rw [show (256 : Nat) = 2 ^ 8 from rfl, ← Nat.pow_add]
    congr 1
    omega
  unfold Solang.Emit.Soroban.Val.tag
  rw [toNat_shifted_add x t (by omega) ht', hk2, ← Nat.mul_assoc, Nat.mul_add_mod_self_right]
  exact Nat.mod_eq_of_lt ht

theorem roundTrips_iff_decodes {ty : IntTy} {v : BitVec ty.bits} {s : σ} (x t : BitVec 64)
    (hk : 8 ≤ k) (hk' : k < 64) (ht : t.toNat < 256) (htag : t.toNat = ty.tag)
    (henc : sorobanEncodeArg h ty v s = (do
      let obj ← add false (x <<< k) t
      some (obj, s))) :
    RoundTrips h ty v s ↔ sorobanDecodeArg h ty (x <<< k + t) s = some v := by
  have ht' : t.toNat < 2 ^ k := Nat.lt_of_lt_of_le ht (Nat.pow_le_pow_right Nat.two_pos hk)
  rw [add_shifted false x t hk' ht'] at henc
  have henc : sorobanEncodeArg h ty v s = some (x <<< k + t, s) := henc
  constructor
  · rintro ⟨val, s', he, _, hd⟩
    rw [henc] at he
    cases he
    exact hd
  · intro hd
    refine ⟨_, _, henc, ?_, hd⟩
    rw [tag_shifted x t hk hk' ht, htag]

theorem roundTrips_uint32 (v : BitVec 32) (s : σ) : RoundTrips h .uint32 v s := by
  rw [roundTrips_iff_decodes h (v.setWidth 64) 4 (by omega : 8 ≤ 32) (by omega) (by decide) rfl
    (by rw [sorobanEncodeArg])]
  rw [sorobanDecodeArg, Option.some_inj]
  apply BitVec.eq_of_toNat_eq
  rw [BitVec.toNat_setWidth, toNat_shifted_shiftRight _ _ (by omega) (by decide),
    BitVec.toNat_setWidth]
  have := v.isLt
  omega

theorem roundTrips_int32 (v : BitVec 32) (s : σ) : RoundTrips h .int32 v s := by
  rw [roundTrips_iff_decodes h (v.signExtend 64) 5 (by omega : 8 ≤ 32) (by omega) (by decide) rfl
    (by rw [sorobanEncodeArg])]
  rw [sorobanDecodeArg, Option.some_inj]
  have hv : (v.signExtend 64).setWidth 32 = v := by
    apply BitVec.eq_of_getLsbD_eq
    intro i hi
    rw [BitVec.getLsbD_setWidth, BitVec.getLsbD_signExtend, if_pos hi]
    simp [hi, show i < 64 by omega]
  rw [setWidth_sshiftRight _ (by omega)]
  apply BitVec.eq_of_toNat_eq
  rw [BitVec.toNat_setWidth, toNat_shifted_shiftRight _ _ (by omega) (by decide)]
  have hv' := congrArg BitVec.toNat hv
  rw [BitVec.toNat_setWidth] at hv'
  omega

/-- The eight bits above the value are lost. -/
theorem roundTrips_uint64 (v : BitVec 64) (s : σ) :
    RoundTrips h .uint64 v s ↔ v.toNat < 2 ^ 56 := by
  rw [roundTrips_iff_decodes h v 6 (by omega : 8 ≤ 8) (by omega) (by decide) rfl
    (by rw [sorobanEncodeArg])]
  rw [sorobanDecodeArg, Option.some_inj, ← BitVec.toNat_inj, toNat_shifted_shiftRight _ _ (by omega) (by decide)]
  omega

theorem roundTrips_int64 (v : BitVec 64) (s : σ) :
    RoundTrips h .int64 v s ↔ -2 ^ 55 ≤ v.toInt ∧ v.toInt < 2 ^ 55 := by
  rw [roundTrips_iff_decodes h v 7 (by omega : 8 ≤ 8) (by omega) (by decide) rfl
    (by rw [sorobanEncodeArg])]
  have hsum := toNat_shifted_add v 7 (by omega : 8 ≤ 64) (by decide)
  have h7 : (7 : BitVec 64).toNat = 7 := rfl
  have hv := v.isLt
  rw [sorobanDecodeArg, Option.some_inj, ← BitVec.toInt_inj, BitVec.toInt_sshiftRight, Int.shiftRight_eq_div_pow]
  rw [BitVec.toInt_eq_toNat_cond, BitVec.toInt_eq_toNat_cond, hsum, h7]
  split_ifs <;> omega

/-- An integer of up to 64 bits is encoded under the tag of its type and decoded to itself,
exactly when it fits beside the tag. -/
theorem word_round_trips_iff (ty : IntTy) (hty : ty ∈ [IntTy.uint32, .int32, .uint64, .int64])
    (v : BitVec ty.bits) (s : σ) : RoundTrips h ty v s ↔ FitsWord ty v := by
  simp only [List.mem_cons, List.not_mem_nil, or_false] at hty
  rcases hty with rfl | rfl | rfl | rfl
  · exact iff_of_true (roundTrips_uint32 h v s) trivial
  · exact iff_of_true (roundTrips_int32 h v s) trivial
  · exact roundTrips_uint64 h v s
  · exact roundTrips_int64 h v s

end Words

namespace Sample

/-- A host that has one object: its words, the lowest first -/
def host : Host (List (BitVec 64)) where
  objFrom128Pieces signed hi lo _ := (if signed then 69 else 68, [lo, hi])
  objTo128Lo64 _ _ s := s.getD 0 0
  objTo128Hi64 _ _ s := s.getD 1 0
  objFrom256Pieces signed hiHi hiLo loHi loLo _ :=
    (if signed then 71 else 70, [loLo, loHi, hiLo, hiHi])
  objTo256LoLo _ _ s := s.getD 0 0
  objTo256LoHi _ _ s := s.getD 1 0
  objTo256HiLo _ _ s := s.getD 2 0
  objTo256HiHi _ _ s := s.getD 3 0

theorem minus_one_round_trips : RoundTrips host .int64 (-1) [] :=
  (word_round_trips_iff host .int64 (by decide) (-1) []).mpr (by
    show -2 ^ 55 ≤ (-1 : BitVec 64).toInt ∧ (-1 : BitVec 64).toInt < 2 ^ 55
    decide)

/-- `2 ** 56` is the least integer without a sign that does not fit: it comes back as zero. -/
theorem wide_uint64_is_lost :
    ¬ ∀ ty ∈ [IntTy.uint32, .int32, .uint64, .int64], ∀ (v : BitVec ty.bits) s,
      RoundTrips host ty v s := by
  intro hall
  have hfits := (roundTrips_uint64 host (BitVec.ofNat 64 (2 ^ 56)) []).mp
    (hall .uint64 (by decide) _ _)
  exact absurd hfits (by decide)

end Sample

/-! ## Integers of two and four words -/

/-- What the host promises: an object has the tag of an object, and the pieces that it was made
of. -/
structure Host.Lawful {σ : Type} (h : Host σ) : Prop where
  tag_128 : ∀ signed hi lo s, objectTag ≤ (h.objFrom128Pieces signed hi lo s).1.tag
  lo64 : ∀ signed hi lo s, let (v, s') := h.objFrom128Pieces signed hi lo s
    h.objTo128Lo64 signed v s' = lo
  hi64 : ∀ signed hi lo s, let (v, s') := h.objFrom128Pieces signed hi lo s
    h.objTo128Hi64 signed v s' = hi
  loLo : ∀ signed hiHi hiLo loHi loLo s,
    let (v, s') := h.objFrom256Pieces signed hiHi hiLo loHi loLo s
    h.objTo256LoLo signed v s' = loLo
  loHi : ∀ signed hiHi hiLo loHi loLo s,
    let (v, s') := h.objFrom256Pieces signed hiHi hiLo loHi loLo s
    h.objTo256LoHi signed v s' = loHi
  hiLo : ∀ signed hiHi hiLo loHi loLo s,
    let (v, s') := h.objFrom256Pieces signed hiHi hiLo loHi loLo s
    h.objTo256HiLo signed v s' = hiLo
  hiHi : ∀ signed hiHi hiLo loHi loLo s,
    let (v, s') := h.objFrom256Pieces signed hiHi hiLo loHi loLo s
    h.objTo256HiHi signed v s' = hiHi

section Large

variable {σ : Type} (h : Host σ)

/-- The argument is encoded, and is decoded from that value. -/
def DecodesBack (ty : IntTy) (v : BitVec ty.bits) (s : σ) : Prop :=
  ∃ val s', sorobanEncodeArg h ty v s = some (val, s') ∧ sorobanDecodeArg h ty val s' = some v

/-- The test for the short form reads the low word only. -/
theorem high8Bits_eq_zero_iff (lo : BitVec 64) : lo >>> 56 = 0 ↔ lo.toNat < 2 ^ 56 := by
  rw [← BitVec.toNat_inj, BitVec.toNat_ushiftRight, Nat.shiftRight_eq_div_pow]
  show lo.toNat / 2 ^ 56 = 0 ↔ _
  omega

theorem extractTag_toNat (v : Val) : (extractTag v).toNat = v.tag := by
  unfold extractTag Solang.Emit.Soroban.Val.tag
  rw [BitVec.toNat_and]
  exact Nat.and_two_pow_sub_one_eq_mod v.toNat 8

/-- A word below the ones that are there already -/
theorem join_word (v : BitVec w) (k : Nat) (hw : 64 < w) :
    (v >>> (k + 64)) <<< 64 + ((v >>> k).setWidth 64).setWidth w = v >>> k := by
  apply BitVec.eq_of_toNat_eq
  have hlow : (((v >>> k).setWidth 64).setWidth w).toNat = (v >>> k).toNat % 2 ^ 64 := by
    rw [BitVec.toNat_setWidth, BitVec.toNat_setWidth]
    apply Nat.mod_eq_of_lt
    exact Nat.lt_of_lt_of_le (Nat.mod_lt _ (Nat.two_pow_pos _))
      (Nat.pow_le_pow_right Nat.two_pos (Nat.le_of_lt hw))
  have hhigh : (v >>> (k + 64)).toNat = (v >>> k).toNat / 2 ^ 64 := by
    simp only [BitVec.toNat_ushiftRight, Nat.shiftRight_eq_div_pow]
    rw [Nat.pow_add, Nat.div_div_eq_div_mul]
  have hlt : (v >>> k).toNat / 2 ^ 64 < 2 ^ (w - 64) := by
    apply Nat.div_lt_of_lt_mul
    rw [← Nat.pow_add, show 64 + (w - 64) = w by omega]
    exact (v >>> k).isLt
  rw [toNat_shifted_add _ _ (Nat.le_of_lt hw), hlow, hhigh, Nat.mod_eq_of_lt hlt]
  · exact Nat.div_add_mod' _ _
  · rw [hlow]
    exact Nat.mod_lt _ (Nat.two_pow_pos _)

/-- `Add` that puts a word below the ones that are there already -/
theorem add_word (signed : Bool) (v : BitVec w) (k : Nat) (hw : 64 < w) :
    add signed ((v >>> (k + 64)) <<< 64) (((v >>> k).setWidth 64).setWidth w) = some (v >>> k) := by
  rw [add_shifted signed _ _ hw, join_word v k hw]
  rw [BitVec.toNat_setWidth]
  exact Nat.lt_of_le_of_lt (Nat.mod_le _ _) (BitVec.isLt _)

theorem top_word (v : BitVec w) (k : Nat) (hk : w ≤ k + 64) :
    ((v >>> k).setWidth 64).setWidth w = v >>> k := by
  apply BitVec.eq_of_toNat_eq
  have hlt : (v >>> k).toNat < 2 ^ 64 := by
    rw [BitVec.toNat_ushiftRight, Nat.shiftRight_eq_div_pow]
    apply Nat.div_lt_of_lt_mul
    rw [← Nat.pow_add]
    exact Nat.lt_of_lt_of_le v.isLt (Nat.pow_le_pow_right Nat.two_pos hk)
  rw [BitVec.toNat_setWidth, BitVec.toNat_setWidth, Nat.mod_eq_of_lt hlt]
  exact Nat.mod_eq_of_lt (v >>> k).isLt

variable {h}

/-- An object of two words is decoded to the words that it was made of. -/
theorem decodeI128_object (hh : h.Lawful) (signed : Bool) (v : BitVec 128) (s : σ) :
    let (val, s') := h.objFrom128Pieces signed ((v >>> 64).setWidth 64) (v.setWidth 64) s
    decodeI128 h signed val s' = some v := by
  have htag := hh.tag_128 signed ((v >>> 64).setWidth 64) (v.setWidth 64) s
  have hlo := hh.lo64 signed ((v >>> 64).setWidth 64) (v.setWidth 64) s
  have hhi := hh.hi64 signed ((v >>> 64).setWidth 64) (v.setWidth 64) s
  generalize h.objFrom128Pieces signed ((v >>> 64).setWidth 64) (v.setWidth 64) s = r at *
  obtain ⟨val, s'⟩ := r
  have hne : ¬ extractTag val = if signed then 11 else 10 := by
    intro he
    have he := congrArg BitVec.toNat he
    rw [extractTag_toNat] at he
    have htag : 64 ≤ val.tag := htag
    cases signed <;> simp at he <;> omega
  show decodeI128 h signed val s' = some v
  unfold decodeI128
  simp only
  rw [if_neg hne, hlo, hhi, top_word v 64 (by omega)]
  have := add_word signed v 0 (by omega)
  rwa [BitVec.ushiftRight_zero] at this

/-- The short form is decoded to the low word. -/
theorem decodeI128_short (signed : Bool) (lo : BitVec 64) (hlo : lo.toNat < 2 ^ 56) (s : σ) :
    decodeI128 h signed (lo <<< 8 + if signed then 11 else 10) s = some (lo.setWidth 128) := by
  have ht : (if signed then 11 else 10 : BitVec 64).toNat < 2 ^ 8 := by cases signed <;> decide
  have htag : extractTag (lo <<< 8 + if signed then 11 else 10) = if signed then 11 else 10 := by
    apply BitVec.eq_of_toNat_eq
    rw [extractTag_toNat, tag_shifted _ _ (by omega) (by omega) ht]
  unfold decodeI128
  simp only
  rw [if_pos htag, Option.some_inj]
  apply BitVec.eq_of_toNat_eq
  rw [BitVec.toNat_setWidth, toNat_shifted_shiftRight _ _ (by omega) ht, BitVec.toNat_setWidth]
  omega

theorem encodeI128_decodes_iff (hh : h.Lawful) (signed : Bool) (v : BitVec 128) (s : σ) :
    (∃ val s', encodeI128 h signed (v.setWidth 64) ((v >>> 64).setWidth 64) s = some (val, s') ∧
      decodeI128 h signed val s' = some v) ↔ v.toNat < 2 ^ 64 ∨ 2 ^ 56 ≤ v.toNat % 2 ^ 64 := by
  have hlo : (v.setWidth 64).toNat = v.toNat % 2 ^ 64 := BitVec.toNat_setWidth 64 v
  unfold encodeI128
  simp only [high8Bits_eq_zero_iff, hlo]
  by_cases hshort : v.toNat % 2 ^ 64 < 2 ^ 56
  · -- the high word is dropped, so it has to be zero
    have ht : (if signed then 11 else 10 : BitVec 64).toNat < 2 ^ 8 := by cases signed <;> decide
    have hdec := decodeI128_short (h := h) signed (v.setWidth 64) (by omega) s
    have hv : some ((v.setWidth 64).setWidth 128) = some v ↔ v.toNat < 2 ^ 64 := by
      rw [Option.some_inj, ← BitVec.toNat_inj, BitVec.toNat_setWidth, hlo]
      omega
    rw [if_pos hshort, add_shifted false _ _ (by omega) ht]
    constructor
    · rintro ⟨val, s', henc, hback⟩
      cases henc
      rw [hdec] at hback
      exact Or.inl (hv.mp hback)
    · intro hfit
      exact ⟨_, _, rfl, hdec.trans (hv.mpr (by omega))⟩
  · rw [if_neg hshort]
    constructor
    · intro _
      exact Or.inr (by omega)
    · intro _
      exact ⟨_, _, rfl, decodeI128_object hh signed v s⟩

/-- An object of four words is decoded to the words that it was made of. -/
theorem decodeI256_object (hh : h.Lawful) (signed : Bool) (v : BitVec 256) (s : σ) :
    let (val, s') := h.objFrom256Pieces signed ((v >>> 192).setWidth 64) ((v >>> 128).setWidth 64)
      ((v >>> 64).setWidth 64) (v.setWidth 64) s
    decodeI256 h signed val s' = some v := by
  have hll := hh.loLo signed ((v >>> 192).setWidth 64) ((v >>> 128).setWidth 64)
    ((v >>> 64).setWidth 64) (v.setWidth 64) s
  have hlh := hh.loHi signed ((v >>> 192).setWidth 64) ((v >>> 128).setWidth 64)
    ((v >>> 64).setWidth 64) (v.setWidth 64) s
  have hhl := hh.hiLo signed ((v >>> 192).setWidth 64) ((v >>> 128).setWidth 64)
    ((v >>> 64).setWidth 64) (v.setWidth 64) s
  have hhh := hh.hiHi signed ((v >>> 192).setWidth 64) ((v >>> 128).setWidth 64)
    ((v >>> 64).setWidth 64) (v.setWidth 64) s
  generalize h.objFrom256Pieces signed ((v >>> 192).setWidth 64) ((v >>> 128).setWidth 64)
    ((v >>> 64).setWidth 64) (v.setWidth 64) s = r at *
  obtain ⟨val, s'⟩ := r
  show decodeI256 h signed val s' = some v
  have h0 := add_word signed v 0 (by omega)
  rw [BitVec.ushiftRight_zero] at h0
  unfold decodeI256
  simp only
  rw [hll, hlh, hhl, hhh, top_word v 192 (by omega), add_word signed v 128 (by omega)]
  show (do
    let combined ← add signed ((v >>> 128) <<< 64) (((v >>> 64).setWidth 64).setWidth 256)
    add signed (combined <<< 64) ((v.setWidth 64).setWidth 256)) = some v
  rw [add_word signed v 64 (by omega)]
  exact h0

/-- An integer of two or four words is decoded to itself, exactly when the test on its low word
does not lose the high one: integers of four words always are. -/
theorem large_decodes_iff (hh : h.Lawful) (ty : IntTy)
    (hty : ty ∈ [IntTy.uint128, .int128, .uint256, .int256]) (v : BitVec ty.bits) (s : σ) :
    DecodesBack h ty v s ↔ ty.bits = 256 ∨ v.toNat < 2 ^ 64 ∨ 2 ^ 56 ≤ v.toNat % 2 ^ 64 := by
  simp only [List.mem_cons, List.not_mem_nil, or_false] at hty
  rcases hty with rfl | rfl | rfl | rfl
  · rw [or_iff_right (by decide)]
    exact encodeI128_decodes_iff hh false v s
  · rw [or_iff_right (by decide)]
    exact encodeI128_decodes_iff hh true v s
  · exact iff_of_true ⟨_, _, rfl, decodeI256_object hh false v s⟩ (Or.inl rfl)
  · refine iff_of_true ⟨_, _, rfl, ?_⟩ (Or.inl rfl)
    rw [setWidth_sshiftRight v (by omega : 64 + 64 ≤ 256),
      setWidth_sshiftRight v (by omega : 128 + 64 ≤ 256),
      setWidth_sshiftRight v (by omega : 192 + 64 ≤ 256)]
    exact decodeI256_object hh true v s

end Large

namespace Sample

theorem host_lawful : host.Lawful where
  tag_128 signed _ _ _ := by
    cases signed with
    | false => exact (by decide : 64 ≤ 68 % 256)
    | true => exact (by decide : 64 ≤ 69 % 256)
  lo64 _ _ _ _ := rfl
  hi64 _ _ _ _ := rfl
  loLo _ _ _ _ _ _ := rfl
  loHi _ _ _ _ _ _ := rfl
  hiLo _ _ _ _ _ _ := rfl
  hiHi _ _ _ _ _ _ := rfl

theorem minus_one_decodes : DecodesBack host .int128 (-1) [] :=
  (large_decodes_iff host_lawful .int128 (by decide) (-1) []).mpr (by
    refine Or.inr (Or.inr ?_)
    decide)

/-- `2 ** 64` has a low word that fits, and comes back as zero. -/
theorem high_word_is_lost :
    ¬ ∀ ty ∈ [IntTy.uint128, .int128, .uint256, .int256], ∀ (v : BitVec ty.bits) s,
      DecodesBack host ty v s := by
  intro hall
  have hfits := (encodeI128_decodes_iff host_lawful false (BitVec.ofNat 128 (2 ^ 64)) []).mp
    (hall .uint128 (by decide) _ _)
  exact absurd hfits (by decide)

end Sample

end Solang.Codegen.Soroban
