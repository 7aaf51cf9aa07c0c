import Solang.Lib.Fuel
import Solang.Stdlib.BigInt

/-!
# Wide division

Quotients and remainders. The shifts of the loops lose no bit that is looked at: in `udivmod128` the
remainder so far is at most the upper bits of the dividend, and in the other divisions the shifted
divisor is at most the dividend.
-/

namespace Solang.Stdlib.BigInt

/-! ## Shifts -/

section Shifts

variable {w : Nat}

theorem toNat_shiftLeft_of_lt {x : BitVec w} {k : Nat} (h : x.toNat * 2 ^ k < 2 ^ w) :
    (x <<< k).toNat = x.toNat * 2 ^ k := by
  rw [BitVec.toNat_shiftLeft, Nat.shiftLeft_eq, Nat.mod_eq_of_lt h]

theorem toNat_shiftRight (x : BitVec w) (k : Nat) : (x >>> k).toNat = x.toNat / 2 ^ k := by
  rw [BitVec.toNat_ushiftRight, Nat.shiftRight_eq_div_pow]

/-- None of the bits from `k` on is set. -/
theorem and_mask_eq_zero (v : BitVec w) (k : Nat) :
    v &&& (BitVec.allOnes w <<< k) = 0 ↔ v.toNat < 2 ^ k := by
  have hmask : v &&& (BitVec.allOnes w <<< k) = (v >>> k) <<< k := by
    refine BitVec.eq_of_getLsbD_eq fun i hi => ?_
    by_cases hk : i < k
    · simp [hk]
    · simp [hk, hi, show k + (i - k) = i by omega]
  have hle : v.toNat / 2 ^ k * 2 ^ k ≤ v.toNat := Nat.div_mul_le_self _ _
  have hval : ((v >>> k) <<< k).toNat = v.toNat / 2 ^ k * 2 ^ k := by
    rw [toNat_shiftLeft_of_lt, toNat_shiftRight]
    rw [toNat_shiftRight]
    exact Nat.lt_of_le_of_lt hle v.isLt
  rw [hmask, ← BitVec.toNat_inj, hval]
  simp [Nat.mul_eq_zero, Nat.div_eq_zero_iff]

/-- No set bit is lost. -/
def ShlExact (x : BitVec w) (k : Nat) : Prop := (x <<< k) >>> k = x

def ShrExact (x : BitVec w) (k : Nat) : Prop := (x >>> k) <<< k = x

theorem shlExact_of_lt {x : BitVec w} {k : Nat} (h : x.toNat * 2 ^ k < 2 ^ w) : ShlExact x k := by
  refine BitVec.eq_of_toNat_eq ?_
  rw [toNat_shiftRight, toNat_shiftLeft_of_lt h, Nat.mul_div_cancel _ (Nat.two_pow_pos k)]

theorem shrExact_of_dvd {x : BitVec w} {k : Nat} (h : 2 ^ k ∣ x.toNat) : ShrExact x k := by
  have hval : (x >>> k).toNat * 2 ^ k = x.toNat := by
    rw [toNat_shiftRight]
    exact Nat.div_mul_cancel h
  refine BitVec.eq_of_toNat_eq ?_
  rw [toNat_shiftLeft_of_lt, hval]
  rw [hval]
  exact x.isLt

end Shifts

/-! ## The highest set bit -/

theorem log2_div_add {x k : Nat} (h : x / 2 ^ k ≠ 0) : (x / 2 ^ k).log2 + k = x.log2 := by
  have hx : x ≠ 0 := by
    rintro rfl
    simp at h
  obtain ⟨hle, hlt⟩ := (Nat.log2_eq_iff h).mp rfl
  refine ((Nat.log2_eq_iff hx).mpr ⟨?_, ?_⟩).symm
  · rw [Nat.pow_add]
    exact (Nat.le_div_iff_mul_le (Nat.two_pow_pos k)).mp hle
  · rw [show (x / 2 ^ k).log2 + k + 1 = (x / 2 ^ k).log2 + 1 + k by omega, Nat.pow_add]
    exact (Nat.div_lt_iff_lt_mul (Nat.two_pow_pos k)).mp hlt

/-- The highest set bit of `v` is among the upper `n` bits of what it was shifted to. -/
structure Narrowed (v : BitVec 64) (n : Nat) (s : Nat × BitVec 64) : Prop where
  le : s.1 ≤ 63
  shifted : s.2.toNat = v.toNat * 2 ^ (63 - s.1)
  upper : 2 ^ (64 - n) ≤ s.2.toNat

theorem Narrowed.probe {v : BitVec 64} {s : Nat × BitVec 64} (mask : BitVec 64) (n : Nat)
    (h : Narrowed v (2 * n) s) (hv : v ≠ 0) (hn : 2 * n ≤ 64) (hmask : mask = BitVec.allOnes 64 <<< (64 - n)) :
    Narrowed v n (probe mask n s) := by
  unfold BigInt.probe
  have hpos : 0 < v.toNat := Nat.pos_of_ne_zero fun h0 => hv (BitVec.eq_of_toNat_eq h0)
  by_cases hzero : s.2 &&& mask = 0
  · rw [if_pos hzero]
    rw [hmask, and_mask_eq_zero] at hzero
    have hle := h.le
    -- the shifts so far and this one still leave the value in 64 bits
    have hn' : n ≤ s.1 := by
      have hlt : 2 ^ (63 - s.1) < 2 ^ (64 - n) := by
        refine Nat.lt_of_le_of_lt ?_ hzero
        rw [h.shifted]
        exact Nat.le_mul_of_pos_left _ hpos
      have := (Nat.pow_lt_pow_iff_right (by decide)).mp hlt
      omega
    have hfits : s.2.toNat * 2 ^ n < 2 ^ 64 := by
      calc s.2.toNat * 2 ^ n < 2 ^ (64 - n) * 2 ^ n := Nat.mul_lt_mul_of_pos_right hzero (Nat.two_pow_pos n)
        _ = 2 ^ 64 := by rw [← Nat.pow_add, Nat.sub_add_cancel (by omega)]
    constructor
    · dsimp only
      omega
    · dsimp only
      rw [toNat_shiftLeft_of_lt hfits, h.shifted, Nat.mul_assoc, ← Nat.pow_add]
      congr 2
      omega
    · dsimp only
      rw [toNat_shiftLeft_of_lt hfits]
      calc 2 ^ (64 - n) = 2 ^ (64 - 2 * n) * 2 ^ n := by
            rw [← Nat.pow_add]
            congr 1
            omega
        _ ≤ s.2.toNat * 2 ^ n := Nat.mul_le_mul_right _ h.upper
  · rw [if_neg hzero]
    rw [hmask, and_mask_eq_zero, Nat.not_lt] at hzero
    exact ⟨h.le, h.shifted, hzero⟩

theorem Narrowed.log2 {v : BitVec 64} {s : Nat × BitVec 64} (h : Narrowed v 1 s) (hv : v.toNat ≠ 0) :
    s.1 = v.toNat.log2 := by
  have hlt := s.2.isLt
  have hupper := h.upper
  have hle := h.le
  rw [h.shifted] at hlt hupper
  refine ((Nat.log2_eq_iff hv).mpr ⟨?_, ?_⟩).symm
  · refine Nat.le_of_mul_le_mul_right ?_ (Nat.two_pow_pos (63 - s.1))
    rw [← Nat.pow_add, Nat.add_sub_cancel' hle]
    exact hupper
  · refine Nat.lt_of_mul_lt_mul_right (a := 2 ^ (63 - s.1)) ?_
    rw [← Nat.pow_add, show s.1 + 1 + (63 - s.1) = 64 by omega]
    exact hlt

theorem bits_eq_log2 {v : BitVec 64} (hv : v ≠ 0) : bits v = v.toNat.log2 := by
  have hne : v.toNat ≠ 0 := fun h0 => hv (BitVec.eq_of_toNat_eq h0)
  have h0 : Narrowed v 64 (63, v) := ⟨le_rfl, by simp, Nat.pos_of_ne_zero hne⟩
  have h1 := h0.probe 0xffffffff00000000 32 hv (by decide) (by decide)
  have h2 := h1.probe 0xffff000000000000 16 hv (by decide) (by decide)
  have h3 := h2.probe 0xff00000000000000 8 hv (by decide) (by decide)
  have h4 := h3.probe 0xf000000000000000 4 hv (by decide) (by decide)
  have h5 := h4.probe 0xc000000000000000 2 hv (by decide) (by decide)
  exact (h5.probe 0x8000000000000000 1 hv (by decide) (by decide)).log2 hne

theorem bits128_eq_log2 {v : BitVec 128} (hv : v ≠ 0) : bits128 v = v.toNat.log2 := by
  have hlt := v.isLt
  have hne : v.toNat ≠ 0 := fun h0 => hv (BitVec.eq_of_toNat_eq h0)
  have hupper : ((v >>> 64).setWidth 64).toNat = v.toNat / 2 ^ 64 := by
    rw [BitVec.toNat_setWidth, toNat_shiftRight]
    omega
  unfold bits128
  dsimp only
  split
  · rename_i hu
    rw [bits_eq_log2 hu, hupper]
    refine log2_div_add fun h0 => hu (BitVec.eq_of_toNat_eq ?_)
    rw [hupper, h0]
    rfl
  · rename_i hu
    rw [not_not] at hu
    have hlow : (v.setWidth 64).toNat = v.toNat := by
      rw [hu] at hupper
      have h0 : v.toNat / 2 ^ 64 = 0 := hupper.symm
      rw [BitVec.toNat_setWidth]
      omega
    rw [bits_eq_log2, hlow]
    intro h0
    rw [h0] at hlow
    exact hne hlow.symm

theorem bitsOfWords_eq_log2 {w : Nat} {v : BitVec w} (n : Nat) (hv : v.toNat ≠ 0) (hn : v.toNat < 2 ^ (64 * n)) :
    bitsOfWords v n = v.toNat.log2 := by
  induction n with
  | zero =>
    rw [Nat.mul_zero, Nat.pow_zero] at hn
    omega
  | succ n ih =>
    have hword : (word v n).toNat = v.toNat / 2 ^ (64 * n) := by
      unfold word
      rw [BitVec.toNat_setWidth, toNat_shiftRight]
      refine Nat.mod_eq_of_lt ((Nat.div_lt_iff_lt_mul (Nat.two_pow_pos _)).mpr ?_)
      rw [← Nat.pow_add, show 64 + 64 * n = 64 * (n + 1) by omega]
      exact hn
    unfold bitsOfWords
    split
    · rename_i hu
      rw [bits_eq_log2 hu, hword]
      refine log2_div_add fun h0 => hu (BitVec.eq_of_toNat_eq ?_)
      rw [hword, h0]
      rfl
    · rename_i hu
      rw [not_not] at hu
      rw [hu] at hword
      refine ih (Nat.lt_of_div_eq_zero (Nat.two_pow_pos _) hword.symm)

theorem bitsOfWords_of_width {w n : Nat} (hw : w = 64 * n) {v : BitVec w} (hv : v ≠ 0) :
    bitsOfWords v n = v.toNat.log2 := by
  refine bitsOfWords_eq_log2 n (fun h0 => hv (BitVec.eq_of_toNat_eq h0)) ?_
  rw [← hw]
  exact v.isLt

theorem bits256_eq_log2 {v : BitVec 256} (hv : v ≠ 0) : bits256 v = v.toNat.log2 := by
  unfold bits256
  exact bitsOfWords_of_width (n := 4) (v := v) rfl hv

theorem bits512_eq_log2 {v : BitVec 512} (hv : v ≠ 0) : bits512 v = v.toNat.log2 := by
  unfold bits512
  exact bitsOfWords_of_width (n := 8) (v := v) rfl hv

/-! ## Bit by bit -/

/-- What the divisions compute -/
structure Divides {w : Nat} (dividend divisor : BitVec w) (d : DivMod w) : Prop where
  eq : dividend.toNat = d.quotient.toNat * divisor.toNat + d.remainder.toNat
  lt : d.remainder.toNat < divisor.toNat

section Bitwise

variable {dividend divisor : BitVec 128} {x : Nat} {s : DivMod 128}

/-- The states of the loop of `udivmod128`, with the number of iterations that are left -/
inductive BitVisits (dividend divisor : BitVec 128) : Nat → DivMod 128 → Prop where
  | start : BitVisits dividend divisor (bits128 dividend + 1) ⟨0, 0⟩
  | step {x : Nat} {s : DivMod 128} : BitVisits dividend divisor (x + 1) s →
      BitVisits dividend divisor x (bitStep dividend divisor x s)

/-- The bits of the dividend from `x` on have been divided. -/
structure BitInv (dividend divisor : BitVec 128) (x : Nat) (s : DivMod 128) : Prop where
  eq : dividend.toNat / 2 ^ x = s.quotient.toNat * divisor.toNat + s.remainder.toNat
  lt : s.remainder.toNat < divisor.toNat

/-- The next bit of the dividend -/
theorem div_pow_eq (dividend x : Nat) :
    dividend / 2 ^ x = 2 * (dividend / 2 ^ (x + 1)) + dividend / 2 ^ x % 2 := by
  rw [Nat.pow_succ, ← Nat.div_div_eq_div_mul]
  exact (Nat.div_add_mod _ 2).symm

theorem BitInv.shifts (h : BitInv dividend divisor (x + 1) s) :
    (s.quotient <<< 1).toNat = 2 * s.quotient.toNat ∧ (s.remainder <<< 1).toNat = 2 * s.remainder.toNat := by
  have hd := dividend.isLt
  have hdiv : dividend.toNat / 2 ^ (x + 1) * 2 ≤ dividend.toNat := by
    have := div_pow_eq dividend.toNat x
    have := Nat.div_le_self dividend.toNat (2 ^ x)
    omega
  have hq : s.quotient.toNat ≤ dividend.toNat / 2 ^ (x + 1) := by
    rw [h.eq]
    have hpos : 1 ≤ divisor.toNat := Nat.one_le_of_lt h.lt
    have := Nat.le_mul_of_pos_right s.quotient.toNat hpos
    omega
  have hr : s.remainder.toNat ≤ dividend.toNat / 2 ^ (x + 1) := by
    rw [h.eq]
    exact Nat.le_add_left ..
  rw [toNat_shiftLeft_of_lt (by omega), toNat_shiftLeft_of_lt (by omega)]
  omega

theorem BitInv.step (h : BitInv dividend divisor (x + 1) s) :
    BitInv dividend divisor x (bitStep dividend divisor x s) := by
  obtain ⟨hq, hr⟩ := h.shifts
  have hd := dividend.isLt
  have heq := h.eq
  have hlt := h.lt
  have hdvs := divisor.isLt
  have hnext := div_pow_eq dividend.toNat x
  have hle : dividend.toNat / 2 ^ x ≤ dividend.toNat := Nat.div_le_self _ _
  have hbit : ((dividend >>> x) &&& 1).toNat = dividend.toNat / 2 ^ x % 2 := by
    rw [BitVec.toNat_and, toNat_shiftRight]
    exact Nat.and_one_is_mod _
  set q := s.quotient.toNat with hqdef
  set r := s.remainder.toNat with hrdef
  set d := divisor.toNat with hddef
  set bit := dividend.toNat / 2 ^ x % 2 with hbitdef
  have hlt2 : bit < 2 := Nat.mod_lt _ (by decide)
  have hbound : 2 * r + bit ≤ dividend.toNat / 2 ^ x := by
    rw [hnext, heq]
    omega
  -- the remainder with the next bit
  have hnew : (if (dividend >>> x) &&& 1 ≠ 0 then s.remainder <<< 1 + 1 else s.remainder <<< 1).toNat =
      2 * r + bit := by
    by_cases hzero : (dividend >>> x) &&& 1 = 0
    · rw [if_neg (not_not.mpr hzero), hr]
      rw [hzero] at hbit
      have : (0 : BitVec 128).toNat = 0 := rfl
      omega
    · rw [if_pos hzero, BitVec.toNat_add, hr]
      have hne : bit ≠ 0 := fun h0 => hzero (BitVec.eq_of_toNat_eq (by rw [hbit, h0]; rfl))
      have : (1 : BitVec 128).toNat = 1 := rfl
      omega
  unfold bitStep
  dsimp only
  generalize (if (dividend >>> x) &&& 1 ≠ 0 then s.remainder <<< 1 + 1 else s.remainder <<< 1) = r' at hnew
  by_cases hge : divisor ≤ r'
  · rw [if_pos hge]
    have hge' : d ≤ 2 * r + bit := by
      rw [← hnew]
      exact hge
    have hquot : (s.quotient <<< 1 + 1).toNat = 2 * q + 1 := by
      have hqle : (2 * q + 1) * 1 ≤ (2 * q + 1) * d := Nat.mul_le_mul_left _ (by omega)
      have hmul : (2 * q + 1) * d + (2 * r + bit - d) = dividend.toNat / 2 ^ x := by
        rw [hnext, heq, Nat.add_mul, Nat.one_mul, Nat.mul_assoc]
        omega
      rw [BitVec.toNat_add, hq]
      have : (1 : BitVec 128).toNat = 1 := rfl
      omega
    constructor
    · change _ = (s.quotient <<< 1 + 1).toNat * d + (r' - divisor).toNat
      rw [hquot, BitVec.toNat_sub_of_le hge, hnew, hnext, heq, Nat.add_mul, Nat.one_mul, Nat.mul_assoc]
      omega
    · dsimp only
      rw [BitVec.toNat_sub_of_le hge, hnew]
      omega
  · rw [if_neg hge]
    have hlt' : 2 * r + bit < d := by
      rw [← hnew]
      exact Nat.not_le.mp hge
    constructor
    · change _ = (s.quotient <<< 1).toNat * d + r'.toNat
      rw [hq, hnew, hnext, heq, Nat.mul_assoc]
      omega
    · dsimp only
      rw [hnew]
      exact hlt'

theorem BitInv.loop (h : BitInv dividend divisor x s) :
    Divides dividend divisor (bitLoop dividend divisor x s) := by
  induction x generalizing s with
  | zero =>
    refine ⟨?_, h.lt⟩
    have heq := h.eq
    rwa [Nat.pow_zero, Nat.div_one] at heq
  | succ x ih => exact ih h.step

theorem BitInv.start (hdividend : dividend ≠ 0) (hdivisor : divisor ≠ 0) :
    BitInv dividend divisor (bits128 dividend + 1) ⟨0, 0⟩ := by
  constructor
  · rw [bits128_eq_log2 hdividend, Nat.div_eq_of_lt Nat.lt_log2_self]
    simp
  · exact Nat.pos_of_ne_zero fun h0 => hdivisor (BitVec.eq_of_toNat_eq h0)

theorem BitVisits.inv (hdividend : dividend ≠ 0) (hdivisor : divisor ≠ 0)
    (h : BitVisits dividend divisor x s) : BitInv dividend divisor x s := by
  induction h with
  | start => exact .start hdividend hdivisor
  | step _ ih => exact ih.step

end Bitwise

/-! ## Shift and subtract -/

section Subtract

variable {w : Nat} {dividend divisor : BitVec w} {s : Subtraction w}

/-- The states of the loop of `udivmod256` and `udivmod512` -/
inductive Visits (bits : BitVec w → Nat) (dividend divisor : BitVec w) : Subtraction w → Prop where
  | start : Visits bits dividend divisor (aligned bits dividend divisor)
  | step {s : Subtraction w} : Visits bits dividend divisor s → divisor ≤ s.r → Visits bits dividend divisor s.step

/-- `copyd` is the divisor `2 ^ k` times, and the quotient so far is a multiple of `2 ^ (k + 1)`. -/
structure Aligned (dividend divisor : BitVec w) (k : Nat) (s : Subtraction w) : Prop where
  adder : s.adder.toNat = 2 ^ k
  copyd : s.copyd.toNat = divisor.toNat * 2 ^ k
  lt : s.r.toNat < divisor.toNat * 2 ^ (k + 1)
  dvd : 2 ^ (k + 1) ∣ s.q.toNat
  eq : dividend.toNat = s.q.toNat * divisor.toNat + s.r.toNat

/-- A state of the loop: `copyd` is aligned, or the division is done. -/
def SubInv (dividend divisor : BitVec w) (s : Subtraction w) : Prop :=
  (∃ k, Aligned dividend divisor k s) ∨ Divides dividend divisor ⟨s.r, s.q⟩

theorem or_eq_add {q k : Nat} (h : 2 ^ (k + 1) ∣ q) : q ||| 2 ^ k = q + 2 ^ k := by
  obtain ⟨c, rfl⟩ := h
  exact (Nat.two_pow_add_eq_or_of_lt (Nat.pow_lt_pow_right (by decide) (Nat.lt_succ_self k)) c).symm

/-- One subtraction: the remainder is less than `copyd` afterwards. -/
theorem Aligned.subtract {k : Nat} (h : Aligned dividend divisor k s) :
    s.step.adder = s.adder >>> 1 ∧ s.step.copyd = s.copyd >>> 1 ∧
      s.step.r.toNat < divisor.toNat * 2 ^ k ∧ 2 ^ k ∣ s.step.q.toNat ∧
      dividend.toNat = s.step.q.toNat * divisor.toNat + s.step.r.toNat := by
  have hdvd : 2 ^ k ∣ s.q.toNat := Nat.dvd_trans (Nat.pow_dvd_pow 2 (Nat.le_succ k)) h.dvd
  unfold Subtraction.step
  by_cases hle : s.copyd ≤ s.r
  · rw [if_pos hle]
    have hle' : divisor.toNat * 2 ^ k ≤ s.r.toNat := by
      rw [← h.copyd]
      exact hle
    have heq : dividend.toNat = (s.q.toNat + 2 ^ k) * divisor.toNat + (s.r.toNat - divisor.toNat * 2 ^ k) := by
      rw [h.eq, Nat.add_mul, Nat.mul_comm (2 ^ k)]
      omega
    have hq : (s.q ||| s.adder).toNat = s.q.toNat + 2 ^ k := by
      rw [BitVec.toNat_or, h.adder, or_eq_add h.dvd]
    refine ⟨rfl, rfl, ?_, ?_, ?_⟩
    · change (s.r - s.copyd).toNat < _
      rw [BitVec.toNat_sub_of_le hle, h.copyd]
      have hlt := h.lt
      rw [Nat.pow_succ, ← Nat.mul_assoc] at hlt
      omega
    · change 2 ^ k ∣ (s.q ||| s.adder).toNat
      rw [hq]
      exact Nat.dvd_add hdvd (Nat.dvd_refl _)
    · change _ = (s.q ||| s.adder).toNat * divisor.toNat + (s.r - s.copyd).toNat
      rw [hq, BitVec.toNat_sub_of_le hle, h.copyd]
      exact heq
  · rw [if_neg hle]
    refine ⟨rfl, rfl, ?_, hdvd, h.eq⟩
    rw [← h.copyd]
    exact Nat.not_le.mp hle

/-- Until `copyd` is the divisor, the shifts are exact. -/
theorem Aligned.step {k : Nat} (h : Aligned dividend divisor (k + 1) s) :
    Aligned dividend divisor k s.step := by
  obtain ⟨hadder, hcopyd, hlt, hdvd, heq⟩ := h.subtract
  refine ⟨?_, ?_, hlt, hdvd, heq⟩
  · rw [hadder, toNat_shiftRight, h.adder, Nat.pow_one, Nat.pow_succ, Nat.mul_div_cancel _ (by decide)]
  · rw [hcopyd, toNat_shiftRight, h.copyd, Nat.pow_one, Nat.pow_succ, ← Nat.mul_assoc,
      Nat.mul_div_cancel _ (by decide)]

theorem Aligned.last (h : Aligned dividend divisor 0 s) :
    Divides dividend divisor ⟨s.step.r, s.step.q⟩ := by
  obtain ⟨-, -, hlt, -, heq⟩ := h.subtract
  rw [Nat.pow_zero, Nat.mul_one] at hlt
  exact ⟨heq, hlt⟩

theorem SubInv.step (h : SubInv dividend divisor s) (hle : divisor ≤ s.r) :
    SubInv dividend divisor s.step := by
  rcases h with ⟨k, h⟩ | h
  · cases k with
    | zero => exact .inr (h.last)
    | succ k => exact .inl ⟨k, h.step⟩
  · exact absurd hle (Nat.not_le.mpr h.lt)

theorem subtractLoop_of_lt {fuel : Nat} (h : ¬ divisor ≤ s.r) : subtractLoop divisor (fuel + 1) s = some s := by
  unfold subtractLoop
  rw [if_neg h]

theorem Aligned.loop {k : Nat} (h : Aligned dividend divisor k s) :
    ∃ s', Fuel.Settles (fun fuel => subtractLoop divisor fuel s) s' ∧ Divides dividend divisor ⟨s'.r, s'.q⟩ := by
  have hnext : ∀ s₁ s', divisor ≤ s₁.r → Fuel.Settles (fun fuel => subtractLoop divisor fuel s₁.step) s' →
      Fuel.Settles (fun fuel => subtractLoop divisor fuel s₁) s' := by
    intro s₁ s' hle hs'
    refine hs'.succ fun fuel => ?_
    conv_lhs => unfold subtractLoop
    rw [if_pos hle]
  have hdone : ∀ s₁ : Subtraction w, ¬ divisor ≤ s₁.r →
      Fuel.Settles (fun fuel => subtractLoop divisor fuel s₁) s₁ :=
    fun s₁ hlt => (Fuel.settles_const s₁).succ fun fuel => subtractLoop_of_lt hlt
  induction k generalizing s with
  | zero =>
    by_cases hle : divisor ≤ s.r
    · have hlast := h.last
      exact ⟨s.step, hnext s _ hle (hdone _ (Nat.not_le.mpr hlast.lt)), hlast⟩
    · exact ⟨s, hdone s hle, h.eq, Nat.not_le.mp hle⟩
  | succ k ih =>
    by_cases hle : divisor ≤ s.r
    · obtain ⟨s', hs', hdiv⟩ := ih (h.step)
      exact ⟨s', hnext s s' hle hs', hdiv⟩
    · exact ⟨s, hdone s hle, h.eq, Nat.not_le.mp hle⟩

/-- The shift that aligns the highest bit of the divisor with that of the dividend -/
theorem shift_bounds {bits : BitVec w → Nat} (hbits : ∀ v : BitVec w, v ≠ 0 → bits v = v.toNat.log2)
    (hd : divisor ≠ 0) (hlt : divisor < dividend) :
    divisor.toNat * 2 ^ (bits dividend - bits divisor) < 2 ^ w ∧
      dividend.toNat < divisor.toNat * 2 ^ (bits dividend - bits divisor + 1) := by
  have hlt' : divisor.toNat < dividend.toNat := hlt
  have hdpos : divisor.toNat ≠ 0 := fun h0 => hd (BitVec.eq_of_toNat_eq h0)
  have hDpos : dividend.toNat ≠ 0 := by omega
  have hdividend : dividend ≠ 0 := by
    rintro rfl
    exact hDpos rfl
  obtain ⟨hdle, hdlt⟩ := (Nat.log2_eq_iff hdpos).mp rfl
  obtain ⟨hDle, hDlt⟩ := (Nat.log2_eq_iff hDpos).mp rfl
  have hlog : divisor.toNat.log2 ≤ dividend.toNat.log2 := by
    have hpow : 2 ^ divisor.toNat.log2 < 2 ^ (dividend.toNat.log2 + 1) := by omega
    have := (Nat.pow_lt_pow_iff_right (by decide)).mp hpow
    omega
  have hw : dividend.toNat.log2 < w := by
    have hpow : 2 ^ dividend.toNat.log2 < 2 ^ w := Nat.lt_of_le_of_lt hDle dividend.isLt
    exact (Nat.pow_lt_pow_iff_right (by decide)).mp hpow
  rw [hbits dividend hdividend, hbits divisor hd]
  constructor
  · calc divisor.toNat * 2 ^ (dividend.toNat.log2 - divisor.toNat.log2)
        < 2 ^ (divisor.toNat.log2 + 1) * 2 ^ (dividend.toNat.log2 - divisor.toNat.log2) :=
          Nat.mul_lt_mul_of_pos_right hdlt (Nat.two_pow_pos _)
      _ = 2 ^ (dividend.toNat.log2 + 1) := by
          rw [← Nat.pow_add]
          congr 1
          omega
      _ ≤ 2 ^ w := Nat.pow_le_pow_right (by decide) hw
  · calc dividend.toNat < 2 ^ (dividend.toNat.log2 + 1) := hDlt
      _ = 2 ^ divisor.toNat.log2 * 2 ^ (dividend.toNat.log2 - divisor.toNat.log2 + 1) := by
          rw [← Nat.pow_add]
          congr 1
          omega
      _ ≤ divisor.toNat * 2 ^ (dividend.toNat.log2 - divisor.toNat.log2 + 1) := Nat.mul_le_mul_right _ hdle

theorem toNat_one_shiftLeft {n : Nat} (h : divisor.toNat * 2 ^ n < 2 ^ w) (hd : divisor ≠ 0) :
    ((1 : BitVec w) <<< n).toNat = 2 ^ n := by
  have hpos : 1 ≤ divisor.toNat := Nat.pos_of_ne_zero fun h0 => hd (BitVec.eq_of_toNat_eq h0)
  have hn : 1 * 2 ^ n < 2 ^ w := Nat.lt_of_le_of_lt (Nat.mul_le_mul_right _ hpos) h
  have hone : (1 : BitVec w).toNat = 1 := by
    rw [BitVec.ofNat_eq_ofNat, BitVec.toNat_ofNat]
    refine Nat.mod_eq_of_lt (Nat.lt_of_le_of_lt ?_ hn)
    rw [Nat.one_mul]
    exact Nat.one_le_two_pow
  rw [toNat_shiftLeft_of_lt, hone, Nat.one_mul]
  rwa [hone]

/-- When the shifted divisor is more than the dividend, it has been shifted. -/
theorem shift_pos {n : Nat} (h : divisor.toNat * 2 ^ n < 2 ^ w) (hlt : divisor < dividend)
    (hover : dividend < divisor <<< n) : ∃ k, n = k + 1 ∧ dividend.toNat < divisor.toNat * 2 ^ (k + 1) := by
  have hlt' : divisor.toNat < dividend.toNat := hlt
  have hover' : dividend.toNat < divisor.toNat * 2 ^ n := by
    rw [← toNat_shiftLeft_of_lt h]
    exact hover
  cases n with
  | zero =>
    rw [Nat.pow_zero, Nat.mul_one] at hover'
    omega
  | succ k => exact ⟨k, rfl, hover'⟩

/-- The divisor is shifted to the highest bit of the dividend, or to the one below. -/
theorem aligned_spec {bits : BitVec w → Nat} (hbits : ∀ v : BitVec w, v ≠ 0 → bits v = v.toNat.log2)
    (hd : divisor ≠ 0) (hlt : divisor < dividend) :
    ∃ k, Aligned dividend divisor k (aligned bits dividend divisor) := by
  obtain ⟨hupper, hlower⟩ := shift_bounds hbits hd hlt
  unfold aligned
  dsimp only
  generalize bits dividend - bits divisor = n at hupper hlower
  have hcopyd := toNat_shiftLeft_of_lt hupper
  have hadder := toNat_one_shiftLeft hupper hd
  by_cases hover : dividend < divisor <<< n
  · rw [if_pos hover]
    obtain ⟨k, rfl, hover'⟩ := shift_pos hupper hlt hover
    refine ⟨k, ?_, ?_, hover', by simp, by simp⟩
    · rw [toNat_shiftRight, hadder, Nat.pow_one, Nat.pow_succ, Nat.mul_div_cancel _ (by decide)]
    · rw [toNat_shiftRight, hcopyd, Nat.pow_one, Nat.pow_succ, ← Nat.mul_assoc,
        Nat.mul_div_cancel _ (by decide)]
  · rw [if_neg hover]
    exact ⟨n, hadder, hcopyd, hlower, by simp, by simp⟩

theorem Visits.inv {bits : BitVec w → Nat} (hbits : ∀ v : BitVec w, v ≠ 0 → bits v = v.toNat.log2)
    (hd : divisor ≠ 0) (hlt : divisor < dividend) (h : Visits bits dividend divisor s) :
    SubInv dividend divisor s := by
  induction h with
  | start => exact .inl (aligned_spec hbits hd hlt)
  | step _ hle ih => exact ih.step hle

/-- Before the last iteration `copyd` has been shifted. -/
theorem SubInv.before_last (h : SubInv dividend divisor s) (hle : divisor ≤ s.r) (hnext : divisor ≤ s.step.r) :
    ∃ k, Aligned dividend divisor (k + 1) s := by
  rcases h with ⟨k, h⟩ | h
  · cases k with
    | zero => exact absurd hnext (Nat.not_le.mpr h.last.lt)
    | succ k => exact ⟨k, h⟩
  · exact absurd hle (Nat.not_le.mpr h.lt)

end Subtract

/-! ## Results -/

section Results

variable {w : Nat} {dividend divisor : BitVec w}

/-- `o` is `none` where 1 is returned, and nothing is written. -/
structure Returns (dividend divisor : BitVec w) (o : Option (DivMod w)) : Prop where
  none_iff : o = none ↔ divisor = 0
  divides : ∀ d, o = some d → Divides dividend divisor d

theorem Returns.zero : Returns dividend 0 none := ⟨by simp, by simp⟩

theorem Divides.returns {d : DivMod w} (h : Divides dividend divisor d) : Returns dividend divisor (some d) := by
  refine ⟨⟨fun hnone => (Option.some_ne_none d hnone).elim, ?_⟩, fun d' hd => Option.some.inj hd ▸ h⟩
  rintro rfl
  exact absurd h.lt (Nat.not_lt_zero _)

theorem Divides.eq_div {d : DivMod w} (h : Divides dividend divisor d) : d = ⟨dividend % divisor, dividend / divisor⟩ := by
  have hpos : 0 < divisor.toNat := Nat.lt_of_le_of_lt (Nat.zero_le _) h.lt
  have hquot : d.quotient = dividend / divisor := by
    refine BitVec.eq_of_toNat_eq ?_
    rw [BitVec.toNat_udiv, h.eq, Nat.mul_comm, Nat.mul_add_div hpos, Nat.div_eq_of_lt h.lt, Nat.add_zero]
  have hrem : d.remainder = dividend % divisor := by
    refine BitVec.eq_of_toNat_eq ?_
    rw [BitVec.toNat_umod, h.eq, Nat.mul_comm, Nat.mul_add_mod, Nat.mod_eq_of_lt h.lt]
  rw [← hquot, ← hrem]

theorem Returns.eq_some {o : Option (DivMod w)} (h : Returns dividend divisor o) (hd : divisor ≠ 0) :
    o = some ⟨dividend % divisor, dividend / divisor⟩ := by
  cases o with
  | none => exact absurd (h.none_iff.mp rfl) hd
  | some d => rw [(h.divides d rfl).eq_div]

theorem toNat_one (hd : divisor ≠ 0) : (1 : BitVec w).toNat = 1 := by
  have h := toNat_one_shiftLeft (n := 0) (by rw [Nat.pow_zero, Nat.mul_one]; exact divisor.isLt) hd
  rwa [BitVec.shiftLeft_zero, Nat.pow_zero] at h

theorem divides_one (h : (1 : BitVec w) ≠ 0) : Divides dividend 1 ⟨0, dividend⟩ := by
  constructor
  · rw [toNat_one h, Nat.mul_one]
    rfl
  · rw [toNat_one h]
    exact Nat.one_pos

theorem divides_self (h : divisor ≠ 0) : Divides divisor divisor ⟨0, 1⟩ := by
  constructor
  · rw [toNat_one h, Nat.one_mul]
    rfl
  · exact Nat.pos_of_ne_zero fun h0 => h (BitVec.eq_of_toNat_eq h0)

theorem divides_of_lt (hd : divisor ≠ 0) (h : dividend = 0 ∨ dividend < divisor) :
    Divides dividend divisor ⟨dividend, 0⟩ := by
  constructor
  · simp
  · rcases h with rfl | h
    · exact Nat.pos_of_ne_zero fun h0 => hd (BitVec.eq_of_toNat_eq h0)
    · exact h

/-- What is left for the loops -/
theorem lt_of_not_early (hself : divisor ≠ dividend) (h : ¬ (dividend = 0 ∨ dividend < divisor)) :
    divisor < dividend := by
  have hle : divisor.toNat ≤ dividend.toNat := Nat.not_lt.mp fun hlt => h (.inr hlt)
  exact Nat.lt_of_le_of_ne hle fun heq => hself (BitVec.eq_of_toNat_eq heq)

theorem udivmod128_returns (dividend divisor : BitVec 128) :
    Returns dividend divisor (udivmod128 dividend divisor) := by
  unfold udivmod128
  split_ifs with hzero hone hself hlt
  · exact hzero ▸ .zero
  · exact hone ▸ (divides_one (hone ▸ hzero)).returns
  · exact hself ▸ (divides_self hzero).returns
  · exact (divides_of_lt hzero hlt).returns
  · exact (BitInv.start (fun h0 => hlt (.inl h0)) hzero).loop.returns

theorem udivmodWide_returns {bits : BitVec w → Nat} (hbits : ∀ v : BitVec w, v ≠ 0 → bits v = v.toNat.log2)
    (dividend divisor : BitVec w) :
    ∃ o, Fuel.Settles (fun fuel => udivmodWide bits fuel dividend divisor) o ∧ Returns dividend divisor o := by
  unfold udivmodWide
  split_ifs with hzero hone hself hlt
  · exact ⟨none, Fuel.settles_const _, hzero ▸ .zero⟩
  · exact ⟨_, Fuel.settles_const _, hone ▸ (divides_one (hone ▸ hzero)).returns⟩
  · exact ⟨_, Fuel.settles_const _, hself ▸ (divides_self hzero).returns⟩
  · exact ⟨_, Fuel.settles_const _, (divides_of_lt hzero hlt).returns⟩
  · obtain ⟨k, hk⟩ := aligned_spec hbits hzero (lt_of_not_early hself hlt)
    obtain ⟨s, ⟨n, hn⟩, hs⟩ := hk.loop
    refine ⟨some ⟨s.r, s.q⟩, ⟨n, fun fuel hfuel => ?_⟩, hs.returns⟩
    have hloop := hn fuel hfuel
    dsimp only at hloop ⊢
    rw [hloop]
    rfl

end Results

/-! ## The shifts -/

/-- The masks of `bits`, with the shifts -/
def tests : List (BitVec 64 × Nat) :=
  [(0xffffffff00000000, 32), (0xffff000000000000, 16), (0xff00000000000000, 8), (0xf000000000000000, 4),
    (0xc000000000000000, 2)]

theorem tests_masks : ∀ p ∈ tests, p.2 ≤ 64 ∧ p.1 = BitVec.allOnes 64 <<< (64 - p.2) := by decide

theorem tests_exact {p : BitVec 64 × Nat} (hp : p ∈ tests) {v : BitVec 64} (h : v &&& p.1 = 0) :
    ShlExact v p.2 := by
  obtain ⟨hle, hmask⟩ := tests_masks p hp
  rw [hmask, and_mask_eq_zero] at h
  refine shlExact_of_lt ?_
  calc v.toNat * 2 ^ p.2 < 2 ^ (64 - p.2) * 2 ^ p.2 := Nat.mul_lt_mul_of_pos_right h (Nat.two_pow_pos _)
    _ = 2 ^ 64 := by rw [← Nat.pow_add, Nat.sub_add_cancel hle]

section Exact

variable {w : Nat}

theorem BitVisits.exact {dividend divisor : BitVec 128} (hdividend : dividend ≠ 0) (hdivisor : divisor ≠ 0) {x : Nat}
    {s : DivMod 128} (h : BitVisits dividend divisor (x + 1) s) :
    ShlExact s.quotient 1 ∧ ShlExact s.remainder 1 := by
  obtain ⟨hq, hr⟩ := (h.inv hdividend hdivisor).shifts
  have hqlt := (s.quotient <<< 1).isLt
  have hrlt := (s.remainder <<< 1).isLt
  exact ⟨shlExact_of_lt (by omega), shlExact_of_lt (by omega)⟩

/-- The shifts of `udivmod256` and `udivmod512`, but for those at the end of the last iteration -/
structure WideExact (bits : BitVec w → Nat) (dividend divisor : BitVec w) : Prop where
  align : ShlExact divisor (bits dividend - bits divisor) ∧ ShlExact (1 : BitVec w) (bits dividend - bits divisor)
  back : dividend < divisor <<< (bits dividend - bits divisor) →
    ShrExact (divisor <<< (bits dividend - bits divisor)) 1 ∧
      ShrExact ((1 : BitVec w) <<< (bits dividend - bits divisor)) 1
  loop : ∀ s, Visits bits dividend divisor s → divisor ≤ s.r → divisor ≤ s.step.r →
    ShrExact s.copyd 1 ∧ ShrExact s.adder 1

theorem wideExact {bits : BitVec w → Nat} (hbits : ∀ v : BitVec w, v ≠ 0 → bits v = v.toNat.log2)
    {dividend divisor : BitVec w} (hd : divisor ≠ 0) (hlt : divisor < dividend) :
    WideExact bits dividend divisor := by
  obtain ⟨hupper, -⟩ := shift_bounds hbits hd hlt
  have hcopyd := toNat_shiftLeft_of_lt hupper
  have hadder := toNat_one_shiftLeft hupper hd
  refine ⟨⟨shlExact_of_lt hupper, shlExact_of_lt ?_⟩, fun hover => ?_, fun s hs hle hnext => ?_⟩
  · rw [toNat_one hd, Nat.one_mul, ← hadder]
    exact BitVec.isLt _
  · obtain ⟨k, hk, -⟩ := shift_pos hupper hlt hover
    rw [hk, Nat.pow_succ] at hcopyd hadder
    rw [hk]
    refine ⟨shrExact_of_dvd ?_, shrExact_of_dvd ?_⟩
    · rw [hcopyd, ← Nat.mul_assoc]
      exact Nat.dvd_mul_left ..
    · rw [hadder]
      exact Nat.dvd_mul_left ..
  · obtain ⟨k, hk⟩ := (hs.inv hbits hd hlt).before_last hle hnext
    refine ⟨shrExact_of_dvd ?_, shrExact_of_dvd ?_⟩
    · rw [hk.copyd, Nat.pow_succ 2 k, ← Nat.mul_assoc]
      exact Nat.dvd_mul_left ..
    · rw [hk.adder, Nat.pow_succ 2 k]
      exact Nat.dvd_mul_left ..

end Exact

/-- The last iteration shifts the bit of the adder out. -/
theorem udivmod256_shifts_adder_out :
    ∃ s, Visits bits256 3 2 s ∧ 2 ≤ s.r ∧ ¬ ShrExact s.adder 1 :=
  ⟨aligned bits256 3 2, .start, by decide, by unfold ShrExact; decide⟩

/-- The unsigned divisions -/
theorem udivmod_correct :
    (∀ p ∈ tests, ∀ v : BitVec 64, v &&& p.1 = 0 → ShlExact v p.2) ∧
    (∀ dividend divisor : BitVec 128, Returns dividend divisor (udivmod128 dividend divisor) ∧
      (divisor ≠ 0 → dividend ≠ 0 → ∀ x s, BitVisits dividend divisor (x + 1) s →
        ShlExact s.quotient 1 ∧ ShlExact s.remainder 1)) ∧
    (∀ dividend divisor : BitVec 256,
      (∃ o, Fuel.Settles (fun fuel => udivmod256 fuel dividend divisor) o ∧ Returns dividend divisor o) ∧
      (divisor ≠ 0 → divisor < dividend → WideExact bits256 dividend divisor)) ∧
    (∀ dividend divisor : BitVec 512,
      (∃ o, Fuel.Settles (fun fuel => udivmod512 fuel dividend divisor) o ∧ Returns dividend divisor o) ∧
      (divisor ≠ 0 → divisor < dividend → WideExact bits512 dividend divisor)) := by
  refine ⟨fun p hp v => tests_exact hp, fun dividend divisor => ⟨udivmod128_returns dividend divisor, ?_⟩,
    fun dividend divisor => ⟨udivmodWide_returns (fun _ => bits256_eq_log2) dividend divisor, ?_⟩,
    fun dividend divisor => ⟨udivmodWide_returns (fun _ => bits512_eq_log2) dividend divisor, ?_⟩⟩
  · exact fun hdivisor hdividend x s hs => hs.exact hdividend hdivisor
  · exact wideExact fun _ => bits256_eq_log2
  · exact wideExact fun _ => bits512_eq_log2

end Solang.Stdlib.BigInt
