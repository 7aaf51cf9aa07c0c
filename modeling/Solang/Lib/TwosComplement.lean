import Mathlib.Tactic.Linarith

/-!
# Two's complement

Integers modulo a power of two, read with a sign (`Int.bmod`) or without one (`%`): where the operations
on the bits agree with the division that truncates.
-/

namespace TwosComplement

variable {x y : Int} {n w : Nat}

theorem bmod_eq_self_iff (n : Nat) (x : Int) :
    x.bmod (2 ^ (n + 1)) = x ↔ -2 ^ n ≤ x ∧ x < 2 ^ n := by
  have hpow : ((2 ^ (n + 1) : Nat) : Int) = 2 * 2 ^ n := by
    rw [Int.natCast_pow, pow_succ]
    exact mul_comm _ _
  have hpos : (0 : Int) < 2 ^ n := by positivity
  rw [Int.bmod_eq_iff (by positivity), hpow]
  constructor
  · rintro ⟨hlow, hhigh, -⟩
    omega
  · rintro ⟨hlow, hhigh⟩
    exact ⟨by omega, by omega, by simp⟩

theorem bmod_of_le (h : n ≤ w) : (x.bmod (2 ^ w)).bmod (2 ^ n) = x.bmod (2 ^ n) :=
  Int.bmod_bmod_of_dvd (Nat.pow_dvd_pow 2 h)

theorem emod_of_le (h : n ≤ w) : x % 2 ^ w % 2 ^ n = x % 2 ^ n :=
  Int.emod_emod_of_dvd x (pow_dvd_pow 2 h)

/-- A shift to the right rounds down. -/
theorem ediv_eq_tdiv_iff (hy : 0 < y) : x / y = x.tdiv y ↔ 0 ≤ x ∨ y ∣ x := by
  rw [Int.tdiv_eq_ediv, Int.sign_eq_one_of_pos hy]
  split <;> simp_all

/-- A mask takes the remainder that is not negative. -/
theorem emod_eq_tmod_iff (hy : 0 < y) : x % y = x.tmod y ↔ 0 ≤ x ∨ y ∣ x := by
  rw [Int.tmod_eq_emod]
  split
  next h => simp [h]
  next h =>
    constructor
    · intro heq
      omega
    · intro h'
      exact absurd h' h

/-! ## Bounds -/

theorem ediv_between (x : Int) (hy : 0 < y) : min x 0 ≤ x / y ∧ x / y ≤ max x 0 := by
  by_cases hx : 0 ≤ x
  · have hnonneg := Int.ediv_nonneg hx hy.le
    have hle := Int.ediv_le_self y hx
    omega
  · have hmul : x * y ≤ x * 1 := mul_le_mul_of_nonpos_left (by omega) (by omega)
    have hle : x ≤ x / y := (Int.le_ediv_iff_mul_le hy).mpr (by omega)
    have hneg := Int.ediv_neg_of_neg_of_pos (by omega : x < 0) hy
    omega

theorem tdiv_between (x : Int) (hy : 0 < y) : min x 0 ≤ x.tdiv y ∧ x.tdiv y ≤ max x 0 := by
  by_cases hx : 0 ≤ x
  · rw [Int.tdiv_eq_ediv_of_nonneg hx]
    exact ediv_between x hy
  · have hneg : x.tdiv y = -(-x / y) := by
      rw [← Int.tdiv_eq_ediv_of_nonneg (by omega), Int.neg_tdiv, neg_neg]
    have h := ediv_between (-x) hy
    omega

theorem tmod_between (x y : Int) : min x 0 ≤ x.tmod y ∧ x.tmod y ≤ max x 0 := by
  by_cases hx : 0 ≤ x
  · have hle := Int.natAbs_tmod x y
    have hmod := Nat.mod_le x.natAbs y.natAbs
    have hnonneg := Int.tmod_nonneg y hx
    omega
  · have hle := Int.natAbs_tmod x y
    have hmod := Nat.mod_le x.natAbs y.natAbs
    have hneg := Int.tmod_nonneg y (by omega : 0 ≤ -x)
    rw [Int.neg_tmod] at hneg
    omega

/-! ## Borrows -/

theorem add_mod_lt_iff {d b m : Nat} (hd : d < m) (hb : b < m) : (d + b) % m < b ↔ m ≤ d + b := by
  by_cases hle : m ≤ d + b
  · rw [Nat.mod_eq_sub_mod hle, Nat.mod_eq_of_lt (by omega)]
    omega
  · rw [Nat.mod_eq_of_lt (by omega)]
    omega

/-- The borrow of a difference, as `BitVec.getLsbD_add` has the carry of a sum -/
theorem getLsbD_sub_borrow {a b : BitVec w} {i : Nat} (hi : i < w) :
    (a - b).getLsbD i = (a.getLsbD i ^^ (b.getLsbD i ^^ decide (a.toNat % 2 ^ i < b.toNat % 2 ^ i))) := by
  -- the difference and the right operand have a carry where there is a borrow
  have hcarry : BitVec.carry i (a - b) b false = decide (a.toNat % 2 ^ i < b.toNat % 2 ^ i) := by
    have hsum : ((a - b).toNat + b.toNat) % 2 ^ w = a.toNat := by
      rw [← BitVec.toNat_add, BitVec.sub_add_cancel]
    have hmod : ((a - b).toNat % 2 ^ i + b.toNat % 2 ^ i) % 2 ^ i = a.toNat % 2 ^ i := by
      rw [← Nat.add_mod, ← hsum, Nat.mod_mod_of_dvd _ (Nat.pow_dvd_pow 2 hi.le)]
    unfold BitVec.carry
    rw [decide_eq_decide, ← hmod]
    exact (add_mod_lt_iff (Nat.mod_lt _ (by positivity)) (Nat.mod_lt _ (by positivity))).symm
  have hadd : a.getLsbD i = ((a - b).getLsbD i ^^ (b.getLsbD i ^^ BitVec.carry i (a - b) b false)) := by
    rw [← BitVec.getLsbD_add hi, BitVec.sub_add_cancel]
  rw [hadd, hcarry]
  cases (a - b).getLsbD i <;> cases b.getLsbD i <;> cases decide (a.toNat % 2 ^ i < b.toNat % 2 ^ i) <;> rfl

/-! ## The bits above a bound -/

theorem testBit_high_false_iff {p t : Nat} (hp : p < 2 ^ w) :
    (∀ i, t ≤ i → i < w → p.testBit i = false) ↔ p < 2 ^ t := by
  constructor
  · intro hbits
    refine Nat.lt_pow_two_of_testBit p fun i hi => ?_
    by_cases hw : i < w
    · exact hbits i hi hw
    · exact Nat.testBit_lt_two_pow (hp.trans_le (Nat.pow_le_pow_right (by decide) (by omega)))
  · intro hlt i hi _
    exact Nat.testBit_lt_two_pow (hlt.trans_le (Nat.pow_le_pow_right (by decide) hi))

theorem testBit_high_true_iff {p t : Nat} (hp : p < 2 ^ w) :
    (∀ i, t ≤ i → i < w → p.testBit i = true) ↔ 2 ^ w ≤ p + 2 ^ t := by
  -- the bits of the complement are the other ones
  have hcompl := testBit_high_false_iff (t := t) (show 2 ^ w - (p + 1) < 2 ^ w by omega)
  have hbit : ∀ i, i < w → (2 ^ w - (p + 1)).testBit i = !p.testBit i := by
    intro i hi
    rw [Nat.testBit_two_pow_sub_succ hp]
    simp [hi]
  constructor
  · intro hbits
    have hlt := hcompl.mp fun i hi hw => by rw [hbit i hw, hbits i hi hw]; rfl
    omega
  · intro hle i hi hw
    have hfalse := hcompl.mpr (by omega) i hi hw
    rw [hbit i hw] at hfalse
    simpa using hfalse

section Quotient

variable {H : Int} (hH : 2 ≤ H)

theorem emod_two_mul_of_nonneg (hx : 0 ≤ x) (hlt : x < H) : x % (2 * H) = x :=
  Int.emod_eq_of_lt hx (by omega)

theorem emod_two_mul_of_neg (hx : x < 0) (hle : -H ≤ x) : x % (2 * H) = x + 2 * H := by
  rw [← Int.add_emod_right, Int.emod_eq_of_lt (by omega) (by omega)]

include hH

/-- The quotient of the bits of two integers of a width is that of the integers. -/
theorem ediv_emod_eq_tdiv_iff (hx : -H ≤ x ∧ x < H) (hy : -H ≤ y ∧ y < H) (hy0 : y ≠ 0) {q : Int}
    (hq : q = x % (2 * H) / (y % (2 * H))) :
    (if q < H then q else q - 2 * H) = x.tdiv y ↔ y = 1 ∨ x = y ∨ 0 ≤ x ∧ (0 ≤ y ∨ x < -y) := by
  obtain ⟨hxl, hxh⟩ := hx
  obtain ⟨hyl, hyh⟩ := hy
  by_cases hx0 : 0 ≤ x
  · rw [emod_two_mul_of_nonneg hx0 hxh] at hq
    by_cases hypos : 0 ≤ y
    · rw [emod_two_mul_of_nonneg hypos hyh, ← Int.tdiv_eq_ediv_of_nonneg hx0] at hq
      have hle := Int.tdiv_le_self y hx0
      rw [hq, if_pos (by omega)]
      simp [hx0, hypos]
    · rw [emod_two_mul_of_neg (by omega) hyl, Int.ediv_eq_zero_of_lt hx0 (by omega)] at hq
      rw [hq, if_pos (by omega)]
      have hneg : x.tdiv y = -(x / -y) := by
        rw [← Int.tdiv_eq_ediv_of_nonneg hx0, Int.tdiv_neg, neg_neg]
      rw [hneg]
      constructor
      · intro hzero
        have hdiv : x / -y = 0 := by omega
        refine .inr (.inr ⟨hx0, .inr ?_⟩)
        by_contra hle
        have hone := (Int.le_ediv_iff_mul_le (a := 1) (by omega)).mpr (by omega : 1 * -y ≤ x)
        omega
      · intro h
        rw [Int.ediv_eq_zero_of_lt hx0 (by omega)]
        rfl
  · rw [emod_two_mul_of_neg (by omega) hxl] at hq
    by_cases hypos : 0 ≤ y
    · rw [emod_two_mul_of_nonneg hypos hyh] at hq
      by_cases hy1 : y = 1
      · subst hy1
        rw [Int.ediv_one] at hq
        rw [hq, if_neg (by omega), Int.tdiv_one]
        simp
      · -- the quotient is positive, that of the integers is not
        have hlow : 1 ≤ q := by
          rw [hq]
          exact (Int.le_ediv_iff_mul_le (by omega)).mpr (by omega)
        have hhigh : q < H := by
          rw [hq]
          refine (Int.ediv_lt_iff_lt_mul (by omega)).mpr ?_
          have hmul : H * 2 ≤ H * y := mul_le_mul_of_nonneg_left (by omega) (by omega)
          omega
        have hneg : x.tdiv y = -(-x / y) := by
          rw [← Int.tdiv_eq_ediv_of_nonneg (by omega), Int.neg_tdiv, neg_neg]
        have hnonneg : 0 ≤ -x / y := Int.ediv_nonneg (by omega) hypos
        rw [if_pos hhigh]
        constructor
        · intro heq
          omega
        · intro h
          omega
    · rw [emod_two_mul_of_neg (by omega) hyl] at hq
      have hdiv : x.tdiv y = -x / -y := by
        rw [← Int.tdiv_eq_ediv_of_nonneg (by omega), Int.neg_tdiv, Int.tdiv_neg, neg_neg]
      rw [hdiv]
      by_cases hxy : x < y
      · rw [Int.ediv_eq_zero_of_lt (by omega) (by omega)] at hq
        have hone : 1 ≤ -x / -y := (Int.le_ediv_iff_mul_le (by omega)).mpr (by omega)
        rw [hq, if_pos (by omega)]
        constructor
        · intro heq
          omega
        · intro h
          omega
      · have hq1 : q = 1 := by
          rw [hq]
          refine Int.le_antisymm ?_ ((Int.le_ediv_iff_mul_le (by omega)).mpr (by omega))
          have hlt : (x + 2 * H) / (y + 2 * H) < 2 := (Int.ediv_lt_iff_lt_mul (by omega)).mpr (by omega)
          omega
        rw [hq1, if_pos (by omega)]
        constructor
        · intro heq
          refine .inr (.inl ?_)
          by_contra hne
          rw [Int.ediv_eq_zero_of_lt (by omega) (by omega)] at heq
          cases heq
        · intro h
          obtain rfl : x = y := by omega
          exact (Int.ediv_self (by omega)).symm

end Quotient

end TwosComplement
