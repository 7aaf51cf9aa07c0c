import Solang.Lib.Fuel
import Solang.Emit.Math

/-!
# Powers are exact

The loop keeps the product of the result and the power of the base that is left. An intermediate square
that does not fit is a factor of that product, so that the product does not fit either: the result has no
sign when its magnitude is one, and the base is squared only when there is a bit of the exponent left.
-/

namespace Solang.Emit.Math

open Llvm

variable {bits : Nat}

namespace PowerLoop

/-- What is left of the power, with the result -/
def total (signed : Bool) (s : PowerLoop bits) : Int := read signed s.result * read signed s.base ^ s.exp.toNat

/-- The result is a power of the integer that the base is a power of. -/
def Inv (signed : Bool) (s : PowerLoop bits) : Prop :=
  read signed s.result = 1 ∨ (read signed s.base).natAbs ≤ 1 ∨ 2 ≤ (read signed s.result).natAbs

/-- The exponent that the next iteration sees -/
theorem exp_eq (exp : BitVec bits) :
    exp.toNat = 2 * (exp >>> 1).toNat + if exp.getLsbD 0 = true then 1 else 0 := by
  rw [BitVec.toNat_ushiftRight, Nat.shiftRight_eq_div_pow, BitVec.getLsbD, Nat.testBit_zero, pow_one]
  split
  next h =>
    have hodd := of_decide_eq_true h
    omega
  next h =>
    have heven := of_decide_eq_false (Bool.not_eq_true _ ▸ h)
    omega

theorem exp_decreases {exp : BitVec bits} (h : exp >>> 1 ≠ 0) : (exp >>> 1).toNat < exp.toNat := by
  have hne : (exp >>> 1).toNat ≠ 0 := fun h0 => h (BitVec.eq_of_toNat_eq h0)
  rw [exp_eq exp]
  omega

/-- Every iteration from `P` ends with `o`, or goes on to `P`. -/
theorem run_settles {overflowing signed : Bool} {P : PowerLoop bits → Prop} {o : Outcome (BitVec bits)}
    (hstep : ∀ s, P s → (∃ r, s.step overflowing signed = .value (.inl r) ∧ o = .value r) ∨
      (s.step overflowing signed = .abort ∧ o = .abort) ∨
      ∃ s', s.step overflowing signed = .value (.inr s') ∧ P s' ∧ s'.exp.toNat < s.exp.toNat)
    (s : PowerLoop bits) (hs : P s) : Fuel.Settles (fun fuel => run overflowing signed fuel s) o := by
  induction hn : s.exp.toNat using Nat.strong_induction_on generalizing s with
  | _ n ih =>
    rcases hstep s hs with ⟨r, hr, rfl⟩ | ⟨hr, rfl⟩ | ⟨s', hr, hs', hlt⟩
    · apply Fuel.settles_at 1
      intro fuel
      rw [run, hr]
    · apply Fuel.settles_at 1
      intro fuel
      rw [run, hr]
    · refine (ih s'.exp.toNat (hn ▸ hlt) s' hs' rfl).succ fun fuel => ?_
      rw [run, hr]

/-! ## Checked -/

section Checked

variable {signed : Bool}

theorem fits_of_le_one {v : Int} (hbits : 1 < bits) (hnonneg : 0 ≤ v) (h : v ≤ 1) :
    Fits signed bits v := by
  have hpow : (2 : Int) ^ 1 ≤ 2 ^ (bits - 1) := pow_le_pow_right₀ (by decide) (by omega)
  have hpow' : (2 : Int) ^ 1 ≤ 2 ^ bits := pow_le_pow_right₀ (by decide) (by omega)
  cases signed with
  | true => exact fits_signed.mpr ⟨by omega, by omega⟩
  | false => exact fits_unsigned.mpr ⟨by omega, by omega⟩

/-- A factor of an integer that fits, when the other one is not a sign -/
theorem fits_of_mul {r s : Int} (hs : 0 < s) (hr : r = 1 ∨ 2 ≤ r.natAbs) (h : Fits signed bits (r * s)) :
    Fits signed bits s := by
  by_cases hneg : r < 0
  · cases signed with
    | false => exact absurd (fits_unsigned.mp h).1 (not_le.mpr (mul_neg_of_neg_of_pos hneg hs))
    | true =>
      -- twice the factor is in the range below zero
      obtain ⟨hlow, -⟩ := fits_signed.mp h
      have hmul : r * s ≤ -2 * s := mul_le_mul_of_nonneg_right (by omega) hs.le
      exact fits_signed.mpr ⟨by omega, by omega⟩
  · rw [mul_comm] at h
    exact h.of_mul_pos (by omega)

/-- An intermediate square that the result needs fits when the result does. -/
theorem fits_square {r b : Int} {e : Nat} (hinv : r = 1 ∨ b.natAbs ≤ 1 ∨ 2 ≤ r.natAbs) (hbits : 1 < bits)
    (he : e ≠ 0) (h : Fits signed bits (r * (b * b) ^ e)) : Fits signed bits (b * b) := by
  by_cases hb : b.natAbs ≤ 1
  · have hcases : b = -1 ∨ b = 0 ∨ b = 1 := by omega
    apply fits_of_le_one hbits
    · exact mul_self_nonneg b
    · rcases hcases with rfl | rfl | rfl <;> decide
  · have hsquare : 0 < b * b := mul_self_pos.mpr (by omega)
    obtain ⟨k, rfl⟩ := Nat.exists_eq_succ_of_ne_zero he
    rw [pow_succ', ← mul_assoc] at h
    exact fits_of_mul hsquare (by tauto) (h.of_mul_pos (pow_pos hsquare k))

/-- The product with the result fits when what it is multiplied with later is a square. -/
theorem fits_product {v b : Int} {e : Nat} (hv : b = 0 → v = 0) (hbits : 1 < bits)
    (h : Fits signed bits (v * (b * b) ^ e)) : Fits signed bits v := by
  by_cases hb : b = 0
  · rw [hv hb]
    exact fits_of_le_one hbits le_rfl (by decide)
  · exact h.of_mul_pos (pow_pos (mul_self_pos.mpr hb) e)

/-- The result after the bit of the exponent -/
def next (signed : Bool) (s : PowerLoop bits) : Int :=
  if s.exp.getLsbD 0 then read signed s.result * read signed s.base else read signed s.result

theorem total_eq (s : PowerLoop bits) :
    s.total signed = s.next signed * (read signed s.base * read signed s.base) ^ (s.exp >>> 1).toNat := by
  unfold total next
  rw [exp_eq s.exp, pow_add, pow_mul, pow_two]
  split
  · rw [pow_one]
    ring
  · rw [pow_zero, mul_one]

/-- A result that is no sign stays so, unless the base is one. -/
theorem next_inv {s : PowerLoop bits} (hinv : s.Inv signed) :
    s.next signed = 1 ∨ (read signed s.base).natAbs ≤ 1 ∨ 2 ≤ (s.next signed).natAbs := by
  unfold next
  split
  · by_cases hb : (read signed s.base).natAbs ≤ 1
    · exact .inr (.inl hb)
    · rw [Int.natAbs_mul]
      rcases hinv with h | h | h
      · rw [h, Int.natAbs_one, one_mul]
        exact .inr (.inr (by omega))
      · exact absurd h hb
      · have hmul := Nat.mul_le_mul h (show 1 ≤ (read signed s.base).natAbs by omega)
        exact .inr (.inr (by omega))
  · exact hinv

theorem nomultiply_checked (h : bits < 2 ^ 16) (hpos : 0 < bits) (s : PowerLoop bits) :
    s.nomultiply false signed = exactly signed bits (s.next signed) := by
  unfold nomultiply next
  split
  · exact multiply_checked h hpos signed s.result s.base
  · rw [exactly_of_fits (fits_read signed s.result), ofInt_read, Outcome.pure_eq]

variable {v : Int}

theorem step_exact (h : bits < 2 ^ 16) (hbits : 1 < bits) {s : PowerLoop bits} (hinv : s.Inv signed)
    (htotal : s.total signed = v) :
    (∃ r, s.step false signed = .value (.inl r) ∧ exactly signed bits v = .value r) ∨
    (s.step false signed = .abort ∧ exactly signed bits v = .abort) ∨
    ∃ s', s.step false signed = .value (.inr s') ∧ (s'.Inv signed ∧ s'.total signed = v) ∧
      s'.exp.toNat < s.exp.toNat := by
  have hpos : 0 < bits := by omega
  have hzero : read signed s.base = 0 → s.next signed = 0 ∨ s.exp.getLsbD 0 = false := by
    intro hb
    unfold next
    split
    · rw [hb, mul_zero]
      exact .inl rfl
    next hbit => exact .inr (by simpa using hbit)
  rw [total_eq] at htotal
  unfold step
  rw [nomultiply_checked h hpos, multiply_checked h hpos]
  dsimp only
  by_cases hnext : Fits signed bits (s.next signed)
  · rw [exactly_of_fits hnext, Outcome.value_bind]
    by_cases hlast : s.exp >>> 1 = 0
    · -- the last bit of the exponent
      have hv : s.next signed = v := by
        rw [← htotal, hlast]
        simp
      rw [if_pos hlast, ← hv, exactly_of_fits hnext]
      exact .inl ⟨_, rfl, rfl⟩
    · have hne : (s.exp >>> 1).toNat ≠ 0 := fun h0 => hlast (BitVec.eq_of_toNat_eq h0)
      rw [if_neg hlast]
      by_cases hsquare : Fits signed bits (read signed s.base * read signed s.base)
      · rw [exactly_of_fits hsquare, Outcome.value_bind]
        refine .inr (.inr ⟨_, rfl, ⟨?_, ?_⟩, exp_decreases hlast⟩)
        · unfold Inv
          dsimp only
          rw [read_ofInt hpos hnext, read_ofInt hpos hsquare]
          rcases next_inv hinv with h1 | h1 | h1
          · exact .inl h1
          · refine .inr (.inl ?_)
            rw [Int.natAbs_mul]
            exact Nat.mul_le_mul h1 h1
          · exact .inr (.inr h1)
        · unfold total
          dsimp only
          rw [read_ofInt hpos hnext, read_ofInt hpos hsquare, htotal]
      · have hv : ¬ Fits signed bits v := fun hfits =>
          hsquare (fits_square (next_inv hinv) hbits hne (htotal ▸ hfits))
        rw [exactly_of_not_fits hsquare, exactly_of_not_fits hv]
        exact .inr (.inl ⟨rfl, rfl⟩)
  · have hv : ¬ Fits signed bits v := by
      intro hfits
      refine hnext (fits_product (fun hb => ?_) hbits (htotal ▸ hfits))
      rcases hzero hb with h0 | hbit
      · exact h0
      · refine absurd ?_ hnext
        unfold next
        rw [if_neg (by rw [hbit]; exact Bool.false_ne_true)]
        exact fits_read signed s.result
    rw [exactly_of_not_fits hnext, exactly_of_not_fits hv]
    exact .inr (.inl ⟨rfl, rfl⟩)

theorem run_exact (h : bits < 2 ^ 16) (hbits : 1 < bits) {s : PowerLoop bits} (hinv : s.Inv signed) :
    Fuel.Settles (fun fuel => run false signed fuel s) (exactly signed bits (s.total signed)) :=
  run_settles (fun _ hs => step_exact h hbits hs.1 hs.2) s ⟨hinv, rfl⟩

end Checked

/-! ## Unchecked -/

variable {signed : Bool}

theorem nomultiply_unchecked (h : bits < 2 ^ 16) (s : PowerLoop bits) :
    s.nomultiply true signed = .value (BitVec.ofInt bits (s.next signed)) := by
  unfold nomultiply next
  split
  · rw [multiply_unchecked h, BitVec.ofInt_mul, ofInt_read, ofInt_read]
  · rw [ofInt_read, Outcome.pure_eq]

theorem step_wraps (h : bits < 2 ^ 16) {s : PowerLoop bits} {x : BitVec bits}
    (htotal : BitVec.ofInt bits (s.total signed) = x) :
    s.step true signed = .value (.inl x) ∨
    ∃ s', s.step true signed = .value (.inr s') ∧ BitVec.ofInt bits (s'.total signed) = x ∧
      s'.exp.toNat < s.exp.toNat := by
  rw [total_eq] at htotal
  unfold step
  rw [nomultiply_unchecked h, Outcome.value_bind, multiply_unchecked h]
  dsimp only
  by_cases hlast : s.exp >>> 1 = 0
  · rw [if_pos hlast, ← htotal, hlast]
    simp
  · rw [if_neg hlast, Outcome.value_bind]
    refine .inr ⟨_, rfl, ?_, exp_decreases hlast⟩
    rw [← htotal, total]
    simp only [BitVec.ofInt_mul, ofInt_pow, ofInt_read]

theorem run_wraps (h : bits < 2 ^ 16) (signed : Bool) (s : PowerLoop bits) :
    Fuel.Settles (fun fuel => run true signed fuel s) (.value (BitVec.ofInt bits (s.total signed))) := by
  refine run_settles (fun s' (hs : BitVec.ofInt bits (s'.total signed) = _) => ?_) s rfl
  rcases step_wraps h hs with hx | hnext
  · exact .inl ⟨_, hx, rfl⟩
  · exact .inr (.inr hnext)

end PowerLoop

/-- The power of the integers, modulo the width or if it is in the range. An exponent is read without a
sign. The loop ends. -/
theorem power_exact (bits : Nat) (hbits : 1 < bits) (h : bits < 2 ^ 16) (signed : Bool)
    (base exp : BitVec bits) :
    (Fits signed bits (read signed base ^ exp.toNat) → ∃ res, read signed res = read signed base ^ exp.toNat ∧
      Fuel.Settles (fun fuel => power false signed fuel base exp) (.value res)) ∧
    (¬ Fits signed bits (read signed base ^ exp.toNat) →
      Fuel.Settles (fun fuel => power false signed fuel base exp) .abort) ∧
    ∃ res, read signed res ≡ read signed base ^ exp.toNat [ZMOD 2 ^ bits] ∧
      Fuel.Settles (fun fuel => power true signed fuel base exp) (.value res) := by
  have hone : read signed (1 : BitVec bits) = 1 := by
    have hfits : Fits signed bits 1 := PowerLoop.fits_of_le_one hbits zero_le_one le_rfl
    simpa using read_ofInt (by omega) hfits
  have htotal : PowerLoop.total signed ⟨base, exp, 1⟩ = read signed base ^ exp.toNat := by
    rw [PowerLoop.total, hone, one_mul]
  have hchecked := PowerLoop.run_exact h hbits (show PowerLoop.Inv signed ⟨base, exp, 1⟩ from .inl hone)
  have hunchecked := PowerLoop.run_wraps h signed ⟨base, exp, 1⟩
  rw [htotal] at hchecked hunchecked
  refine ⟨fun hfits => ?_, fun hfits => ?_, _, read_ofInt_modEq signed _, hunchecked⟩
  · rw [exactly_of_fits hfits] at hchecked
    exact ⟨_, read_ofInt (by omega) hfits, hchecked⟩
  · rw [exactly_of_not_fits hfits] at hchecked
    exact hchecked

/-- The least value of 72 bits is a power of minus two, and its square is out of the range. -/
theorem power_exact_least :
    ∃ res : BitVec 72, read true res = read true (-2 : BitVec 72) ^ (71 : BitVec 72).toNat ∧
      Fuel.Settles (fun fuel => power false true fuel (-2 : BitVec 72) 71) (.value res) :=
  (power_exact 72 (by decide) (by decide) true (-2) 71).1 (by decide)

end Solang.Emit.Math
