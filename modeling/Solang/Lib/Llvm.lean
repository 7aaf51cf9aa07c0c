import Mathlib.Data.Int.ModEq
import Mathlib.Tactic.Linarith
import Mathlib.Tactic.Positivity

/-!
# LLVM instructions on integers

The instructions whose result depends on how the bits are read, and those that have no result for some
operands. A run of instructions comes to a value, to an error, or to an instruction that is undefined.
-/

namespace Llvm

/-- What a run of instructions comes to. A poison value is undefined where it is made. -/
inductive Outcome (α : Type) where
  | value (a : α)
  | abort
  | undefined
  deriving DecidableEq

namespace Outcome

variable {α β : Type}

def bind : Outcome α → (α → Outcome β) → Outcome β
  | value a, f => f a
  | abort, _ => abort
  | undefined, _ => undefined

instance : Monad Outcome where
  pure := value
  bind := bind

@[simp] theorem pure_eq (a : α) : (pure a : Outcome α) = value a := rfl

@[simp] theorem value_bind (a : α) (f : α → Outcome β) : value a >>= f = f a := rfl

end Outcome

variable {w : Nat} {signed : Bool}

/-! ## Reading bits -/

/-- The integer that the bits stand for -/
def read (signed : Bool) (x : BitVec w) : Int := if signed then x.toInt else x.toNat

/-- The integer is one of those that the bits stand for. -/
def Fits (signed : Bool) (w : Nat) (v : Int) : Prop :=
  if signed then -2 ^ (w - 1) ≤ v ∧ v < 2 ^ (w - 1) else 0 ≤ v ∧ v < 2 ^ w

instance (signed : Bool) (w : Nat) (v : Int) : Decidable (Fits signed w v) := by
  unfold Fits
  exact inferInstance

variable {v : Int}

theorem fits_signed : Fits true w v ↔ -2 ^ (w - 1) ≤ v ∧ v < 2 ^ (w - 1) := Iff.rfl

theorem fits_unsigned : Fits false w v ↔ 0 ≤ v ∧ v < 2 ^ w := Iff.rfl

@[simp] theorem read_signed (x : BitVec w) : read true x = x.toInt := rfl

@[simp] theorem read_unsigned (x : BitVec w) : read false x = x.toNat := rfl

theorem fits_read (signed : Bool) (x : BitVec w) : Fits signed w (read signed x) := by
  cases signed with
  | true => exact fits_signed.mpr ⟨x.le_toInt, BitVec.toInt_lt⟩
  | false =>
    have hlt : (x.toNat : Int) < 2 ^ w := by exact_mod_cast x.isLt
    exact fits_unsigned.mpr ⟨Int.natCast_nonneg _, hlt⟩

@[simp] theorem ofInt_read (signed : Bool) (x : BitVec w) : BitVec.ofInt w (read signed x) = x := by
  cases signed with
  | true => exact BitVec.ofInt_toInt
  | false => simp

theorem read_ofInt (hw : 0 < w) (h : Fits signed w v) : read signed (BitVec.ofInt w v) = v := by
  cases signed with
  | true => exact BitVec.toInt_ofInt_eq_self hw h.1 h.2
  | false =>
    obtain ⟨hnonneg, hlt⟩ := fits_unsigned.mp h
    have hcast : ((2 ^ w : Nat) : Int) = 2 ^ w := by push_cast; rfl
    rw [read_unsigned, BitVec.toNat_ofInt, hcast, Int.emod_eq_of_lt hnonneg hlt, Int.toNat_of_nonneg hnonneg]

/-- An integer that does not fit wraps around. -/
theorem read_ofInt_modEq (signed : Bool) (v : Int) : read signed (BitVec.ofInt w v) ≡ v [ZMOD 2 ^ w] := by
  have hcast : ((2 ^ w : Nat) : Int) = 2 ^ w := by push_cast; rfl
  have hpos : (0 : Int) < 2 ^ w := by positivity
  cases signed with
  | true =>
    rw [read_signed, BitVec.toInt_ofInt, ← hcast]
    exact Int.bmod_emod
  | false =>
    rw [read_unsigned, BitVec.toNat_ofInt, hcast, Int.toNat_of_nonneg (Int.emod_nonneg _ hpos.ne')]
    exact Int.mod_modEq v (2 ^ w)

theorem ofInt_pow (v : Int) (n : Nat) : BitVec.ofInt w (v ^ n) = BitVec.ofInt w v ^ n := by
  induction n with
  | zero => rw [pow_zero, BitVec.pow_zero, BitVec.ofInt_ofNat]
  | succ n ih => rw [pow_succ, BitVec.ofInt_mul, ih, BitVec.pow_succ]

/-- The lowest bits of an integer -/
theorem setWidth_ofInt {n : Nat} (h : n ≤ w) (v : Int) : (BitVec.ofInt w v).setWidth n = BitVec.ofInt n v := by
  apply BitVec.eq_of_toNat_eq
  have hdvd : ((2 ^ n : Nat) : Int) ∣ (2 ^ w : Nat) := by exact_mod_cast Nat.pow_dvd_pow 2 h
  have hnonneg : 0 ≤ v % (2 ^ w : Nat) := Int.emod_nonneg _ (by positivity)
  rw [BitVec.toNat_setWidth, BitVec.toNat_ofInt, BitVec.toNat_ofInt, ← Int.emod_emod_of_dvd v hdvd,
    Int.toNat_emod hnonneg (Int.natCast_nonneg _), Int.toNat_natCast]

theorem read_eq_zero {x : BitVec w} : read signed x = 0 ↔ x = 0 := by
  cases signed with
  | true =>
    rw [read_signed, ← @BitVec.toInt_zero w]
    exact BitVec.toInt_inj
  | false => simp [BitVec.toNat_eq]

/-- A multiple of the same sign that fits -/
theorem Fits.of_mul_pos {k : Int} (h : Fits signed w (v * k)) (hk : 0 < k) : Fits signed w v := by
  cases signed with
  | true =>
    obtain ⟨hlow, hhigh⟩ := fits_signed.mp h
    have hpos : (0 : Int) < 2 ^ (w - 1) := by positivity
    by_cases hv : 0 ≤ v
    · have hmul : v * 1 ≤ v * k := mul_le_mul_of_nonneg_left (by omega) hv
      exact fits_signed.mpr ⟨by omega, by omega⟩
    · have hmul : v * k ≤ v * 1 := mul_le_mul_of_nonpos_left (by omega) (by omega)
      exact fits_signed.mpr ⟨by omega, by omega⟩
  | false =>
    obtain ⟨hlow, hhigh⟩ := fits_unsigned.mp h
    have hv : 0 ≤ v := nonneg_of_mul_nonneg_left hlow hk
    have hmul : v * 1 ≤ v * k := mul_le_mul_of_nonneg_left (by omega) hv
    exact fits_unsigned.mpr ⟨hv, by omega⟩

/-- An integer that fits without its sign fits with it when the sign bit is its sign. -/
theorem fits_iff_msb (hw : 0 < w) :
    (decide (v < 0) = (BitVec.ofInt w v).msb ∧ v.natAbs < 2 ^ w) ↔ Fits true w v := by
  have hpow : (2 : Int) ^ w = 2 * 2 ^ (w - 1) := by
    rw [← pow_succ', Nat.sub_add_cancel hw]
  have hcast : ((2 ^ w : Nat) : Int) = 2 ^ w := by push_cast; rfl
  have hmsb : (BitVec.ofInt w v).msb = decide (2 ^ (w - 1) ≤ v % 2 ^ w) := by
    have hnonneg : 0 ≤ v % 2 ^ w := Int.emod_nonneg _ (by positivity)
    have hcast' : ((2 ^ (w - 1) : Nat) : Int) = 2 ^ (w - 1) := by push_cast; rfl
    rw [BitVec.msb_eq_decide, BitVec.toNat_ofInt, hcast, decide_eq_decide]
    omega
  have hpos : (0 : Int) < 2 ^ (w - 1) := by positivity
  rw [hmsb, decide_eq_decide, fits_signed]
  by_cases hv : v < 0
  · by_cases hlt : -2 ^ w < v
    · have hmod : v % 2 ^ w = v + 2 ^ w := by
        rw [← Int.add_emod_right, Int.emod_eq_of_lt (by omega) (by omega)]
      rw [hmod]
      omega
    · omega
  · by_cases hlt : v < 2 ^ w
    · rw [Int.emod_eq_of_lt (by omega) hlt]
      omega
    · omega

/-- The integer, in bits, or an error when it does not fit -/
def exactly (signed : Bool) (w : Nat) (v : Int) : Outcome (BitVec w) :=
  if Fits signed w v then .value (BitVec.ofInt w v) else .abort

theorem exactly_of_fits (h : Fits signed w v) : exactly signed w v = .value (BitVec.ofInt w v) :=
  if_pos h

theorem exactly_of_not_fits (h : ¬ Fits signed w v) : exactly signed w v = .abort := if_neg h

/-! ## Arithmetic with overflow -/

inductive BinaryOp where
  | add
  | subtract
  | multiply
  deriving DecidableEq

namespace BinaryOp

/-- `add`, `sub` and `mul` -/
def apply : BinaryOp → BitVec w → BitVec w → BitVec w
  | add, x, y => x + y
  | subtract, x, y => x - y
  | multiply, x, y => x * y

/-- The flag of `llvm.sadd.with.overflow`, `llvm.umul.with.overflow` and so on -/
def overflows : BinaryOp → Bool → BitVec w → BitVec w → Bool
  | add, true, x, y => x.saddOverflow y
  | add, false, x, y => x.uaddOverflow y
  | subtract, true, x, y => x.ssubOverflow y
  | subtract, false, x, y => x.usubOverflow y
  | multiply, true, x, y => x.smulOverflow y
  | multiply, false, x, y => x.umulOverflow y

/-- The operation on the integers -/
def meaning : BinaryOp → Int → Int → Int
  | add, x, y => x + y
  | subtract, x, y => x - y
  | multiply, x, y => x * y

variable (op : BinaryOp) (signed : Bool) (x y : BitVec w)

theorem apply_eq : op.apply x y = BitVec.ofInt w (op.meaning (read signed x) (read signed y)) := by
  cases op with
  | add => rw [meaning, BitVec.ofInt_add, ofInt_read, ofInt_read, apply]
  | subtract =>
    rw [meaning, sub_eq_add_neg, BitVec.ofInt_add, BitVec.ofInt_neg, ofInt_read, ofInt_read,
      ← BitVec.sub_eq_add_neg, apply]
  | multiply => rw [meaning, BitVec.ofInt_mul, ofInt_read, ofInt_read, apply]

theorem overflows_iff :
    op.overflows signed x y = true ↔ ¬ Fits signed w (op.meaning (read signed x) (read signed y)) := by
  cases signed with
  | true =>
    rw [fits_signed, not_and_or, not_le, not_lt, or_comm]
    cases op <;> simp [overflows, meaning, BitVec.saddOverflow, BitVec.ssubOverflow, BitVec.smulOverflow]
  | false =>
    have hx := x.isLt
    have hpos : (0 : Int) < 2 ^ w := by positivity
    have hcast : ((2 ^ w : Nat) : Int) = 2 ^ w := by push_cast; rfl
    rw [fits_unsigned, not_and_or, not_le, not_lt]
    cases op with
    | add =>
      simp only [overflows, meaning, BitVec.uaddOverflow, read_unsigned, decide_eq_true_eq, ge_iff_le]
      omega
    | subtract =>
      simp only [overflows, meaning, BitVec.usubOverflow, read_unsigned, decide_eq_true_eq]
      omega
    | multiply =>
      simp only [overflows, meaning, BitVec.umulOverflow, read_unsigned, decide_eq_true_eq, ge_iff_le]
      rw [← Int.natCast_mul, ← hcast, Int.ofNat_le]
      omega

end BinaryOp

/-! ## Division -/

/-- The quotient is not one of the integers that the bits stand for. -/
def sdivOverflow (x y : BitVec w) : Prop := x = BitVec.intMin w ∧ y = -1

instance (x y : BitVec w) : Decidable (sdivOverflow x y) := by
  unfold sdivOverflow
  exact inferInstance

def udiv (x y : BitVec w) : Outcome (BitVec w) := if y = 0 then .undefined else .value (x / y)

def urem (x y : BitVec w) : Outcome (BitVec w) := if y = 0 then .undefined else .value (x % y)

def sdiv (x y : BitVec w) : Outcome (BitVec w) :=
  if y = 0 ∨ sdivOverflow x y then .undefined else .value (x.sdiv y)

def srem (x y : BitVec w) : Outcome (BitVec w) :=
  if y = 0 ∨ sdivOverflow x y then .undefined else .value (x.srem y)

/-- The quotient, truncated -/
theorem ofInt_tdiv (signed : Bool) (x y : BitVec w) :
    BitVec.ofInt w ((read signed x).tdiv (read signed y)) = if signed then x.sdiv y else x / y := by
  cases signed with
  | true =>
    refine BitVec.toInt_inj.mp ?_
    rw [if_pos rfl, BitVec.toInt_sdiv, BitVec.toInt_ofInt]
    rfl
  | false =>
    rw [if_neg Bool.false_ne_true, read_unsigned, read_unsigned, ← Int.ofNat_tdiv, BitVec.ofInt_natCast,
      ← BitVec.toNat_udiv, BitVec.ofNat_toNat, BitVec.setWidth_eq]

/-- The remainder, with the sign of the dividend -/
theorem ofInt_tmod (signed : Bool) (x y : BitVec w) :
    BitVec.ofInt w ((read signed x).tmod (read signed y)) = if signed then x.srem y else x % y := by
  cases signed with
  | true => rw [if_pos rfl, read_signed, read_signed, ← BitVec.toInt_srem, BitVec.ofInt_toInt]
  | false =>
    rw [if_neg Bool.false_ne_true, read_unsigned, read_unsigned, ← Int.ofNat_tmod, BitVec.ofInt_natCast,
      ← BitVec.toNat_umod, BitVec.ofNat_toNat, BitVec.setWidth_eq]

/-! ## Shifts -/

def shl (x y : BitVec w) : Outcome (BitVec w) := if y.toNat < w then .value (x <<< y) else .undefined

def lshr (x y : BitVec w) : Outcome (BitVec w) := if y.toNat < w then .value (x >>> y) else .undefined

def ashr (x y : BitVec w) : Outcome (BitVec w) := if y.toNat < w then .value (x.sshiftRight' y) else .undefined

/-- A shift to the left multiplies. -/
theorem ofInt_mul_pow (signed : Bool) (x : BitVec w) (n : Nat) :
    BitVec.ofInt w (read signed x * 2 ^ n) = x <<< n := by
  rw [BitVec.shiftLeft_eq_mul_twoPow, BitVec.ofInt_mul, ofInt_read]
  congr 1
  refine BitVec.eq_of_toNat_eq ?_
  rw [BitVec.toNat_twoPow, BitVec.toNat_ofInt]
  exact_mod_cast rfl

/-- A shift to the right divides, and rounds down. -/
theorem ofInt_div_pow (signed : Bool) (x : BitVec w) (n : Nat) :
    BitVec.ofInt w (read signed x / 2 ^ n) = if signed then x.sshiftRight n else x >>> n := by
  cases signed with
  | true =>
    have hcast : ((2 ^ n : Nat) : Int) = 2 ^ n := by push_cast; rfl
    rw [if_pos rfl, read_signed, ← hcast, ← Int.shiftRight_eq_div_pow, ← BitVec.toInt_sshiftRight,
      BitVec.ofInt_toInt]
  | false =>
    refine BitVec.eq_of_toNat_eq ?_
    rw [if_neg Bool.false_ne_true, read_unsigned, BitVec.toNat_ushiftRight, Nat.shiftRight_eq_div_pow]
    have hcast : ((x.toNat : Int) / 2 ^ n) = ((x.toNat / 2 ^ n : Nat) : Int) := by push_cast; rfl
    have hlt : x.toNat / 2 ^ n < 2 ^ w := lt_of_le_of_lt (Nat.div_le_self _ _) x.isLt
    rw [hcast, BitVec.ofInt_natCast, BitVec.toNat_ofNat, Nat.mod_eq_of_lt hlt]

end Llvm
