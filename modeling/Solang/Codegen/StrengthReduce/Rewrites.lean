import Solang.Codegen.StrengthReduce.Meaning
import Solang.Codegen.StrengthReduce.Reduce
import Solang.Lib.TwosComplement

/-!
# The rewrites of integers

Of each rewrite: what it takes from the value sets, and when its result is that of the operation it
replaces. A shift or a mask is not the division or remainder of a negative integer, and 64-bit operations
are not those of wider integers when the result is wider.
-/

namespace Solang.Codegen.StrengthReduce

open TwosComplement

/-- The operations of `expression_reduce` -/
inductive Operation where
  | multiply (overflowing : Bool)
  | divide
  | modulo

/-- The operation of the source for this type -/
def Operation.op (signed : Bool) (ty : Ty) : Operation → BinaryOp
  | multiply overflowing => .multiply ty overflowing
  | divide => if signed then .signedDivide ty else .unsignedDivide ty
  | modulo => if signed then .signedModulo ty else .unsignedModulo ty

/-- What is taken from the value sets -/
def Operation.Trusts (x y : Int) : Operation → Rewrite → Prop
  | _, .keep => True
  | _, .power cmp _ => y = cmp
  | multiply _, _ => True
  | _, .int64 => fitsInt64 x ∧ fitsInt64 y
  | _, .uint64 => fitsUint64 x.toNat ∧ fitsUint64 y.toNat

/-- When the results are the same -/
def Operation.Agrees (ns : Namespace) (ty : Ty) (x y : Int) : Operation → Rewrite → Prop
  | multiply _, .int64 => fitsInt64 (ty.wrap ns (x * y))
  | multiply _, .uint64 => fitsUint64 (ty.wrap ns (x * y)).toNat
  | divide, .int64 => y = 0 ∨ y = 1 ∨ x = y ∨ 0 ≤ x ∧ (0 ≤ y ∨ x < -y)
  | divide, .power cmp _ => ty.isSignedInt ns → 0 ≤ x ∨ cmp ∣ x
  | modulo, .power cmp _ => ty.isSignedInt ns → 0 ≤ x ∨ cmp ∣ x
  | _, _ => True

/-- The right operand is no longer evaluated. -/
def Rewrite.drops : Rewrite → Bool
  | power _ _ => true
  | _ => false

/-- The same of operands that may have no value: one that is dropped has one. -/
def Operation.Keeps (ns : Namespace) (ty : Ty) (left right : Option Int) (o : Operation) (r : Rewrite) :
    Prop :=
  ∀ x, left = some x → (∀ y, right = some y → o.Agrees ns ty x y r) ∧ (r.drops → right.isSome)

variable {ns : Namespace} {ty : Ty} {left : Expression} {x y : Int}

/-! ## Values of a type -/

section Wide

variable (hbits : 128 ≤ ty.bits ns)

theorem wrap_signed (hsigned : ty.isSignedInt ns = true) (v : Int) :
    ty.wrap ns v = v.bmod (2 ^ ty.bits ns) := if_pos hsigned

theorem wrap_unsigned (hsigned : ty.isSignedInt ns = false) (v : Int) :
    ty.wrap ns v = v % 2 ^ ty.bits ns := if_neg (by simp [hsigned])

theorem wrap_int64 (v : Int) : (Ty.int 64).wrap ns v = v.bmod (2 ^ 64) := rfl

theorem wrap_uint64 (v : Int) : (Ty.uint 64).wrap ns v = v % 2 ^ 64 := rfl

theorem fitsInt64_iff (v : Int) : fitsInt64 v ↔ v.bmod (2 ^ 64) = v := by
  rw [bmod_eq_self_iff 63 v]
  simp [fitsInt64]

theorem fitsUint64_iff (hpos : 0 ≤ x) : fitsUint64 x.toNat ↔ x % 2 ^ 64 = x := by
  unfold fitsUint64
  rw [decide_eq_true_eq]
  omega

include hbits

/-- What fits in 64 bits is in the type. -/
theorem wrap_of_fits (hsigned : ty.isSignedInt ns = true) (hx : x.bmod (2 ^ 64) = x) : ty.wrap ns x = x := by
  rw [wrap_signed hsigned, ← hx]
  obtain ⟨n, hn⟩ : ∃ n, ty.bits ns = n + 1 := ⟨ty.bits ns - 1, by omega⟩
  have hle : (2 : Int) ^ 63 ≤ 2 ^ n := pow_le_pow_right₀ (by decide) (by omega)
  obtain ⟨hlow, hhigh⟩ := (bmod_eq_self_iff 63 x).mp hx
  rw [hx, hn, bmod_eq_self_iff]
  omega

end Wide

/-- Bits are cut off once. -/
theorem wrap_narrow {target : Ty} (hle : target.bits ns ≤ ty.bits ns) (v : Int) :
    target.wrap ns (ty.wrap ns v) = target.wrap ns v := by
  refine wrap_congr ?_
  rw [← emod_of_le hle, wrap_emod, emod_of_le hle]

/-! ## Shifts and masks -/

/-- The operation for a power of two -/
def Operation.powerOp (signed : Bool) (ty : Ty) : Operation → BinaryOp
  | multiply _ => .shiftLeft ty
  | divide => .shiftRight ty signed
  | modulo => .bitwiseAnd ty

/-- Its right operand -/
def Operation.powerLiteral (cmp shift : Int) : Operation → Int
  | modulo => cmp - 1
  | _ => shift

section Power

variable {j : Nat}

theorem two_pow_lt (hj : j < ty.bits ns) : (2 : Int) ^ j < 2 ^ ty.bits ns :=
  pow_lt_pow_right₀ (by decide) hj

theorem pattern_shift (hj : j < ty.bits ns) : pattern (ty.bits ns) (ty.wrap ns j) = j := by
  have hlt : (j : Int) < 2 ^ ty.bits ns := by exact_mod_cast hj.trans Nat.lt_two_pow_self
  rw [pattern_wrap, pattern_of_lt (by omega) hlt, Int.toNat_natCast]

theorem pattern_mask (hj : j < ty.bits ns) :
    pattern (ty.bits ns) (ty.wrap ns (2 ^ j - 1)) = 2 ^ j - 1 := by
  have hlt := two_pow_lt hj
  have hpos : (0 : Int) < 2 ^ j := by positivity
  have hcast : ((2 ^ j : Nat) : Int) = 2 ^ j := Int.natCast_pow 2 j
  rw [pattern_wrap, pattern_of_lt (by omega) (by omega)]
  omega

theorem pattern_power (hj : j < ty.bits ns) : pattern (ty.bits ns) (2 ^ j) = 2 ^ j := by
  have hpos : (0 : Int) < 2 ^ j := by positivity
  rw [pattern_of_lt hpos.le (two_pow_lt hj)]
  rfl

/-- A signed integer between one of the type and zero is one of the type. -/
theorem wrap_between {v : Int} (hbits : 0 < ty.bits ns) (hsigned : ty.isSignedInt ns = true)
    (hx : ty.wrap ns x = x) (hv : min x 0 ≤ v ∧ v ≤ max x 0) : ty.wrap ns v = v := by
  obtain ⟨n, hn⟩ : ∃ n, ty.bits ns = n + 1 := ⟨ty.bits ns - 1, by omega⟩
  have hpos : (0 : Int) < 2 ^ n := by positivity
  rw [wrap_signed hsigned, hn, bmod_eq_self_iff] at hx ⊢
  omega

theorem multiply_power (hj : j < ty.bits ns) :
    (BinaryOp.shiftLeft ty).apply ns left.ty x (ty.wrap ns j) = some (ty.wrap ns (x * 2 ^ j)) := by
  simp only [BinaryOp.apply, pattern_shift hj]

theorem divide_power_unsigned (hj : j < ty.bits ns) :
    (BinaryOp.shiftRight ty false).apply ns left.ty x (ty.wrap ns j) =
      (BinaryOp.unsignedDivide ty).apply ns left.ty x (2 ^ j) := by
  simp only [BinaryOp.apply, pattern_shift hj, pattern_power hj]
  rw [if_neg (by positivity), Int.natCast_ediv, pattern_natCast]
  rfl

theorem divide_power_signed (hj : j < ty.bits ns) (hsigned : ty.isSignedInt ns = true)
    (hx : ty.wrap ns x = x) (hy : ty.wrap ns (2 ^ j) = 2 ^ j) :
    (BinaryOp.shiftRight ty true).apply ns left.ty x (ty.wrap ns j) =
      (BinaryOp.signedDivide ty).apply ns left.ty x (2 ^ j) ↔ 0 ≤ x ∨ (2 ^ j : Int) ∣ x := by
  have hpos : (0 : Int) < 2 ^ j := by positivity
  have hbits : 0 < ty.bits ns := by omega
  have hx' := hx
  rw [wrap_signed hsigned] at hx' hy
  simp only [BinaryOp.apply, pattern_shift hj, pattern_power hj, readAs, if_true]
  rw [if_neg (by positivity), hx', hy, Option.some_inj,
    wrap_between hbits hsigned hx (ediv_between x hpos),
    wrap_between hbits hsigned hx (tdiv_between x hpos), ediv_eq_tdiv_iff hpos]

theorem modulo_mask (hj : j < ty.bits ns) : (BinaryOp.bitwiseAnd ty).apply ns left.ty x
    (ty.wrap ns (2 ^ j - 1)) = some (ty.wrap ns (x % 2 ^ j)) := by
  simp only [BinaryOp.apply, pattern_mask hj]
  rw [Nat.and_two_pow_sub_one_eq_mod, Int.natCast_emod, pattern_natCast, Int.natCast_pow]
  exact congrArg (some <| ty.wrap ns ·) (emod_of_le hj.le)

theorem modulo_power_unsigned (hj : j < ty.bits ns) :
    (BinaryOp.unsignedModulo ty).apply ns left.ty x (2 ^ j) = some (ty.wrap ns (x % 2 ^ j)) := by
  simp only [BinaryOp.apply, pattern_power hj]
  rw [if_neg (by positivity), Int.natCast_emod, pattern_natCast, Int.natCast_pow]
  exact congrArg (some <| ty.wrap ns ·) (emod_of_le hj.le)

theorem modulo_power_signed (hj : j < ty.bits ns) (hsigned : ty.isSignedInt ns = true)
    (hx : ty.wrap ns x = x) (hy : ty.wrap ns (2 ^ j) = 2 ^ j) :
    some (ty.wrap ns (x % 2 ^ j)) = (BinaryOp.signedModulo ty).apply ns left.ty x (2 ^ j) ↔
      0 ≤ x ∨ (2 ^ j : Int) ∣ x := by
  have hpos : (0 : Int) < 2 ^ j := by positivity
  have hbits : 0 < ty.bits ns := by omega
  have hx' := hx
  have hy' := hy
  rw [wrap_signed hsigned] at hx' hy'
  simp only [BinaryOp.apply, pattern_power hj]
  have hnonneg := Int.emod_nonneg x hpos.ne'
  have hlt := Int.emod_lt_of_pos x hpos
  rw [if_neg (by positivity), hx', hy', Option.some_inj,
    wrap_between hbits hsigned hx (tmod_between x _),
    wrap_between hbits hsigned hy ⟨by omega, by omega⟩, emod_eq_tmod_iff hpos]

theorem power_iff (o : Operation) (hj : j < ty.bits ns) (hx : ty.wrap ns x = x)
    (hy : ty.wrap ns (2 ^ j) = 2 ^ j) :
    (o.powerOp (ty.isSignedInt ns) ty).apply ns left.ty x
        (ty.wrap ns (o.powerLiteral (2 ^ j) j)) =
      (o.op (ty.isSignedInt ns) ty).apply ns left.ty x (2 ^ j) ↔
        o.Agrees ns ty x (2 ^ j) (.power (2 ^ j) j) := by
  cases o with
  | multiply overflowing => exact iff_of_true (multiply_power hj) trivial
  | divide =>
    cases hsigned : ty.isSignedInt ns with
    | true =>
      exact (divide_power_signed hj hsigned hx hy).trans (by simp [Operation.Agrees, hsigned])
    | false => exact iff_of_true (divide_power_unsigned hj) (by simp [Operation.Agrees, hsigned])
  | modulo =>
    show (BinaryOp.bitwiseAnd ty).apply ns left.ty x (ty.wrap ns (2 ^ j - 1)) = _ ↔ _
    rw [modulo_mask hj]
    cases hsigned : ty.isSignedInt ns with
    | true =>
      exact (modulo_power_signed hj hsigned hx hy).trans (by simp [Operation.Agrees, hsigned])
    | false =>
      exact iff_of_true (modulo_power_unsigned hj).symm (by simp [Operation.Agrees, hsigned])

end Power

/-! ## Operations on 64 bits -/

def Operation.int64Op : Operation → BinaryOp
  | multiply overflowing => .multiply (.int 64) overflowing
  | divide => .unsignedDivide (.int 64)
  | modulo => .signedModulo (.int 64)

def Operation.uint64Op : Operation → BinaryOp
  | multiply overflowing => .multiply (.uint 64) overflowing
  | divide => .unsignedDivide (.uint 64)
  | modulo => .unsignedModulo (.uint 64)

section Narrow

variable (hbits : 128 ≤ ty.bits ns)

/-- The value of the 64-bit operation, extended with its sign -/
def Operation.int64Value (ns : Namespace) (ty : Ty) (o : Operation) (x y : Int) : Option Int :=
  (o.int64Op.apply ns (.int 64) (x.bmod (2 ^ 64)) (y.bmod (2 ^ 64))).map fun v =>
    ty.wrap ns (v.bmod (2 ^ 64))

/-- The same without one -/
def Operation.uint64Value (ns : Namespace) (ty : Ty) (o : Operation) (x y : Int) : Option Int :=
  (o.uint64Op.apply ns (.uint 64) (x % 2 ^ 64) (y % 2 ^ 64)).map fun v =>
    ty.wrap ns (pattern 64 v)

theorem bmod_bmod_64 (v : Int) : (v.bmod (2 ^ 64)).bmod (2 ^ 64) = v.bmod (2 ^ 64) := bmod_of_le le_rfl

theorem bmod_64_of_lt {q : Int} (h0 : 0 ≤ q) (h : q < 2 ^ 64) :
    q.bmod (2 ^ 64) = if q < 2 ^ 63 then q else q - 2 ^ 64 := by
  rw [Int.bmod_def]
  omega

theorem bmod_ediv_eq_tdiv_iff (hx : -2 ^ 63 ≤ x ∧ x < 2 ^ 63) (hy : -2 ^ 63 ≤ y ∧ y < 2 ^ 63)
    (hy0 : y ≠ 0) : (x % 2 ^ 64 / (y % 2 ^ 64)).bmod (2 ^ 64) = x.tdiv y ↔
      y = 1 ∨ x = y ∨ 0 ≤ x ∧ (0 ≤ y ∨ x < -y) := by
  have hquotient := ediv_emod_eq_tdiv_iff (by norm_num) hx hy hy0 rfl
  rw [show (2 : Int) * 2 ^ 63 = 2 ^ 64 by norm_num] at hquotient
  have hpos : 0 < y % 2 ^ 64 := by omega
  have hq0 : 0 ≤ x % 2 ^ 64 / (y % 2 ^ 64) := Int.ediv_nonneg (by omega) hpos.le
  have hq1 : x % 2 ^ 64 / (y % 2 ^ 64) ≤ x % 2 ^ 64 := Int.ediv_le_self _ (by omega)
  rw [← hquotient, bmod_64_of_lt hq0 (by omega)]

theorem pattern_zero (bits : Nat) : pattern bits 0 = 0 := by simp [pattern]

theorem pattern_eq_zero_iff {bits : Nat} : pattern bits x = 0 ↔ x % 2 ^ bits = 0 := by
  have h := pattern_natCast bits x
  omega

include hbits

theorem multiply_int64 {overflowing : Bool} (hsigned : ty.isSignedInt ns = true) :
    Operation.int64Value ns ty (.multiply overflowing) x y = some (ty.wrap ns (x * y)) ↔
      fitsInt64 (ty.wrap ns (x * y)) := by
  have hvalue : Operation.int64Value ns ty (.multiply overflowing) x y =
      some ((x * y).bmod (2 ^ 64)) := by
    show some (ty.wrap ns (Int.bmod (Int.bmod (_ * _) (2 ^ 64)) (2 ^ 64))) = _
    rw [bmod_bmod_64, ← Int.mul_bmod, wrap_of_fits hbits hsigned (bmod_bmod_64 _)]
  rw [hvalue, Option.some_inj, fitsInt64_iff, wrap_signed hsigned, bmod_of_le (by omega)]

/-- A divisor that fits is zero in 64 bits only if it is. -/
theorem divisor_ne_zero (hy : y.bmod (2 ^ 64) = y) (hy0 : y ≠ 0) :
    pattern 64 y ≠ 0 ∧ pattern (ty.bits ns) y ≠ 0 := by
  have h64 : y % 2 ^ 64 ≠ 0 := by
    obtain ⟨hlow, hhigh⟩ := (bmod_eq_self_iff 63 y).mp hy
    omega
  refine ⟨fun h => h64 (pattern_eq_zero_iff.mp h), fun h => h64 ?_⟩
  have hwide := pattern_eq_zero_iff.mp h
  rw [← emod_of_le (by omega : 64 ≤ ty.bits ns), hwide]
  rfl

/-- The quotient of two integers of 64 bits has 65. -/
theorem wrap_tdiv (hsigned : ty.isSignedInt ns = true) (hx : x.bmod (2 ^ 64) = x) :
    ty.wrap ns (x.tdiv y) = x.tdiv y := by
  obtain ⟨n, hn⟩ : ∃ n, ty.bits ns = n + 1 := ⟨ty.bits ns - 1, by omega⟩
  have hle : (2 : Int) ^ 64 ≤ 2 ^ n := pow_le_pow_right₀ (by decide) (by omega)
  obtain ⟨hlow, hhigh⟩ := (bmod_eq_self_iff 63 x).mp hx
  have habs := Int.natAbs_tdiv x y
  have hdiv := Nat.div_le_self x.natAbs y.natAbs
  change _ = x.natAbs / y.natAbs at habs
  rw [wrap_signed hsigned, hn, bmod_eq_self_iff]
  omega

/-- The quotient of the bits, read with a sign -/
theorem int64Value_divide (hsigned : ty.isSignedInt ns = true) (hx : x.bmod (2 ^ 64) = x)
    (hy : y.bmod (2 ^ 64) = y) (h64 : pattern 64 y ≠ 0) :
    Operation.int64Value ns ty .divide x y = some ((x % 2 ^ 64 / (y % 2 ^ 64)).bmod (2 ^ 64)) := by
  unfold Operation.int64Value Operation.int64Op
  rw [hx, hy, apply_unsignedDivide (by rwa [bits_int]), bits_int, Option.map_some, wrap_int64,
    bmod_bmod_64, wrap_of_fits hbits hsigned (bmod_bmod_64 _)]

theorem divide_int64 (hsigned : ty.isSignedInt ns = true) (hx : fitsInt64 x) (hy : fitsInt64 y) :
    Operation.int64Value ns ty .divide x y = (BinaryOp.signedDivide ty).apply ns left.ty x y ↔
      y = 0 ∨ y = 1 ∨ x = y ∨ 0 ≤ x ∧ (0 ≤ y ∨ x < -y) := by
  rw [fitsInt64_iff] at hx hy
  have hwx := wrap_of_fits hbits hsigned hx
  have hwy := wrap_of_fits hbits hsigned hy
  rw [wrap_signed hsigned] at hwx hwy
  by_cases hy0 : y = 0
  · subst hy0
    simp [Operation.int64Value, Operation.int64Op, BinaryOp.apply, pattern_zero]
  · obtain ⟨h64, hwide⟩ := divisor_ne_zero hbits hy hy0
    have hright : (BinaryOp.signedDivide ty).apply ns left.ty x y = some (x.tdiv y) := by
      simp only [BinaryOp.apply]
      rw [if_neg hwide, hwx, hwy, wrap_tdiv hbits hsigned hx]
    rw [int64Value_divide hbits hsigned hx hy h64, hright, Option.some_inj,
      bmod_ediv_eq_tdiv_iff ((bmod_eq_self_iff 63 x).mp hx) ((bmod_eq_self_iff 63 y).mp hy) hy0]
    simp only [hy0, false_or]

theorem modulo_int64 (hsigned : ty.isSignedInt ns = true) (hx : fitsInt64 x) (hy : fitsInt64 y) :
    Operation.int64Value ns ty .modulo x y = (BinaryOp.signedModulo ty).apply ns left.ty x y := by
  rw [fitsInt64_iff] at hx hy
  have hwx := wrap_of_fits hbits hsigned hx
  have hwy := wrap_of_fits hbits hsigned hy
  have hxx := hwx
  rw [wrap_signed hsigned] at hwx hwy
  by_cases hy0 : y = 0
  · subst hy0
    simp [Operation.int64Value, Operation.int64Op, BinaryOp.apply, pattern_zero]
  · obtain ⟨h64, hwide⟩ := divisor_ne_zero hbits hy hy0
    have hmod := tmod_between x y
    have hfits : (x.tmod y).bmod (2 ^ 64) = x.tmod y := by
      obtain ⟨hlow, hhigh⟩ := (bmod_eq_self_iff 63 x).mp hx
      exact (bmod_eq_self_iff 63 _).mpr ⟨by omega, by omega⟩
    simp only [Operation.int64Value, Operation.int64Op, BinaryOp.apply, Ty.bits, hx, hy, h64, hwide,
      hwx, hwy, if_false, Option.map_some, wrap_int64, hfits]

/-! The same without signs -/

theorem wrap_low (hsigned : ty.isSignedInt ns = false) (v : Int) : ty.wrap ns (v % 2 ^ 64) = v % 2 ^ 64 := by
  have hle : (2 : Int) ^ 64 ≤ 2 ^ ty.bits ns := pow_le_pow_right₀ (by decide) (by omega)
  rw [wrap_unsigned hsigned, Int.emod_eq_of_lt (by omega) (by omega)]

theorem multiply_uint64 {overflowing : Bool} (hsigned : ty.isSignedInt ns = false) :
    Operation.uint64Value ns ty (.multiply overflowing) x y = some (ty.wrap ns (x * y)) ↔
      fitsUint64 (ty.wrap ns (x * y)).toNat := by
  have hvalue : Operation.uint64Value ns ty (.multiply overflowing) x y = some (x * y % 2 ^ 64) := by
    show some (ty.wrap ns (pattern 64 ((Ty.uint 64).wrap ns (_ * _)))) = _
    rw [pattern_natCast, wrap_low hbits hsigned, wrap_uint64, Int.emod_emod_of_dvd _ (Int.dvd_refl _),
      ← Int.mul_emod]
  have hnonneg : 0 ≤ ty.wrap ns (x * y) := by
    rw [wrap_unsigned hsigned]
    exact Int.emod_nonneg _ (by positivity)
  rw [hvalue, Option.some_inj, fitsUint64_iff hnonneg, wrap_unsigned hsigned, emod_of_le (by omega)]

theorem divisor_uint64 (hy : y % 2 ^ 64 = y) (hy0 : y ≠ 0) :
    pattern 64 y ≠ 0 ∧ pattern (ty.bits ns) y ≠ 0 := by
  refine ⟨fun h => hy0 ?_, fun h => hy0 ?_⟩
  · rw [← hy]
    exact pattern_eq_zero_iff.mp h
  · rw [← hy, ← emod_of_le (by omega : 64 ≤ ty.bits ns), pattern_eq_zero_iff.mp h]
    rfl

theorem emod_wide (hx : x % 2 ^ 64 = x) : x % 2 ^ ty.bits ns = x := by
  have hle : (2 : Int) ^ 64 ≤ 2 ^ ty.bits ns := pow_le_pow_right₀ (by decide) (by omega)
  exact Int.emod_eq_of_lt (by omega) (by omega)

theorem divide_uint64 (hx : x % 2 ^ 64 = x) (hy : y % 2 ^ 64 = y) :
    Operation.uint64Value ns ty .divide x y = (BinaryOp.unsignedDivide ty).apply ns left.ty x y := by
  by_cases hy0 : y = 0
  · subst hy0
    simp [Operation.uint64Value, Operation.uint64Op, BinaryOp.apply, pattern_zero]
  · obtain ⟨h64, hwide⟩ := divisor_uint64 hbits hy hy0
    unfold Operation.uint64Value Operation.uint64Op
    rw [hx, hy, apply_unsignedDivide (by rwa [bits_uint]), apply_unsignedDivide hwide, bits_uint, hx, hy,
      Option.map_some, pattern_natCast, wrap_uint64, Int.emod_emod_of_dvd _ (Int.dvd_refl _),
      emod_wide hbits hx, emod_wide hbits hy]
    have hle := Int.ediv_le_self y (by omega : 0 ≤ x)
    have hnonneg := Int.ediv_nonneg (by omega : 0 ≤ x) (by omega : 0 ≤ y)
    rw [Int.emod_eq_of_lt hnonneg (by omega)]

theorem modulo_uint64 (hx : x % 2 ^ 64 = x) (hy : y % 2 ^ 64 = y) :
    Operation.uint64Value ns ty .modulo x y = (BinaryOp.unsignedModulo ty).apply ns left.ty x y := by
  by_cases hy0 : y = 0
  · subst hy0
    simp [Operation.uint64Value, Operation.uint64Op, BinaryOp.apply, pattern_zero]
  · obtain ⟨h64, hwide⟩ := divisor_uint64 hbits hy hy0
    unfold Operation.uint64Value Operation.uint64Op
    rw [hx, hy, apply_unsignedModulo (by rwa [bits_uint]), apply_unsignedModulo hwide, bits_uint, hx, hy,
      Option.map_some, pattern_natCast, wrap_uint64, Int.emod_emod_of_dvd _ (Int.dvd_refl _),
      emod_wide hbits hx, emod_wide hbits hy]
    have hlt := Int.emod_lt_of_pos x (by omega : 0 < y)
    have hnonneg := Int.emod_nonneg x hy0
    rw [Int.emod_eq_of_lt hnonneg (by omega)]

theorem int64_iff (o : Operation) (hsigned : ty.isSignedInt ns = true) (h : o.Trusts x y .int64) :
    o.int64Value ns ty x y = (o.op true ty).apply ns left.ty x y ↔ o.Agrees ns ty x y .int64 := by
  cases o with
  | multiply overflowing => exact multiply_int64 hbits hsigned
  | divide => exact divide_int64 hbits hsigned h.1 h.2
  | modulo => exact iff_of_true (modulo_int64 hbits hsigned h.1 h.2) trivial

theorem uint64_iff (o : Operation) (hsigned : ty.isSignedInt ns = false) (hx : 0 ≤ x) (hy : 0 ≤ y)
    (h : o.Trusts x y .uint64) :
    o.uint64Value ns ty x y = (o.op false ty).apply ns left.ty x y ↔ o.Agrees ns ty x y .uint64 := by
  cases o with
  | multiply overflowing => exact multiply_uint64 hbits hsigned
  | divide =>
    exact iff_of_true (divide_uint64 hbits ((fitsUint64_iff hx).mp h.1) ((fitsUint64_iff hy).mp h.2)) trivial
  | modulo =>
    exact iff_of_true (modulo_uint64 hbits ((fitsUint64_iff hx).mp h.1) ((fitsUint64_iff hy).mp h.2)) trivial

end Narrow

end Solang.Codegen.StrengthReduce
