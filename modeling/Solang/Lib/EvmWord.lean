import Mathlib.Data.Int.ModEq
import Mathlib.Data.Nat.Bitwise

/-!
# Arithmetic on words

The operations of the EVM, on words of any number of bits. A word is the natural number with its bits; a signed one is
in two's complement. Division by zero gives zero, a word is shifted by any number of places, and `addmod` and `mulmod`
do not wrap before the division.

A machine has the same operations on bit vectors, some of them only for some operands.
-/

namespace EvmWord

/-- The word of an integer -/
def wrap (w : Nat) (n : Int) : Nat := (n % 2 ^ w).toNat

/-- The integer of a signed word -/
def signed (w x : Nat) : Int := if 2 * x < 2 ^ w then x else (x : Int) - 2 ^ w

inductive Binary where
  | add
  | sub
  | mul
  | div
  | sdiv
  | mod
  | smod
  | exp
  | lt
  | gt
  | slt
  | sgt
  | eq
  | and
  | or
  | xor
  | shl
  | shr
  | sar
  deriving DecidableEq, Repr

/-- The first operand of a shift is the number of places. -/
def Binary.eval (w : Nat) : Binary → Nat → Nat → Nat
  | .add, x, y => wrap w (x + y)
  | .sub, x, y => wrap w (x - y)
  | .mul, x, y => wrap w (x * y)
  | .div, x, y => if y = 0 then 0 else x / y
  | .sdiv, x, y => if y = 0 then 0 else wrap w ((signed w x).tdiv (signed w y))
  | .mod, x, y => if y = 0 then 0 else x % y
  | .smod, x, y => if y = 0 then 0 else wrap w ((signed w x).tmod (signed w y))
  | .exp, x, y => wrap w (x ^ y)
  | .lt, x, y => (decide (x < y)).toNat
  | .gt, x, y => (decide (y < x)).toNat
  | .slt, x, y => (decide (signed w x < signed w y)).toNat
  | .sgt, x, y => (decide (signed w y < signed w x)).toNat
  | .eq, x, y => (decide (x = y)).toNat
  | .and, x, y => x &&& y
  | .or, x, y => x ||| y
  | .xor, x, y => x ^^^ y
  | .shl, x, y => wrap w (y * 2 ^ x)
  | .shr, x, y => y / 2 ^ x
  | .sar, x, y => wrap w (signed w y / 2 ^ x)

inductive Ternary where
  | addmod
  | mulmod
  deriving DecidableEq, Repr

def Ternary.eval : Ternary → Nat → Nat → Nat → Nat
  | .addmod, x, y, m => if m = 0 then 0 else (x + y) % m
  | .mulmod, x, y, m => if m = 0 then 0 else x * y % m

def not (w x : Nat) : Nat := 2 ^ w - 1 - x

def isZero (x : Nat) : Nat := (decide (x = 0)).toNat

/-- The byte at an offset from the most significant one, of 32 -/
def byte (i x : Nat) : Nat := if i < 32 then x / 256 ^ (31 - i) % 256 else 0

/-! ## The instructions of a machine -/

inductive Instruction where
  | add
  | subtract
  | multiply
  | unsignedDivide
  | signedDivide
  | unsignedModulo
  | signedModulo
  | power
  | less (signed : Bool)
  | more (signed : Bool)
  | equal
  | bitwiseAnd
  | bitwiseOr
  | bitwiseXor
  | shiftLeft
  | shiftRight (signed : Bool)
  deriving DecidableEq, Repr

/-- Repeated squaring; `result` is what has been multiplied so far. -/
def powerLoop {w : Nat} (base : BitVec w) (exp : Nat) (result : BitVec w) : BitVec w :=
  let result := if exp % 2 = 1 then result * base else result
  if h : exp / 2 = 0 then result else powerLoop (base * base) (exp / 2) result
termination_by exp
decreasing_by omega

/-- The result; there is none where the instruction is undefined or fails. -/
def Instruction.eval {w : Nat} : Instruction → BitVec w → BitVec w → Option Nat
  | .add, x, y => some (x + y).toNat
  | .subtract, x, y => some (x - y).toNat
  | .multiply, x, y => some (x * y).toNat
  | .unsignedDivide, x, y => if y = 0 then none else some (x / y).toNat
  | .signedDivide, x, y => if y = 0 then none else some (x.sdiv y).toNat
  | .unsignedModulo, x, y => if y = 0 then none else some (x % y).toNat
  | .signedModulo, x, y => if y = 0 then none else some (x.srem y).toNat
  | .power, x, y => some (powerLoop x y.toNat 1).toNat
  | .less signed, x, y => some (if signed then x.slt y else x.ult y).toNat
  | .more signed, x, y => some (if signed then y.slt x else y.ult x).toNat
  | .equal, x, y => some (x == y).toNat
  | .bitwiseAnd, x, y => some (x &&& y).toNat
  | .bitwiseOr, x, y => some (x ||| y).toNat
  | .bitwiseXor, x, y => some (x ^^^ y).toNat
  | .shiftLeft, x, y => if w ≤ y.toNat then none else some (x <<< y.toNat).toNat
  | .shiftRight signed, x, y =>
    if w ≤ y.toNat then none else some (if signed then x.sshiftRight y.toNat else x >>> y.toNat).toNat

/-! ## Words as bit vectors -/

section Words

variable {w x y : Nat}

theorem natCast_two_pow (w : Nat) : ((2 ^ w : Nat) : Int) = 2 ^ w := Int.natCast_pow 2 w

theorem wrap_natCast (n : Nat) : wrap w n = n % 2 ^ w := by
  rw [wrap, ← natCast_two_pow, ← Int.natCast_emod, Int.toNat_natCast]

theorem wrap_lt (n : Int) : wrap w n < 2 ^ w := by
  have hpos : (0 : Int) < 2 ^ w := Int.pow_pos (by decide)
  have hlt := Int.emod_lt_of_pos n hpos
  have hnonneg := Int.emod_nonneg n hpos.ne'
  rw [← natCast_two_pow] at hlt hnonneg
  rw [wrap, ← natCast_two_pow]
  omega

theorem wrap_eq_zero_iff {n : Int} : wrap w n = 0 ↔ 2 ^ w ∣ n := by
  have hpos : (0 : Int) < 2 ^ w := Int.pow_pos (by decide)
  have hnonneg := Int.emod_nonneg n hpos.ne'
  rw [wrap, Int.dvd_iff_emod_eq_zero]
  omega

theorem wrap_eq_iff {a b : Int} : wrap w a = wrap w b ↔ 2 ^ w ∣ a - b := by
  have hpos : (0 : Int) < 2 ^ w := Int.pow_pos (by decide)
  have ha := Int.emod_nonneg a hpos.ne'
  have hb := Int.emod_nonneg b hpos.ne'
  rw [Int.dvd_iff_emod_eq_zero, ← Int.emod_eq_emod_iff_emod_sub_eq_zero, wrap, wrap]
  omega

theorem wrap_bmod (n : Int) : wrap w (n.bmod (2 ^ w)) = wrap w n := by
  rw [wrap, wrap, ← natCast_two_pow, Int.bmod_emod]

theorem toNat_ofNat (hx : x < 2 ^ w) : (BitVec.ofNat w x).toNat = x := by
  rw [BitVec.toNat_ofNat, Nat.mod_eq_of_lt hx]

theorem toInt_ofNat (hx : x < 2 ^ w) : (BitVec.ofNat w x).toInt = signed w x := by
  rw [BitVec.toInt_eq_toNat_cond, toNat_ofNat hx, signed, natCast_two_pow]

/-- The word of a bit vector is that of its integer. -/
theorem toNat_eq_wrap (v : BitVec w) : v.toNat = wrap w v.toInt := by
  have hcast : v.toNat = (BitVec.ofInt w v.toInt).toNat := by rw [BitVec.ofInt_toInt]
  rw [hcast, BitVec.toNat_ofInt, wrap, natCast_two_pow]

theorem ofNat_eq_zero_iff (hy : y < 2 ^ w) : BitVec.ofNat w y = 0 ↔ y = 0 := by
  rw [← BitVec.toNat_inj, toNat_ofNat hy]
  rfl

theorem powerLoop_toNat (base result : BitVec w) (exp : Nat) :
    (powerLoop base exp result).toNat = result.toNat * base.toNat ^ exp % 2 ^ w := by
  induction exp using Nat.strongRecOn generalizing base result with
  | ind exp ih =>
    have hexp := Nat.div_add_mod exp 2
    -- what is multiplied in this turn and in those that follow
    have hsplit (b : Nat) : b ^ exp = b ^ (exp % 2) * (b * b) ^ (exp / 2) := by
      rw [← Nat.pow_two, ← Nat.pow_mul, ← Nat.pow_add, Nat.add_comm, hexp]
    have hfirst : (if exp % 2 = 1 then result * base else result).toNat =
        result.toNat * base.toNat ^ (exp % 2) % 2 ^ w := by
      rcases Nat.mod_two_eq_zero_or_one exp with heven | hodd
      · rw [heven, if_neg (by decide), Nat.pow_zero, Nat.mul_one, Nat.mod_eq_of_lt result.isLt]
      · rw [hodd, if_pos rfl, BitVec.toNat_mul, Nat.pow_one]
    rw [powerLoop]
    split
    · next h =>
      rw [hfirst, hsplit, h, Nat.pow_zero, Nat.mul_one]
    · next h =>
      rw [ih (exp / 2) (by omega), hfirst, BitVec.toNat_mul, hsplit, ← Nat.mul_assoc, Nat.mul_mod,
        Nat.mul_mod (result.toNat * base.toNat ^ (exp % 2)), Nat.mod_mod, Nat.pow_mod, Nat.mod_mod, ← Nat.pow_mod]

end Words

/-! ## The operations by instructions -/

section Operations

variable {w x y : Nat}

theorem eval_add (hx : x < 2 ^ w) (hy : y < 2 ^ w) :
    Instruction.add.eval (BitVec.ofNat w x) (BitVec.ofNat w y) = some (Binary.add.eval w x y) := by
  rw [Instruction.eval, BitVec.toNat_add, toNat_ofNat hx, toNat_ofNat hy, Binary.eval, ← Int.natCast_add, wrap_natCast]

theorem eval_sub (hx : x < 2 ^ w) (hy : y < 2 ^ w) :
    Instruction.subtract.eval (BitVec.ofNat w x) (BitVec.ofNat w y) = some (Binary.sub.eval w x y) := by
  have hcast : ((2 ^ w - y + x : Nat) : Int) = x - y + 2 ^ w := by
    rw [← natCast_two_pow]
    omega
  rw [Instruction.eval, BitVec.toNat_sub, toNat_ofNat hx, toNat_ofNat hy, Binary.eval, ← wrap_natCast, hcast, wrap,
    Int.add_emod_right, wrap]

theorem eval_mul (hx : x < 2 ^ w) (hy : y < 2 ^ w) :
    Instruction.multiply.eval (BitVec.ofNat w x) (BitVec.ofNat w y) = some (Binary.mul.eval w x y) := by
  rw [Instruction.eval, BitVec.toNat_mul, toNat_ofNat hx, toNat_ofNat hy, Binary.eval, ← Int.natCast_mul, wrap_natCast]

theorem eval_div (hx : x < 2 ^ w) (hy : y < 2 ^ w) (hne : y ≠ 0) :
    Instruction.unsignedDivide.eval (BitVec.ofNat w x) (BitVec.ofNat w y) = some (Binary.div.eval w x y) := by
  rw [Instruction.eval, if_neg (mt (ofNat_eq_zero_iff hy).mp hne), BitVec.toNat_udiv, toNat_ofNat hx, toNat_ofNat hy,
    Binary.eval, if_neg hne]

theorem eval_sdiv (hx : x < 2 ^ w) (hy : y < 2 ^ w) (hne : y ≠ 0) :
    Instruction.signedDivide.eval (BitVec.ofNat w x) (BitVec.ofNat w y) = some (Binary.sdiv.eval w x y) := by
  rw [Instruction.eval, if_neg (mt (ofNat_eq_zero_iff hy).mp hne), toNat_eq_wrap, BitVec.toInt_sdiv, wrap_bmod,
    toInt_ofNat hx, toInt_ofNat hy, Binary.eval, if_neg hne]

theorem eval_mod (hx : x < 2 ^ w) (hy : y < 2 ^ w) (hne : y ≠ 0) :
    Instruction.unsignedModulo.eval (BitVec.ofNat w x) (BitVec.ofNat w y) = some (Binary.mod.eval w x y) := by
  rw [Instruction.eval, if_neg (mt (ofNat_eq_zero_iff hy).mp hne), BitVec.toNat_umod, toNat_ofNat hx, toNat_ofNat hy,
    Binary.eval, if_neg hne]

theorem eval_smod (hx : x < 2 ^ w) (hy : y < 2 ^ w) (hne : y ≠ 0) :
    Instruction.signedModulo.eval (BitVec.ofNat w x) (BitVec.ofNat w y) = some (Binary.smod.eval w x y) := by
  rw [Instruction.eval, if_neg (mt (ofNat_eq_zero_iff hy).mp hne), toNat_eq_wrap, BitVec.toInt_srem, toInt_ofNat hx,
    toInt_ofNat hy, Binary.eval, if_neg hne]

theorem eval_exp (hw : 0 < w) (hx : x < 2 ^ w) (hy : y < 2 ^ w) :
    Instruction.power.eval (BitVec.ofNat w x) (BitVec.ofNat w y) = some (Binary.exp.eval w x y) := by
  have hone : (1 : BitVec w).toNat = 1 := toNat_ofNat (Nat.one_lt_two_pow hw.ne')
  rw [Instruction.eval, powerLoop_toNat, toNat_ofNat hx, toNat_ofNat hy, hone, Nat.one_mul, Binary.eval,
    ← Int.natCast_pow, wrap_natCast]

theorem eval_less (hx : x < 2 ^ w) (hy : y < 2 ^ w) :
    (Instruction.less false).eval (BitVec.ofNat w x) (BitVec.ofNat w y) = some (Binary.lt.eval w x y) := by
  rw [Instruction.eval, if_neg Bool.false_ne_true, BitVec.ult, toNat_ofNat hx, toNat_ofNat hy, Binary.eval]

theorem eval_less_signed (hx : x < 2 ^ w) (hy : y < 2 ^ w) :
    (Instruction.less true).eval (BitVec.ofNat w x) (BitVec.ofNat w y) = some (Binary.slt.eval w x y) := by
  rw [Instruction.eval, if_pos rfl, BitVec.slt, toInt_ofNat hx, toInt_ofNat hy, Binary.eval]

theorem eval_more (hx : x < 2 ^ w) (hy : y < 2 ^ w) :
    (Instruction.more false).eval (BitVec.ofNat w x) (BitVec.ofNat w y) = some (Binary.gt.eval w x y) :=
  eval_less hy hx

theorem eval_more_signed (hx : x < 2 ^ w) (hy : y < 2 ^ w) :
    (Instruction.more true).eval (BitVec.ofNat w x) (BitVec.ofNat w y) = some (Binary.sgt.eval w x y) :=
  eval_less_signed hy hx

theorem eval_equal (hx : x < 2 ^ w) (hy : y < 2 ^ w) :
    Instruction.equal.eval (BitVec.ofNat w x) (BitVec.ofNat w y) = some (Binary.eq.eval w x y) := by
  have hiff : BitVec.ofNat w x = BitVec.ofNat w y ↔ x = y := by
    rw [← BitVec.toNat_inj, toNat_ofNat hx, toNat_ofNat hy]
  rw [Instruction.eval, Binary.eval, beq_eq_decide, decide_eq_decide.mpr hiff]

theorem eval_and (hx : x < 2 ^ w) (hy : y < 2 ^ w) :
    Instruction.bitwiseAnd.eval (BitVec.ofNat w x) (BitVec.ofNat w y) = some (Binary.and.eval w x y) := by
  rw [Instruction.eval, BitVec.toNat_and, toNat_ofNat hx, toNat_ofNat hy, Binary.eval]

theorem eval_or (hx : x < 2 ^ w) (hy : y < 2 ^ w) :
    Instruction.bitwiseOr.eval (BitVec.ofNat w x) (BitVec.ofNat w y) = some (Binary.or.eval w x y) := by
  rw [Instruction.eval, BitVec.toNat_or, toNat_ofNat hx, toNat_ofNat hy, Binary.eval]

theorem eval_xor (hx : x < 2 ^ w) (hy : y < 2 ^ w) :
    Instruction.bitwiseXor.eval (BitVec.ofNat w x) (BitVec.ofNat w y) = some (Binary.xor.eval w x y) := by
  rw [Instruction.eval, BitVec.toNat_xor, toNat_ofNat hx, toNat_ofNat hy, Binary.eval]

/-- The places are the first operand of the operation and the second of the instruction. -/
theorem eval_shl (hx : x < w) (hy : y < 2 ^ w) :
    Instruction.shiftLeft.eval (BitVec.ofNat w y) (BitVec.ofNat w x) = some (Binary.shl.eval w x y) := by
  have hlt : x < 2 ^ w := hx.trans Nat.lt_two_pow_self
  rw [Instruction.eval, toNat_ofNat hlt, if_neg (Nat.not_le.mpr hx), BitVec.toNat_shiftLeft, toNat_ofNat hy,
    Nat.shiftLeft_eq, Binary.eval, ← natCast_two_pow, ← Int.natCast_mul, wrap_natCast]

theorem eval_shr (hx : x < w) (hy : y < 2 ^ w) :
    (Instruction.shiftRight false).eval (BitVec.ofNat w y) (BitVec.ofNat w x) = some (Binary.shr.eval w x y) := by
  have hlt : x < 2 ^ w := hx.trans Nat.lt_two_pow_self
  rw [Instruction.eval, toNat_ofNat hlt, if_neg (Nat.not_le.mpr hx), if_neg Bool.false_ne_true,
    BitVec.toNat_ushiftRight, toNat_ofNat hy, Nat.shiftRight_eq_div_pow, Binary.eval]

theorem eval_sar (hx : x < w) (hy : y < 2 ^ w) :
    (Instruction.shiftRight true).eval (BitVec.ofNat w y) (BitVec.ofNat w x) = some (Binary.sar.eval w x y) := by
  have hlt : x < 2 ^ w := hx.trans Nat.lt_two_pow_self
  rw [Instruction.eval, toNat_ofNat hlt, if_neg (Nat.not_le.mpr hx), if_pos rfl, toNat_eq_wrap,
    BitVec.toInt_sshiftRight, toInt_ofNat hy, Int.shiftRight_eq_div_pow, natCast_two_pow, Binary.eval]

theorem shl_three (hi : x < 32) : Binary.shl.eval 256 3 (31 - x) = 8 * (31 - x) := by
  rw [Binary.eval, ← natCast_two_pow, ← Int.natCast_mul, wrap_natCast, Nat.mod_eq_of_lt (by omega)]
  omega

/-- The byte is what a shift leaves of the word, by as many places as there are bits after it. -/
theorem byte_eq (hi : x < 32) : Binary.and.eval 256 (Binary.shr.eval 256 (Binary.shl.eval 256 3 (31 - x)) y) 255 =
      byte x y := by
  rw [shl_three hi, Binary.eval, Binary.eval, byte, if_pos hi, Nat.and_two_pow_sub_one_eq_mod _ 8, Nat.pow_mul]

theorem byte_of_le (hi : 32 ≤ x) : byte x y = 0 := if_neg (Nat.not_lt.mpr hi)

theorem toNat_not (hx : x < 2 ^ w) : (~~~BitVec.ofNat w x).toNat = not w x := by
  rw [BitVec.toNat_not, toNat_ofNat hx, not]

/-- Sums and products of two words fit into twice the bits. -/
theorem Ternary.eval_wide {op : Ternary} {m : Nat} (hx : x < 2 ^ w) (hy : y < 2 ^ w) (hm : m < 2 ^ w) (hne : m ≠ 0)
    (hw : 0 < w) :
    (((match op with
      | .addmod => BitVec.ofNat (w + w) y + BitVec.ofNat (w + w) x
      | .mulmod => BitVec.ofNat (w + w) y * BitVec.ofNat (w + w) x) % BitVec.ofNat (w + w) m).setWidth w).toNat =
      op.eval x y m := by
  have hwide : 2 ^ (w + w) = 2 ^ w * 2 ^ w := Nat.pow_add 2 w w
  have htwo : 2 ≤ 2 ^ w := Nat.le_self_pow hw.ne' 2
  have hle : 2 * 2 ^ w ≤ 2 ^ (w + w) := hwide ▸ Nat.mul_le_mul_right _ htwo
  have hmod (n : Nat) : n % m < 2 ^ w := (Nat.mod_lt n (Nat.pos_of_ne_zero hne)).trans hm
  cases op with
  | addmod =>
    rw [BitVec.toNat_setWidth, BitVec.toNat_umod, BitVec.toNat_add, toNat_ofNat (by omega), toNat_ofNat (by omega),
      toNat_ofNat (by omega), Nat.mod_eq_of_lt (by omega : y + x < 2 ^ (w + w)), Nat.mod_eq_of_lt (hmod _), eval,
      if_neg hne, Nat.add_comm]
  | mulmod =>
    have hlt : y * x < 2 ^ (w + w) := hwide ▸ Nat.mul_lt_mul'' hy hx
    rw [BitVec.toNat_setWidth, BitVec.toNat_umod, BitVec.toNat_mul, toNat_ofNat (by omega), toNat_ofNat (by omega),
      toNat_ofNat (by omega), Nat.mod_eq_of_lt hlt, Nat.mod_eq_of_lt (hmod _), eval, if_neg hne, Nat.mul_comm]

end Operations

end EvmWord
