import Mathlib.Algebra.Order.Group.Nat

/-!
# Wide integers

`stdlib/bigint.c`: multiplication of integers of any number of 32-bit words, and the division of
integers of 128, 256 and 512 bits. Words are in little-endian order.
-/

namespace Solang.Stdlib.BigInt

/-! ## Multiplication -/

/-- The length of the operand without the zero words at its end; `none` when an index is outside of
the operand. -/
def trimmed (words : List (BitVec 32)) : Nat → Option Nat
  | 0 => some 0
  | len + 1 => do
    let word ← words[len]?
    if word = 0 then trimmed words len else return len + 1

/-- The indices of the products of a column: `right_start`, `right_end` and `left_start` -/
structure Column where
  rightStart : Nat
  rightEnd : Nat
  leftStart : Nat

/-- The column `l`, after the one before -/
def Column.next (leftLen rightLen l : Nat) (c : Column) : Column where
  rightStart := if leftLen ≤ l then c.rightStart + 1 else c.rightStart
  leftStart := if rightLen ≤ l then c.leftStart + 1 else c.leftStart
  rightEnd := if c.rightEnd < rightLen then c.rightEnd + 1 else c.rightEnd

/-- A sum of 64 bits, with the bits that were carried out of it -/
structure Sum where
  val1 : BitVec 64
  carry : BitVec 64

def Sum.add (s : Sum) (m : BitVec 64) : Sum where
  val1 := s.val1 + m
  carry := if s.val1.toNat + m.toNat < 2 ^ 64 then s.carry else s.carry + 0x100000000

/-- What goes into the next column -/
def Sum.shift (s : Sum) : Sum where
  val1 := (s.val1 >>> 32) ||| s.carry
  carry := 0

/-- The inner loop, for `n` values of `r` from `r + n - 1` down -/
def sumColumn (left right : List (BitVec 32)) (leftStart r : Nat) : Nat → Nat → Sum → Option Sum
  | 0, _, s => some s
  | n + 1, i, s => do
    let l ← left[leftStart + i]?
    let m ← right[r + n]?
    sumColumn left right leftStart r n (i + 1) (s.add (l.setWidth 64 * m.setWidth 64))

def sumOf (left right : List (BitVec 32)) (c : Column) (s : Sum) : Option Sum :=
  sumColumn left right c.leftStart c.rightStart (c.rightEnd - c.rightStart) 0 s

/-- The words of the columns from `l` on -/
def mulFrom (left right : List (BitVec 32)) (leftLen rightLen : Nat) :
    Nat → Nat → Column → Sum → Option (List (BitVec 32))
  | 0, _, _, _ => some []
  | n + 1, l, c, s => do
    let c := c.next leftLen rightLen l
    let s ← sumOf left right c s
    let out ← mulFrom left right leftLen rightLen n (l + 1) c s.shift
    return s.val1.setWidth 32 :: out

/-- `__mul32`; the result is `out`. -/
def mul32 (left right : List (BitVec 32)) (len : Nat) : Option (List (BitVec 32)) := do
  let leftLen ← trimmed left len
  let rightLen ← trimmed right len
  mulFrom left right leftLen rightLen len 0 ⟨0, 0, 0⟩ ⟨0, 0⟩

/-- The columns from `l` on, the first `m` of which are written -/
def mulOvfFrom (left right : List (BitVec 32)) (leftLen rightLen m : Nat) :
    Nat → Nat → Column → Sum → Option (List (BitVec 32) × Bool)
  | 0, _, _, _ => some ([], false)
  | n + 1, l, c, s => do
    let c := c.next leftLen rightLen l
    let s ← sumOf left right c s
    if l < m then
      let (out, overflow) ← mulOvfFrom left right leftLen rightLen m n (l + 1) c s.shift
      return (s.val1.setWidth 32 :: out, overflow)
    else if 0 < s.val1 then return ([], true)
    else mulOvfFrom left right leftLen rightLen m n (l + 1) c s.shift

/-- `__mul32_with_builtin_ovf`; the result is `out` and what is returned. -/
def mul32WithBuiltinOvf (left right : List (BitVec 32)) (len : Nat) :
    Option (List (BitVec 32) × Bool) := do
  let leftLen ← trimmed left len
  let rightLen ← trimmed right len
  mulOvfFrom left right leftLen rightLen len (len * 2) 0 ⟨0, 0, 0⟩ ⟨0, 0⟩

/-! ## The highest set bit -/

/-- One test of `bits`: none of the bits in the mask, the upper `n`, is set. -/
def probe (mask : BitVec 64) (n : Nat) (s : Nat × BitVec 64) : Nat × BitVec 64 :=
  if s.2 &&& mask = 0 then (s.1 - n, s.2 <<< n) else s

/-- `bits`; the last test does not shift, but nothing looks at the value after it. -/
def bits (v : BitVec 64) : Nat :=
  let s := probe 0xffffffff00000000 32 (63, v)
  let s := probe 0xffff000000000000 16 s
  let s := probe 0xff00000000000000 8 s
  let s := probe 0xf000000000000000 4 s
  let s := probe 0xc000000000000000 2 s
  (probe 0x8000000000000000 1 s).1

def bits128 (v : BitVec 128) : Nat :=
  let upper := (v >>> 64).setWidth 64
  if upper ≠ 0 then bits upper + 64 else bits (v.setWidth 64)

section Wide

variable {w : Nat}

/-- The word `i` of 64 bits -/
def word (value : BitVec w) (i : Nat) : BitVec 64 := (value >>> (64 * i)).setWidth 64

/-- The loop of `bits256` and `bits512` over the first `n` words, from the last one -/
def bitsOfWords (value : BitVec w) : Nat → Nat
  | 0 => 0
  | i + 1 => if word value i ≠ 0 then bits (word value i) + 64 * i else bitsOfWords value i

end Wide

def bits256 (value : BitVec 256) : Nat := bitsOfWords value 4

def bits512 (value : BitVec 512) : Nat := bitsOfWords value 8

/-! ## Unsigned division -/

/-- What the divisions write, when they return 0 -/
structure DivMod (w : Nat) where
  remainder : BitVec w
  quotient : BitVec w
  deriving DecidableEq

/-- `q` and `r` after an iteration of `udivmod128` for the bit `x` of the dividend -/
def bitStep (dividend divisor : BitVec 128) (x : Nat) (s : DivMod 128) : DivMod 128 :=
  let q := s.quotient <<< 1
  let r := s.remainder <<< 1
  let r := if (dividend >>> x) &&& 1 ≠ 0 then r + 1 else r
  if divisor ≤ r then ⟨r - divisor, q + 1⟩ else ⟨r, q⟩

/-- The iterations for the bits below `x` -/
def bitLoop (dividend divisor : BitVec 128) : Nat → DivMod 128 → DivMod 128
  | 0, s => s
  | x + 1, s => bitLoop dividend divisor x (bitStep dividend divisor x s)

/-- `udivmod128`; `none` when it returns 1. -/
def udivmod128 (dividend divisor : BitVec 128) : Option (DivMod 128) :=
  if divisor = 0 then none
  else if divisor = 1 then some ⟨0, dividend⟩
  else if divisor = dividend then some ⟨0, 1⟩
  else if dividend = 0 ∨ dividend < divisor then some ⟨dividend, 0⟩
  else some (bitLoop dividend divisor (bits128 dividend + 1) ⟨0, 0⟩)

section Wide

variable {w : Nat}

/-- The variables of the loop of `udivmod256` and `udivmod512` -/
structure Subtraction (w : Nat) where
  q : BitVec w
  r : BitVec w
  copyd : BitVec w
  adder : BitVec w

def Subtraction.step (s : Subtraction w) : Subtraction w :=
  let s := if s.copyd ≤ s.r then { s with r := s.r - s.copyd, q := s.q ||| s.adder } else s
  { s with copyd := s.copyd >>> 1, adder := s.adder >>> 1 }

def subtractLoop (divisor : BitVec w) : Nat → Subtraction w → Option (Subtraction w)
  | 0, _ => none
  | fuel + 1, s => if divisor ≤ s.r then subtractLoop divisor fuel s.step else some s

/-- The variables before the loop -/
def aligned (bits : BitVec w → Nat) (dividend divisor : BitVec w) : Subtraction w :=
  let copyd := divisor <<< (bits dividend - bits divisor)
  let adder := (1 : BitVec w) <<< (bits dividend - bits divisor)
  if dividend < copyd then ⟨0, dividend, copyd >>> 1, adder >>> 1⟩ else ⟨0, dividend, copyd, adder⟩

/-- `udivmod256` and `udivmod512`. The result is `none` when 1 is returned. -/
def udivmodWide (bits : BitVec w → Nat) (fuel : Nat) (dividend divisor : BitVec w) :
    Option (Option (DivMod w)) :=
  if divisor = 0 then some none
  else if divisor = 1 then some (some ⟨0, dividend⟩)
  else if divisor = dividend then some (some ⟨0, 1⟩)
  else if dividend = 0 ∨ dividend < divisor then some (some ⟨dividend, 0⟩)
  else (subtractLoop divisor fuel (aligned bits dividend divisor)).map fun s => some ⟨s.r, s.q⟩

end Wide

def udivmod256 : Nat → BitVec 256 → BitVec 256 → Option (Option (DivMod 256)) := udivmodWide bits256

def udivmod512 : Nat → BitVec 512 → BitVec 512 → Option (Option (DivMod 512)) := udivmodWide bits512

/-! ## Signed division -/

section Signed

variable {w : Nat}

/-- The last byte is at least 128. -/
def isNegative (value : BitVec w) : Bool := 128 ≤ ((value >>> (w - 8)).setWidth 8).toNat

def absolute (value : BitVec w) : BitVec w := if isNegative value then -value else value

/-- The signs of the results of the unsigned division -/
def DivMod.signed (dividend divisor : BitVec w) (d : DivMod w) : DivMod w where
  quotient := if isNegative dividend ≠ isNegative divisor then -d.quotient else d.quotient
  remainder := if isNegative dividend then -d.remainder else d.remainder

end Signed

def sdivmod128 (dividend divisor : BitVec 128) : Option (DivMod 128) :=
  (udivmod128 (absolute dividend) (absolute divisor)).map (·.signed dividend divisor)

def sdivmod256 (fuel : Nat) (dividend divisor : BitVec 256) : Option (Option (DivMod 256)) :=
  (udivmod256 fuel (absolute dividend) (absolute divisor)).map (·.map (·.signed dividend divisor))

def sdivmod512 (fuel : Nat) (dividend divisor : BitVec 512) : Option (Option (DivMod 512)) :=
  (udivmod512 fuel (absolute dividend) (absolute divisor)).map (·.map (·.signed dividend divisor))

end Solang.Stdlib.BigInt
