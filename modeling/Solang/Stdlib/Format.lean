import Solang.Stdlib.BigInt

/-!
# Numbers as text

`stdlib/format.c`: integers in hexadecimal, binary and decimal. What is written is a list of
characters. A result is `none` where an index is outside of the input or of the local buffer.
-/

namespace Solang.Stdlib.Format

/-! ## Hexadecimal -/

/-- The length of the input without the zero bytes at its end, but for one -/
def countBytes (input : List (BitVec 8)) : Nat → Option Nat
  | 0 => some 0
  | 1 => some 1
  | length + 2 => do
    let v ← input[length + 1]?
    if v = 0 then countBytes input (length + 1) else return length + 2

def hexDigit (h : BitVec 8) : Char :=
  if 9 < h then Char.ofNat (h.toNat + 'a'.toNat - 10) else Char.ofNat ('0'.toNat + h.toNat)

def hexByte (v : BitVec 8) : List Char := [hexDigit (v >>> 4), hexDigit (v &&& 0x0f)]

/-- The first byte that is written: no zero for its upper half -/
def hexTop (v : BitVec 8) : List Char :=
  if 0 < v >>> 4 then hexByte v else [hexDigit (v &&& 0x0f)]

/-- The characters of the first `length` bytes, from the last one -/
def writeBytes (byte : BitVec 8 → List Char) (input : List (BitVec 8)) : Nat → Option (List Char)
  | 0 => some []
  | length + 1 => do
    let v ← input[length]?
    let output ← writeBytes byte input length
    return byte v ++ output

/-- What `uint2hex` and `uint2bin` have in common -/
def writeNumber (base : Char) (top byte : BitVec 8 → List Char) (input : List (BitVec 8)) (length : Nat) :
    Option (List Char) := do
  match ← countBytes input length with
  | 0 => none
  | length + 1 =>
    let v ← input[length]?
    let output ← writeBytes byte input length
    return '0' :: base :: (top v ++ output)

def uint2hex : List (BitVec 8) → Nat → Option (List Char) := writeNumber 'x' hexTop hexByte

/-! ## Binary -/

/-- The first loop for the first byte: zero bits are shifted out. -/
def skipZeros : Nat → BitVec 8 → Nat × BitVec 8
  | 0, v => (0, v)
  | i + 1, v => if v &&& 0x80 = 0 then skipZeros i (v <<< 1) else (i + 1, v)

/-- The upper `i` bits -/
def writeBits : Nat → BitVec 8 → List Char
  | 0, _ => []
  | i + 1, v => (if v &&& 0x80 ≠ 0 then '1' else '0') :: writeBits i (v <<< 1)

def binTop (v : BitVec 8) : List Char := writeBits (skipZeros 8 v).1 (skipZeros 8 v).2

def uint2bin : List (BitVec 8) → Nat → Option (List Char) := writeNumber 'b' binTop (writeBits 8)

/-! ## Decimal -/

/-- `buf[len++] = digit`, for a buffer of `size` -/
def push (size : Nat) (buf : List (BitVec 8)) (digit : BitVec 8) : Option (List (BitVec 8)) :=
  if buf.length < size then some (buf ++ [digit]) else none

/-- The digits of `val`, at least one -/
def pushDigits (size : Nat) (buf : List (BitVec 8)) (val : BitVec 64) : Option (List (BitVec 8)) := do
  let buf ← push size buf ((val % 10).setWidth 8)
  if val / 10 = 0 then return buf else pushDigits size buf (val / 10)
termination_by val.toNat
decreasing_by
  have hpos : 0 < val.toNat := by
    refine Nat.pos_of_ne_zero fun h => ‹¬ val / 10 = 0› ?_
    rw [BitVec.eq_of_toNat_eq (y := 0) h]
    rfl
  rw [BitVec.toNat_udiv]
  exact Nat.div_lt_self hpos (by decide)

/-- Zeros until there are `len` digits -/
def pad (size len : Nat) (buf : List (BitVec 8)) : Option (List (BitVec 8)) :=
  (List.range (len - buf.length)).foldlM (fun buf _ => push size buf 0) buf

/-- The buffer from its end -/
def copyOut (buf : List (BitVec 8)) : List Char :=
  buf.reverse.map fun digit => Char.ofNat (digit.toNat + '0'.toNat)

def uint2dec (val : BitVec 64) : Option (List Char) := do
  return copyOut (← pushDigits 20 [] val)

/-- `10 ^ 19` -/
def divisor {w : Nat} : BitVec w := 10000000000 * 1000000000

/-- Another group of digits of `uint128dec`, unless it is zero -/
def nextGroup (len : Nat) (buf : List (BitVec 8)) (val : BitVec 64) : Option (List (BitVec 8)) := do
  if val = 0 then return buf
  pushDigits 40 (← pad 40 len buf) val

def uint128dec (val128 : BitVec 128) : Option (List Char) := do
  let first ← BigInt.udivmod128 val128 divisor
  let buf ← pushDigits 40 [] (first.remainder.setWidth 64)
  let second ← BigInt.udivmod128 first.quotient divisor
  let buf ← nextGroup 19 buf (second.remainder.setWidth 64)
  let buf ← nextGroup 38 buf (second.quotient.setWidth 64)
  return copyOut buf

/-- The loop of `uint256dec` for these values of `digits`. The result is `q` and the buffer. -/
def groups (fuel : Nat) : List Nat → BitVec 256 → List (BitVec 8) → Option (BitVec 256 × List (BitVec 8))
  | [], q, buf => some (q, buf)
  | digits :: rest, q, buf => do
    let d ← (← BigInt.udivmod256 fuel q divisor)
    let buf ← pad 80 digits buf
    let buf ← pushDigits 80 buf (d.remainder.setWidth 64)
    if d.quotient = 0 then return (d.quotient, buf) else groups fuel rest d.quotient buf

def uint256dec (fuel : Nat) (val256 : BitVec 256) : Option (List Char) := do
  let (q, buf) ← groups fuel [0, 19, 38, 57] val256 []
  let val : BitVec 64 := q.setWidth 64
  if val = 0 then return copyOut buf
  return copyOut (← pushDigits 80 buf val)

end Solang.Stdlib.Format
