import Solang.Codegen.Expression

/-!
# Partially known values

`codegen/strength_reduce/value.rs`: an element of a value set knows some of the bits of an integer, and
the bounds of a set are computed from those of its elements.
-/

namespace Solang.Codegen.StrengthReduce

/-- `BitArray<[u8; 32], Lsb0>` -/
abbrev Bits := BitVec 256

/-- `bits[lo..hi].fill(b)` -/
def fill (bits : Bits) (lo hi : Nat) (b : Bool) : Bits :=
  let mask := BitVec.ofNat 256 (2 ^ hi - 2 ^ lo)
  if b then bits ||| mask else bits &&& ~~~mask

/-- `bits.set(no, b)` -/
def setBit (bits : Bits) (no : Nat) (b : Bool) : Bits := fill bits no (no + 1) b

/-- `bits[0..hi].all()` -/
def allBits (bits : Bits) (hi : Nat) : Bool := (List.range hi).all fun i => bits.getLsbD i

/-- `highest_set_bit`, of the bytes of this number: 0 when there is none -/
def highestSetBit (n : Nat) : Nat := n.log2

/-- `bigint_to_bitarr` -/
def bigintToBitarr (v : Int) (bits : Nat) : Bits := fill (BitVec.ofInt 256 v) bits 256 false

structure Value where
  knownBits : Bits
  value : Bits
  bits : Nat
  deriving DecidableEq

namespace Value

variable (v : Value)

def getUnsignedMinValue : Bits := v.value &&& v.knownBits

def getUnsignedMaxValue : Bits := ~~~v.knownBits ||| v.value

/-- Whether the sign is known, and what it is -/
def sign : Bool × Bool := (v.knownBits.getLsbD (v.bits - 1), v.value.getLsbD (v.bits - 1))

def getSignedMaxValue : Bits :=
  let negative := match v.sign with
    | (true, sign) => sign
    | (false, _) => false
  if negative then fill v.getUnsignedMinValue (v.bits - 1) 256 true else v.getUnsignedMaxValue

def getSignedMinValue : Bits :=
  let negative := match v.sign with
    | (true, sign) => sign
    | (false, _) => true
  if negative then fill v.getUnsignedMaxValue (v.bits - 1) 256 true else v.getUnsignedMinValue

def allKnown : Bool := allBits v.knownBits v.bits

def unknown (bits : Nat) : Value := ⟨0, 0, bits⟩

end Value

/-- `is_single_constant`. The bits of the value fill whole bytes, and the last one has the sign. -/
def isSingleConstant : List Value → Option Int
  | [v] => if v.allKnown then some (Int.bmod (v.value.toNat % 2 ^ v.bits) (2 ^ ((v.bits + 7) / 8 * 8)))
    else none
  | _ => none

/-- The loop of `get_max_signed` -/
def maxSigned : List Value → Int → Option Int
  | [], m => some m
  | v :: vs, m =>
    match v.sign with
    | (false, _) => none
    | (true, sign) =>
      let x := if sign then v.getSignedMinValue.toInt else v.getSignedMaxValue.toInt
      maxSigned vs (if m.natAbs < x.natAbs then x else m)

def getMaxSigned (set : List Value) : Option Int := maxSigned set 0

def getMaxUnsigned (set : List Value) : Nat :=
  set.foldl (fun m v => max v.getUnsignedMaxValue.toNat m) 0

end Solang.Codegen.StrengthReduce

/-!
## The values of an expression

`codegen/strength_reduce/expression_values.rs`: the value set of an expression, from those of the
variables. A `HashSet` is a list in the order in which it is iterated over, which is not specified.
-/

namespace Solang.Codegen

/-- What the widths of types need of `Namespace`: the widths and signs of enums and user types are those
of their integer types. -/
structure StrengthReduce.Namespace where
  addressLength : Nat
  valueLength : Nat
  selectorLength : Nat
  storageBits : Nat
  enumTy : Nat → Ty
  enumBits : Nat → Nat
  userBits : Nat → Nat
  userSigned : Nat → Bool

open StrengthReduce

/-- `Type::bits`, which panics on the other types -/
def Ty.bits (ns : Namespace) : Ty → Nat
  | .contract _ | .address _ => ns.addressLength * 8
  | .bool => 1
  | .int n | .uint n => n
  | .bytes n => n * 8
  | .enum no => ns.enumBits no
  | .value => ns.valueLength * 8
  | .storageRef _ _ => ns.storageBits
  | .ref ty => ty.bits ns
  | .functionSelector => ns.selectorLength * 8
  | .userType no => ns.userBits no
  | _ => 0

/-- `Type::is_signed_int` -/
def Ty.isSignedInt (ns : Namespace) : Ty → Bool
  | .int _ => true
  | .ref ty => ty.isSignedInt ns
  | .storageRef _ ty => ty.isSignedInt ns
  | .userType no => ns.userSigned no
  | _ => false

/-- `Type::default`, up to the types that the value sets do not track -/
def Ty.default (ns : Namespace) : Ty → Option Expression
  | .address payable => some (.numberLiteral (.address payable) 0)
  | .uint n => some (.numberLiteral (.uint n) 0)
  | .int n => some (.numberLiteral (.int n) 0)
  | .bool => some (.boolLiteral false)
  | .bytes n => some (.bytesLiteral (.bytes n) (List.replicate n 0))
  | .enum no => some (.numberLiteral (ns.enumTy no) 0)
  | _ => none

def UnaryOp.ty : UnaryOp → Ty
  | zeroExt ty | signExt ty | trunc ty | cast ty | bytesCast ty _ | bitwiseNot ty | negate ty _ | getRef ty
  | load ty | structMember ty _ | storageArrayLength ty _ | allocDynamicBytes ty _ => ty
  | not => .bool
  | vectorData => .uint 64

def BinaryOp.ty : BinaryOp → Ty
  | add ty _ | subtract ty _ | multiply ty _ | unsignedDivide ty | signedDivide ty | unsignedModulo ty
  | signedModulo ty | power ty _ | bitwiseAnd ty | bitwiseOr ty | bitwiseXor ty | shiftLeft ty
  | shiftRight ty _ | subscript ty _ => ty
  | more _ | less _ | moreEqual _ | lessEqual _ | equal | notEqual | stringCompare => .bool
  | advancePointer => .bufferPointer

def NaryOp.ty : NaryOp → Ty
  | arrayLiteral ty _ | constArrayLiteral ty _ | structLiteral ty | keccak256 ty => ty
  | builtin tys _ => tys.headD .void
  | formatString => .string

/-- `Expression::ty` -/
def Expression.ty : Expression → Ty
  | .numberLiteral ty _ | .bytesLiteral ty _ | .rationalNumberLiteral ty _ | .functionArg ty _
  | .variable ty _ | .internalFunctionCfg ty _ | .undefined ty => ty
  | .boolLiteral _ => .bool
  | .returnData => .dynamicBytes
  | .poison | .compileTime _ => .unreachable
  | .unary op _ => op.ty
  | .binary op _ _ => op.ty
  | .nary op _ => op.ty

namespace StrengthReduce

/-- `track` -/
def track : Ty → Bool
  | .uint _ | .int _ | .bool | .value | .userType _ => true
  | _ => false

/-- `Variables` -/
abbrev Variables := Nat → Option (List Value)

/-- `to_signed_bytes_le`, resized to 32 bytes with the sign -/
def ofBigInt (v : Int) : Bits := BitVec.ofInt 256 v

section Values

/-! ### The operations -/

variable (ns : Namespace)

def numberLiteralValues (ty : Ty) (v : Int) : List Value :=
  [⟨BitVec.allOnes 256, bigintToBitarr v (ty.bits ns), ty.bits ns⟩]

def boolLiteralValues (v : Bool) : List Value := [⟨setBit 0 0 true, setBit 0 0 v, 1⟩]

def zeroExtValue (ty : Ty) (v : Value) : Value :=
  { v with knownBits := fill v.knownBits v.bits (ty.bits ns) true, bits := ty.bits ns }

def signExtValue (ty : Ty) (v : Value) : Value where
  knownBits := fill v.knownBits v.bits (ty.bits ns) (v.knownBits.getLsbD (v.bits - 1))
  value := fill v.value v.bits (ty.bits ns) (v.value.getLsbD (v.bits - 1))
  bits := ty.bits ns

def truncValue (ty : Ty) (v : Value) : Value where
  knownBits := fill v.knownBits (ty.bits ns) v.bits true
  value := fill v.value (ty.bits ns) v.bits false
  bits := ty.bits ns

def bitwiseOrValue (l r : Value) : Value where
  value := l.value ||| (r.value &&& r.knownBits)
  knownBits := l.knownBits ||| (r.value &&& r.knownBits)
  bits := l.bits

def bitwiseAndValue (l r : Value) : Value where
  value := l.value &&& (r.knownBits &&& ~~~r.value)
  knownBits := l.knownBits ||| (r.knownBits &&& ~~~r.value)
  bits := l.bits

def bitwiseXorValue (l r : Value) : Value where
  value := fill (l.value ^^^ r.value) l.bits 256 false
  knownBits := l.knownBits &&& r.knownBits
  bits := l.bits

/-- The body of `add_values` and `subtract_values` -/
def linearValue (op : Int → Int → Int) (ty : Ty) (l r : Value) : Value :=
  let minPossible := fill (ofBigInt (op l.getUnsignedMinValue.toInt r.getUnsignedMinValue.toInt))
    (ty.bits ns) 256 false
  let maxPossible := fill (ofBigInt (op l.getUnsignedMaxValue.toInt r.getUnsignedMaxValue.toInt))
    (ty.bits ns) 256 false
  { value := minPossible
    knownBits := ~~~(minPossible ^^^ maxPossible) &&& l.knownBits &&& r.knownBits
    bits := l.bits }

def addValue : Ty → Value → Value → Value := linearValue ns (· + ·)

def subtractValue : Ty → Value → Value → Value := linearValue ns (· - ·)

def multiplyValue (ty : Ty) (l r : Value) : Value :=
  if ty.isSignedInt ns then
    match l.sign, r.sign with
    | (true, leftSign), (true, rightSign) =>
      let left := if leftSign then l.getSignedMinValue else l.getSignedMaxValue
      let right := if rightSign then r.getSignedMinValue else r.getSignedMaxValue
      let maxPossible := left.toInt * right.toInt
      let topBit := highestSetBit maxPossible.natAbs
      { value := ofBigInt maxPossible
        knownBits :=
          if l.allKnown && r.allKnown then BitVec.allOnes 256 else fill 0 (topBit + 1) l.bits true
        bits := l.bits }
    | _, _ => ⟨0, 0, l.bits⟩
  else
    let maxPossible := l.getUnsignedMaxValue.toNat * r.getUnsignedMaxValue.toNat
    if l.allKnown && r.allKnown then ⟨BitVec.allOnes 256, BitVec.ofNat 256 maxPossible, l.bits⟩
    else
      let topBit := highestSetBit maxPossible
      { value := 0
        knownBits := if topBit < l.bits then fill 0 (topBit + 1) l.bits true else 0
        bits := l.bits }

/-- The body of the four comparisons: true for the largest left and the smallest right value, and false the
other way around -/
def compareValue (cmp : Int → Int → Bool) (signed : Bool) (l r : Value) : Value :=
  let isTrue :=
    if signed then cmp l.getSignedMaxValue.toInt r.getSignedMinValue.toInt
    else cmp l.getUnsignedMaxValue.toNat r.getUnsignedMinValue.toNat
  let isFalse :=
    if signed then !cmp l.getSignedMinValue.toInt r.getSignedMaxValue.toInt
    else !cmp l.getUnsignedMinValue.toNat r.getUnsignedMaxValue.toNat
  if isTrue then ⟨setBit 0 0 true, setBit 0 0 true, 1⟩
  else if isFalse then ⟨setBit 0 0 true, 0, 1⟩
  else ⟨0, 0, 1⟩

def moreValue : Bool → Value → Value → Value := compareValue fun l r => r < l

def moreEqualValue : Bool → Value → Value → Value := compareValue fun l r => r ≤ l

def lessValue : Bool → Value → Value → Value := compareValue fun l r => l < r

def lessEqualValue : Bool → Value → Value → Value := compareValue fun l r => l ≤ r

def couldBeEqual (signed : Bool) (l r : Value) : Bool :=
  if signed then
    decide (r.getSignedMaxValue.toInt ≤ l.getSignedMinValue.toInt) &&
      decide (l.getSignedMinValue.toInt ≤ r.getSignedMaxValue.toInt)
  else
    decide (r.getUnsignedMaxValue.toInt ≤ l.getUnsignedMinValue.toInt) &&
      decide (l.getUnsignedMinValue.toInt ≤ r.getUnsignedMaxValue.toInt)

/-- The body of `equal_values` and `not_equal_values` -/
def equalityValue (result : Bool → Bool) (signed : Bool) (l r : Value) : Value :=
  if !couldBeEqual signed l r || l.allKnown && r.allKnown then
    ⟨setBit 0 0 true, setBit 0 0 (result (couldBeEqual signed l r)), 1⟩
  else ⟨0, 0, 1⟩

def equalValue : Bool → Value → Value → Value := equalityValue id

def notEqualValue : Bool → Value → Value → Value := equalityValue not

def notValue (v : Value) : Value :=
  if v.knownBits.getLsbD 0 then { v with value := setBit v.value 0 (!v.value.getLsbD 0) } else v

def complementValue (v : Value) : Value :=
  { v with value := v.value &&& v.knownBits ||| ~~~v.value &&& v.knownBits }

/-- The set of the other expressions: of a type that is tracked, no bit of the value is known -/
def otherValues (ty : Ty) : List Value :=
  if track ty then [⟨fill (BitVec.allOnes 256) 0 (ty.bits ns) false, 0, ty.bits ns⟩] else []

/-- The set of `Undefined` is that of the default. -/
def undefinedValues (ty : Ty) : List Value :=
  match ty.default ns with
  | some (.numberLiteral ty v) => numberLiteralValues ns ty v
  | some (.boolLiteral v) => boolLiteralValues v
  | some e => otherValues ns e.ty
  | none => []

/-! ### Sets -/

variable (order : List Value → List Value) (vars : Variables)

/-- `collect` of a `HashSet` -/
def collect (set : List Value) : List Value := order set.eraseDups

/-- The pairs of `cartesian_product` -/
def product (f : Value → Value → Value) (left right : List Value) : List Value :=
  collect order (left.flatMap fun l => right.map (f l))

/-- `expression_values` -/
def expressionValues : Expression → List Value
  | .numberLiteral ty value => numberLiteralValues ns ty value
  | .boolLiteral value => boolLiteralValues value
  | .unary (.zeroExt ty) expr => collect order ((expressionValues expr).map (zeroExtValue ns ty))
  | .unary (.signExt ty) expr => collect order ((expressionValues expr).map (signExtValue ns ty))
  | .unary (.trunc ty) expr => collect order ((expressionValues expr).map (truncValue ns ty))
  | .binary op left right =>
    let values f := product order f (expressionValues left) (expressionValues right)
    match op with
    | .bitwiseOr _ => values bitwiseOrValue
    | .bitwiseAnd _ => values bitwiseAndValue
    | .bitwiseXor _ => values bitwiseXorValue
    | .add ty _ => values (addValue ns ty)
    | .subtract ty _ => values (subtractValue ns ty)
    | .multiply ty _ => values (multiplyValue ns ty)
    | .more signed => values (moreValue signed)
    | .moreEqual signed => values (moreEqualValue signed)
    | .less signed => values (lessValue signed)
    | .lessEqual signed => values (lessEqualValue signed)
    | .equal => values (equalValue (left.ty.isSignedInt ns))
    | .notEqual => values (notEqualValue (left.ty.isSignedInt ns))
    | op => otherValues ns op.ty
  | .unary .not expr => collect order ((expressionValues expr).map notValue)
  | .unary (.bitwiseNot _) expr => collect order ((expressionValues expr).map complementValue)
  | .variable _ varNo => (vars varNo).getD []
  | .internalFunctionCfg _ _ => []
  | .undefined ty => undefinedValues ns ty
  | e => otherValues ns e.ty

end Values

end StrengthReduce

end Solang.Codegen
