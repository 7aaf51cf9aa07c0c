import Solang.Codegen.Encoding.LittleEndian

/-!
# Conversions in sema

`Expression::cast` for number literals, and `Expression::cast_types` for the types whose values are integers: what
expression a conversion becomes, or which error is reported. Warnings and source locations are left out.

The expression that is converted is `operand`; for `cast_types` it is known besides whether it is a constant number.
-/

namespace Solang.Conversions

/-- The types of integers, and of what is converted to them -/
inductive Ty where
  | uint (bits : Nat)
  | int (bits : Nat)
  | enum (no : Nat)
  | address (payable : Bool)
  | value
  | bytes (n : Nat)
  deriving DecidableEq, Repr

/-- The lengths in bytes, and how many values each enum has -/
structure Namespace where
  addressLength : Nat
  valueLength : Nat
  enumValues : Nat → Nat

namespace Ty

/-- `Type::bits`; an enum is a `uint8`. -/
def bits (ns : Namespace) : Ty → Nat
  | uint bits => bits
  | int bits => bits
  | enum _ => 8
  | address _ => ns.addressLength * 8
  | value => ns.valueLength * 8
  | bytes n => n * 8

/-- `is_signed_int` -/
def isSigned : Ty → Bool
  | int _ => true
  | _ => false

/-- Whether values are integers of LLVM; an address is an array of bytes. -/
def isInteger : Ty → Bool
  | address _ => false
  | _ => true

end Ty

/-- What a conversion becomes -/
inductive CastExpr where
  | operand
  | numberLiteral (ty : Ty) (value : Int)
  | trunc (ty : Ty) (expr : CastExpr)
  | checkingTrunc (ty : Ty) (expr : CastExpr)
  | zeroExt (ty : Ty) (expr : CastExpr)
  | signExt (ty : Ty) (expr : CastExpr)
  | cast (ty : Ty) (expr : CastExpr)
  | shiftLeft (ty : Ty) (expr : CastExpr) (shift : Nat)
  | shiftRight (ty : Ty) (expr : CastExpr) (shift : Nat)
  deriving DecidableEq, Repr

/-- The texts of the errors, without the types in them -/
inductive CastError where
  | implicitNotAllowed
  | implicitWouldTruncate
  | implicitWouldChangeSign
  | implicitNegative
  | implicitToAddress
  | largerThanAddress
  | negativeToBytes
  | notAllowed
  | notPossible
  deriving DecidableEq, Repr

abbrev CastResult := Except CastError CastExpr

/-- The choice by the width: `Trunc`, an extension, or `Cast` -/
def resize (extend : Ty → CastExpr → CastExpr) (fromLen toLen : Nat) (ty : Ty) (expr : CastExpr) : CastExpr :=
  if toLen < fromLen then .trunc ty expr else if fromLen < toLen then extend ty expr else .cast ty expr

/-- A conversion that has to be explicit -/
def explicitly (implicit : Bool) (error : CastError) (expr : CastExpr) : CastResult :=
  if implicit then .error error else .ok expr

/-- Explicit conversions to and from `bytesN`, between the same number of bytes -/
def sameSize (implicit : Bool) (fromLen toLen : Nat) (ty : Ty) : CastResult :=
  if implicit then .error .implicitNotAllowed
  else if fromLen ≠ toLen then .error .notAllowed
  else .ok (.cast ty .operand)

section CastTypes

variable (ns : Namespace) (constant : Option Int) (implicit : Bool)

/-- The arm for an integer and an enum. `constant` is what `eval_const_number` has for the operand. -/
def castToEnum (fromWidth no : Nat) : CastResult :=
  if implicit then .error .implicitNotAllowed
  else
    match constant with
    | some number =>
      if 0 ≤ number ∧ number < 2 ^ 64 ∧ number.toNat < ns.enumValues no then
        .ok (.numberLiteral (.enum no) number)
      else .ok (resize .zeroExt fromWidth 8 (.enum no) .operand)
    | none => .ok (resize .zeroExt fromWidth 8 (.enum no) .operand)

/-- The arm for an integer and an address: first to an integer of the size of an address -/
def castToAddress (signed : Bool) (fromLen : Nat) (payable : Bool) : CastResult :=
  let addressToInt := if signed then Ty.int (ns.addressLength * 8) else Ty.uint (ns.addressLength * 8)
  let expr :=
    if ns.addressLength * 8 < fromLen then CastExpr.trunc addressToInt .operand
    else if fromLen < ns.addressLength * 8 then
      if signed then .zeroExt addressToInt .operand else .signExt addressToInt .operand
    else .operand
  explicitly implicit .implicitNotAllowed (.cast (.address payable) expr)

/-- The arm for an address and an integer -/
def castFromAddress (signed : Bool) (toLen : Nat) (ty : Ty) : CastResult :=
  let addressToInt := if signed then Ty.int (ns.addressLength * 8) else Ty.uint (ns.addressLength * 8)
  let expr := CastExpr.cast addressToInt .operand
  explicitly implicit .implicitNotAllowed
    (if toLen < ns.addressLength * 8 then .trunc ty expr
    else if ns.addressLength * 8 < toLen then if signed then .zeroExt ty expr else .signExt ty expr
    else expr)

/-- `cast_types` -/
def castTypes (source target : Ty) : CastResult :=
  match source, target with
  | .bytes n, .enum no => if n = 1 ∧ implicit = false then castToEnum ns constant implicit 8 no else .error .notPossible
  | .uint fromWidth, .enum no => castToEnum ns constant implicit fromWidth no
  | .int fromWidth, .enum no => castToEnum ns constant implicit fromWidth no
  | .enum _, .uint toWidth => explicitly implicit .implicitNotAllowed (resize .zeroExt 8 toWidth target .operand)
  | .enum _, .int toWidth => explicitly implicit .implicitNotAllowed (resize .zeroExt 8 toWidth target .operand)
  | .uint fromLen, .uint toLen =>
    if toLen < fromLen ∧ implicit then .error .implicitWouldTruncate
    else .ok (resize .zeroExt fromLen toLen target .operand)
  | .int fromLen, .int toLen =>
    if toLen < fromLen ∧ implicit then .error .implicitWouldTruncate
    else .ok (resize .signExt fromLen toLen target .operand)
  | .int fromLen, .uint toLen =>
    explicitly implicit .implicitWouldChangeSign (resize .signExt fromLen toLen target .operand)
  | .uint fromLen, .int toLen =>
    if fromLen < toLen then .ok (.zeroExt target .operand)
    else explicitly implicit .implicitWouldChangeSign (resize .zeroExt fromLen toLen target .operand)
  | .value, .uint toLen =>
    if toLen < ns.valueLength * 8 ∧ implicit then .error .implicitWouldTruncate
    else .ok (resize .signExt (ns.valueLength * 8) toLen target .operand)
  | .value, .int toLen =>
    explicitly implicit .implicitWouldChangeSign (resize .zeroExt (ns.valueLength * 8) toLen target .operand)
  | .uint fromLen, .value =>
    if ns.valueLength * 8 < fromLen then .ok (.checkingTrunc target .operand)
    else if fromLen < ns.valueLength * 8 then .ok (.signExt target .operand)
    else .ok (.cast target .operand)
  | .uint fromLen, .address payable => castToAddress ns implicit false fromLen payable
  | .int fromLen, .address payable => castToAddress ns implicit true fromLen payable
  | .address _, .uint toLen => castFromAddress ns implicit false toLen target
  | .address _, .int toLen => castFromAddress ns implicit true toLen target
  | .bytes fromLen, .bytes toLen =>
    if fromLen < toLen then .ok (.shiftLeft target (.zeroExt target .operand) ((toLen - fromLen) * 8))
    else if implicit then .error .implicitWouldTruncate
    else .ok (.trunc target (.shiftRight source .operand ((fromLen - toLen) * 8)))
  | .bytes fromLen, .uint toLen =>
    if fromLen = 1 ∧ toLen = 8 then .ok .operand else sameSize implicit (fromLen * 8) toLen target
  | .bytes fromLen, .int toLen => sameSize implicit (fromLen * 8) toLen target
  | .uint fromLen, .bytes toLen =>
    if fromLen = 8 ∧ toLen = 1 then .ok .operand else sameSize implicit fromLen (toLen * 8) target
  | .int fromLen, .bytes toLen => sameSize implicit fromLen (toLen * 8) target
  | .bytes fromLen, .address _ => sameSize implicit (fromLen * 8) (ns.addressLength * 8) target
  | .address _, .bytes toLen => sameSize implicit (ns.addressLength * 8) (toLen * 8) target
  | .address false, .address true => explicitly implicit .implicitNotAllowed (.cast target .operand)
  | .address true, .address false => .ok (.cast target .operand)
  | _, _ => .error .notPossible

end CastTypes

/-! ## Number literals -/

/-- `is_primitive` -/
def Ty.isPrimitive : Ty → Bool
  | .enum _ => false
  | _ => true

/-- `BigInt::bits`, of the magnitude -/
def bitLength (value : Int) : Nat := value.natAbs.size

/-- `BigInt::to_signed_bytes_le`: as few bytes as have room for the sign -/
def toSignedBytesLe (value : Int) : List UInt8 :=
  let count := (if value < 0 then bitLength (value + 1) else bitLength value) / 8 + 1
  Codegen.Encoding.toLittleEndian count (value % 256 ^ count).toNat

/-- The bytes of a negative literal, resized to those of the type and read without a sign -/
def reencode (value : Int) (bits : Nat) : Int :=
  Codegen.Encoding.littleEndian ((toSignedBytesLe value).takeD (bits / 8) 0xff)

/-- `Expression::cast` of a number literal of the type `source` -/
def castLiteral (ns : Namespace) (implicit : Bool) (source : Ty) (value : Int) (target : Ty) : CastResult :=
  if source = target then .ok .operand
  else
    match source.isPrimitive, target with
    | true, .uint toLen =>
      if value < 0 then explicitly implicit .implicitNegative (.numberLiteral target (reencode value toLen))
      else if toLen ≤ bitLength value then .error .implicitWouldTruncate
      else .ok (.numberLiteral target value)
    | true, .int toLen =>
      if toLen ≤ bitLength value then .error .implicitWouldTruncate else .ok (.numberLiteral target value)
    | true, .bytes toLen =>
      if value < 0 then .error .negativeToBytes
      else if 0 < value ∧ source.bits ns ≠ toLen * 8 then .error .notAllowed
      else .ok (.numberLiteral target value)
    | true, .address _ =>
      if implicit then .error .implicitToAddress
      else if ns.addressLength * 8 < bitLength value then .error .largerThanAddress
      else .ok (.numberLiteral target value)
    | _, _ => castTypes ns (some value) implicit source target

end Solang.Conversions
