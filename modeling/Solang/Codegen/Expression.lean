import Mathlib

/-!
# Types and expressions of the code generator

`Ty` is `sema::ast::Type` and `Expression` is `codegen::Expression`, without
source locations. The unary, binary and n-ary shapes of `Expression` carry
their variant and its non-expression fields in `UnaryOp`, `BinaryOp` and
`NaryOp`, the grouping the subexpression passes use themselves.
-/

namespace Solang.Codegen

inductive ArrayLength where
  | fixed (n : Nat)
  | dynamic
  | anyFixed
  deriving DecidableEq, Repr

/-- `StructType`; the number indexes the namespace's struct declarations. -/
inductive StructType where
  | userDefined (no : Nat)
  | accountInfo
  | accountMeta
  | externalFunction
  | solParameters
  deriving DecidableEq, Repr

inductive Ty where
  | address (payable : Bool)
  | bool
  | int (bits : Nat)
  | uint (bits : Nat)
  | rational
  | bytes (n : Nat)
  | dynamicBytes
  | string
  | array (elem : Ty) (dims : List ArrayLength)
  | enum (no : Nat)
  | struct (st : StructType)
  | mapping (key value : Ty)
  | contract (no : Nat)
  | ref (ty : Ty)
  | storageRef (immutable : Bool) (ty : Ty)
  | internalFunction
  | externalFunction
  | userType (no : Nat)
  | value
  | void
  | unreachable
  | slice (ty : Ty)
  | unresolved
  | bufferPointer
  | functionSelector
  deriving DecidableEq, Repr

/-- `codegen::Builtin`. The kinds that no pass singles out are numbered. -/
inductive Builtin where
  | arrayLength
  | blake2_128
  | blake2_256
  | concat
  | keccak256
  | readFromBuffer
  | ripemd160
  | sha256
  | other (no : Nat)
  deriving DecidableEq, Repr

inductive UnaryOp where
  | zeroExt (ty : Ty)
  | signExt (ty : Ty)
  | trunc (ty : Ty)
  | cast (ty : Ty)
  | bytesCast (ty source : Ty)
  | not
  | bitwiseNot (ty : Ty)
  | negate (ty : Ty) (overflowing : Bool)
  | getRef (ty : Ty)
  | load (ty : Ty)
  | structMember (ty : Ty) (member : Nat)
  | storageArrayLength (ty elemTy : Ty)
  | vectorData
  /-- `AllocDynamicBytes`, whose operand is the size. -/
  | allocDynamicBytes (ty : Ty) (initializer : Option (List UInt8))
  deriving DecidableEq, Repr

inductive BinaryOp where
  | add (ty : Ty) (overflowing : Bool)
  | subtract (ty : Ty) (overflowing : Bool)
  | multiply (ty : Ty) (overflowing : Bool)
  | unsignedDivide (ty : Ty)
  | signedDivide (ty : Ty)
  | unsignedModulo (ty : Ty)
  | signedModulo (ty : Ty)
  | power (ty : Ty) (overflowing : Bool)
  | bitwiseAnd (ty : Ty)
  | bitwiseOr (ty : Ty)
  | bitwiseXor (ty : Ty)
  | shiftLeft (ty : Ty)
  | shiftRight (ty : Ty) (signed : Bool)
  | more (signed : Bool)
  | less (signed : Bool)
  | moreEqual (signed : Bool)
  | lessEqual (signed : Bool)
  | equal
  | notEqual
  | advancePointer
  | subscript (ty arrayTy : Ty)
  | stringCompare
  deriving DecidableEq, Repr

inductive NaryOp where
  | arrayLiteral (ty : Ty) (dimensions : List Nat)
  | constArrayLiteral (ty : Ty) (dimensions : List Nat)
  | structLiteral (ty : Ty)
  | keccak256 (ty : Ty)
  | builtin (tys : List Ty) (kind : Builtin)
  | formatString
  deriving DecidableEq, Repr

inductive Expression where
  | numberLiteral (ty : Ty) (value : Int)
  | boolLiteral (value : Bool)
  | bytesLiteral (ty : Ty) (value : List UInt8)
  | rationalNumberLiteral (ty : Ty) (rational : Rat)
  | functionArg (ty : Ty) (argNo : Nat)
  | variable (ty : Ty) (varNo : Nat)
  | internalFunctionCfg (ty : Ty) (cfgNo : Nat)
  | returnData
  | undefined (ty : Ty)
  | poison
  /-- A `StringLocation::CompileTime` operand of `StringCompare`. -/
  | compileTime (bytes : List UInt8)
  | unary (op : UnaryOp) (expr : Expression)
  | binary (op : BinaryOp) (left right : Expression)
  | nary (op : NaryOp) (args : List Expression)

end Solang.Codegen
