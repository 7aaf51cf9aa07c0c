import Solang.Codegen.StrengthReduce.ExpressionValues

/-!
# Cheaper expressions

`expression_reduce` of `codegen/strength_reduce/mod.rs`: a multiplication, division or remainder of 128
bits or more becomes a shift or a mask, when the right operand is a power of two, or one of 64 bits, when
the value sets of the operands say so.
-/

namespace Solang.Codegen

open StrengthReduce

/-- `Type::is_primitive` -/
def Ty.isPrimitive : Ty → Bool
  | .bool | .address _ | .int _ | .uint _ | .bytes _ | .rational | .value => true
  | .ref ty | .storageRef _ ty => ty.isPrimitive
  | _ => false

/-- An integer of one width as an integer of another one -/
def Expression.resize (expr : Expression) (extend : UnaryOp) (width : Nat) (target : Ty) (targetWidth : Nat) :
    Expression :=
  if targetWidth < width then .unary (.trunc target) expr
  else if width < targetWidth then .unary extend expr
  else .unary (.cast target) expr

/-- `Expression::cast` to an integer type, from literals and integers. The other casts keep their name. -/
def Expression.cast (ns : Namespace) (expr : Expression) (target : Ty) : Expression :=
  if expr.ty = target then expr
  else
    match expr, expr.ty.isPrimitive, target with
    | .numberLiteral _ v, true, .uint n => .numberLiteral target (if v < 0 then v % 2 ^ (n / 8 * 8) else v)
    | .numberLiteral _ v, true, .int _ => .numberLiteral target v
    | _, _, _ =>
      match expr.ty, target with
      | .uint n, .uint k | .uint n, .int k => expr.resize (.zeroExt target) n target k
      | .int n, .uint k | .int n, .int k => expr.resize (.signExt target) n target k
      | .value, .uint k | .value, .int k => expr.resize (.signExt target) (ns.valueLength * 8) target k
      | _, _ => .unary (.cast target) expr

/-- The operands go through the filter, but not those of a remainder. -/
def Expression.copyOperands (filter : Expression → Expression) : Expression → Expression
  | .unary op e =>
    match op with
    | .getRef _ | .vectorData => .unary op e
    | _ => .unary op (filter e)
  | .binary op left right =>
    match op with
    | .unsignedModulo _ | .signedModulo _ => .binary op left right
    | _ => .binary op (filter left) (filter right)
  | .nary op args =>
    match op with
    | .keccak256 _ => .nary op args
    | _ => .nary op (args.map filter)
  | e => e

/-- `Expression::copy_filter` -/
def Expression.copyFilter (filter : Expression → Expression) (expr : Expression) : Expression :=
  filter (expr.copyOperands filter)

namespace StrengthReduce

/-- The loop over the powers of two: `cmp` and its logarithm, when it is this constant -/
def findPower (right : Int) : Nat → Int → Int → Option (Int × Int)
  | 0, _, _ => none
  | n + 1, cmp, shift => if cmp = right then some (cmp, shift) else findPower right n (cmp * 2) (shift + 1)

/-- What an expression is replaced with, if anything -/
inductive Rewrite where
  | keep
  | power (cmp shift : Int)
  | int64
  | uint64
  deriving DecidableEq

section Reduce

variable (ns : Namespace) (order : List Value → List Value) (vars : Variables)

/-- What the three reductions have in common: the power of two from which the loop starts, and when both
operands fit -/
def rewrite (usePower : Bool) (cmp shift : Int) (fitsSigned : Int → Int → Bool)
    (fitsUnsigned : Nat → Nat → Bool) (ty : Ty) (left right : Expression) : Rewrite :=
  let bits := ty.bits ns
  if 128 ≤ bits then
    let leftValues := expressionValues ns order vars left
    let rightValues := expressionValues ns order vars right
    let power :=
      if usePower then (isSingleConstant rightValues).bind fun right => findPower right (bits - 1) cmp shift
      else none
    match power with
    | some (cmp, shift) => .power cmp shift
    | none =>
      if ty.isSignedInt ns then
        match getMaxSigned leftValues, getMaxSigned rightValues with
        | some leftMax, some rightMax => if fitsSigned leftMax rightMax then .int64 else .keep
        | _, _ => .keep
      else if fitsUnsigned (getMaxUnsigned leftValues) (getMaxUnsigned rightValues) then .uint64
      else .keep
  else .keep

/-- `to_i64().is_some()` -/
def fitsInt64 (v : Int) : Bool := -2 ^ 63 ≤ v && v < 2 ^ 63

/-- `to_u64().is_some()` -/
def fitsUint64 (v : Nat) : Bool := v < 2 ^ 64

def multiplyRewrite (overflowing : Bool) : Ty → Expression → Expression → Rewrite :=
  rewrite ns order vars overflowing 2 1 (fun l r => fitsInt64 (l * r)) fun l r => l * r ≤ 2 ^ 64 - 1

def divideRewrite : Ty → Expression → Expression → Rewrite :=
  rewrite ns order vars true 2 1 (fun l r => fitsInt64 l && fitsInt64 r) fun l r =>
    fitsUint64 l && fitsUint64 r

def moduloRewrite : Ty → Expression → Expression → Rewrite :=
  rewrite ns order vars true 1 0 (fun l r => fitsInt64 l && fitsInt64 r) fun l r =>
    fitsUint64 l && fitsUint64 r

/-- The operation on 64 bits, extended to the type -/
def narrowed (extend : UnaryOp) (op : BinaryOp) (target : Ty) (left right : Expression) : Expression :=
  .unary extend (.binary op (left.cast ns target) (right.cast ns target))

def reduceMultiply (ty : Ty) (overflowing : Bool) (left right : Expression) : Expression :=
  match multiplyRewrite ns order vars overflowing ty left right with
  | .keep => .binary (.multiply ty overflowing) left right
  | .power _ shift => .binary (.shiftLeft ty) left (.numberLiteral ty shift)
  | .int64 => narrowed ns (.signExt ty) (.multiply (.int 64) overflowing) (.int 64) left right
  | .uint64 => narrowed ns (.zeroExt ty) (.multiply (.uint 64) overflowing) (.uint 64) left right

def reduceDivide (op : BinaryOp) (ty : Ty) (left right : Expression) : Expression :=
  match divideRewrite ns order vars ty left right with
  | .keep => .binary op left right
  | .power _ shift => .binary (.shiftRight ty (ty.isSignedInt ns)) left (.numberLiteral ty shift)
  | .int64 => narrowed ns (.signExt ty) (.unsignedDivide (.int 64)) (.int 64) left right
  | .uint64 => narrowed ns (.zeroExt ty) (.unsignedDivide (.uint 64)) (.uint 64) left right

def reduceModulo (op : BinaryOp) (ty : Ty) (left right : Expression) : Expression :=
  match moduloRewrite ns order vars ty left right with
  | .keep => .binary op left right
  | .power cmp _ => .binary (.bitwiseAnd ty) left (.numberLiteral ty (cmp - 1))
  | .int64 => narrowed ns (.signExt ty) (.signedModulo (.int 64)) (.int 64) left right
  | .uint64 => narrowed ns (.zeroExt ty) (.unsignedModulo (.uint 64)) (.uint 64) left right

/-- The closure `filter` of `expression_reduce` -/
def filter : Expression → Expression
  | .binary (.multiply ty overflowing) left right => reduceMultiply ns order vars ty overflowing left right
  | .binary (.unsignedDivide ty) left right =>
    reduceDivide ns order vars (.unsignedDivide ty) ty left right
  | .binary (.signedDivide ty) left right => reduceDivide ns order vars (.signedDivide ty) ty left right
  | .binary (.signedModulo ty) left right => reduceModulo ns order vars (.signedModulo ty) ty left right
  | .binary (.unsignedModulo ty) left right =>
    reduceModulo ns order vars (.unsignedModulo ty) ty left right
  | expr => expr

/-- `expression_reduce` -/
def expressionReduce (expr : Expression) : Expression := expr.copyFilter (filter ns order vars)

end Reduce

end StrengthReduce

end Solang.Codegen
