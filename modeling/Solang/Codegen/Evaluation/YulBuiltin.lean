import Solang.Lib.EvmWord
import Solang.Codegen.LiteralConversions
import Solang.Codegen.Evaluation.Expression

/-!
# Arithmetic in Yul

The code that `codegen/yul/builtin.rs` generates for the builtins of arithmetic, and what they mean. The width of an
operation is that of a type that both operands are converted to: the wider of the two, and one byte more where an
integer without a sign meets one with a sign.

An operand is a literal, or the code that is generated for an expression and the value that it leaves. Where the
compiler panics, or the emitter does, the code aborts.
-/

namespace Solang.Codegen.Evaluation.Yul

open EvmWord (Binary Ternary Instruction wrap)

/-- The types of operands. A contract is an address, and a reference is a pointer to memory. -/
inductive Ty where
  | bool
  | number (ty : Conversions.Ty)
  | reference
  deriving DecidableEq, Repr

structure Namespace extends Conversions.Namespace where
  ptrSize : Nat

def Ty.uint256 : Ty := .number (.uint 256)

variable (ns : Namespace)

def Ty.bits : Ty → Nat
  | bool => 1
  | number ty => ty.bits ns.toNamespace
  | reference => ns.ptrSize

/-- The integer that a pattern stands for -/
def Ty.read : Ty → Nat → Int
  | number ty, v => ty.read ns.toNamespace v
  | bool, v | reference, v => v

/-- Whether values are integers of LLVM -/
def Ty.isInteger : Ty → Bool
  | bool => true
  | number ty => ty.isInteger
  | reference => false

/-- An expression that has a value in every state: nothing in Yul is checked. -/
structure Value (ty : Ty) where
  get : State → Nat
  lt : ∀ s, get s < 2 ^ ty.bits ns

/-- What the source has for an operand. Number literals have the type of an integer. -/
inductive Operand where
  | numberLiteral (ty : Conversions.Ty) (value : Int)
  | boolLiteral (value : Bool)
  | code (ty : Ty) (expr : Code (Value ns ty))

/-! ## Expressions -/

/-- An expression of the code generator -/
inductive Expr where
  | numberLiteral (ty : Conversions.Ty) (value : Int)
  | boolLiteral (value : Bool)
  | other (ty : Ty) (value : Tree)

def Expr.ty : Expr → Ty
  | numberLiteral ty _ => .number ty
  | boolLiteral _ => .bool
  | other ty _ => ty

def Expr.eval : Expr → Tree
  | numberLiteral ty value => temp (wrap (ty.bits ns.toNamespace) value)
  | boolLiteral value => temp value.toNat
  | other _ value => value

/-- `expression` -/
def Operand.expression : Operand ns → Code Expr
  | numberLiteral ty value => pure (.numberLiteral ty value)
  | boolLiteral value => pure (.boolLiteral value)
  | code ty expr => do
    let v ← expr
    pure (.other ty fun s => some (v.get s))

/-- The value of a conversion of what is not a literal -/
def converting (source : Conversions.Ty) (cast : Conversions.CastExpr) (value : Tree) : Tree := fun s => do
  match cast.eval ns.toNamespace source (← value s) with
  | .value n => some n
  | .abort | .rejected => none

/-- `Expression::cast`. The emitter extends a `bool` with the sign. -/
def Expr.cast (ty : Conversions.Ty) : Expr → Expr
  | numberLiteral source value =>
    match Conversions.castLiteralCodegen ns.toNamespace source value ty with
    | .operand => .numberLiteral source value
    | .numberLiteral ty value => .numberLiteral ty value
    | expr => .other (.number ty) (converting ns source expr (temp (wrap (source.bits ns.toNamespace) value)))
  | boolLiteral value => .other (.number ty) (temp (Conversions.signExtend 1 (ty.bits ns.toNamespace) value.toNat))
  | other .bool value =>
    .other (.number ty) fun s => (value s).map (Conversions.signExtend 1 (ty.bits ns.toNamespace))
  | other (.number source) value =>
    .other (.number ty) (converting ns source (Conversions.castCodegen ns.toNamespace source ty) value)
  | other .reference value => .other (.number ty) fun s => (value s).map (· % 2 ^ ty.bits ns.toNamespace)

/-- `cast_to_number` -/
def castToNumber : Expr → Expr
  | .other .reference value => .other (.number (.uint ns.ptrSize)) value
  | .other (.number (.address payable)) value =>
    .other (.number (.uint (ns.addressLength * 8)))
      (converting ns (.address payable) (.cast (.uint (ns.addressLength * 8)) .operand) value)
  | expr => expr

/-- `type_bits_and_sign` -/
def typeBitsAndSign : Conversions.Ty → Option (Nat × Bool)
  | .uint n => some (n, false)
  | .int n => some (n, true)
  | .value => some (ns.valueLength * 8, false)
  | _ => none

/-- `coerce_number`, when bytes are not allowed and it is not for a comparison -/
def coerceNumber : Ty → Ty → Option Conversions.Ty
  | .bool, .number (.uint n) | .number (.uint n), .bool => some (.uint n)
  | .bool, .number (.int n) | .number (.int n), .bool => some (.int n)
  | .number l, .number r => do
    let (leftLen, leftSigned) ← typeBitsAndSign ns l
    let (rightLen, rightSigned) ← typeBitsAndSign ns r
    match leftSigned, rightSigned with
    | true, true => some (.int (max leftLen rightLen))
    | false, false => some (.uint (max leftLen rightLen))
    -- uint8 fits into int16
    | true, false => some (.int (min (max leftLen (rightLen + 8)) 256))
    | false, true => some (.int (min (max (leftLen + 8) rightLen) 256))
  | _, _ => none

def Expr.toNumberLiteral : Expr → Expr
  | boolLiteral value => .numberLiteral (.uint 256) (if value then 1 else 0)
  | expr => expr

/-- `equalize_types` -/
def equalizeTypes (left right : Expr) : Code (Expr × Expr) :=
  let left := left.toNumberLiteral
  let right := right.toNumberLiteral
  if left.ty = right.ty then pure (left, right)
  else do
    let castedType ← Logged.ofOption (coerceNumber ns left.ty right.ty)
    pure (left.cast ns castedType, right.cast ns castedType)

/-! ## Instructions -/

/-- An instruction for operands of one type -/
def instruction (instr : Instruction) (ty : Ty) (left right : Expr) : Expr :=
  .other ty fun s => do
    let x ← left.eval ns s
    let y ← right.eval ns s
    instr.eval (BitVec.ofNat (left.ty.bits ns) x) (BitVec.ofNat (left.ty.bits ns) y)

/-- `BitwiseNot` -/
def bitwiseNot (expr : Expr) : Expr :=
  .other expr.ty fun s => do
    let x ← expr.eval ns s
    if expr.ty.isInteger then some (~~~BitVec.ofNat (expr.ty.bits ns) x).toNat else none

/-- `Equal`, for the literal zero of the same type; addresses can be compared. -/
def equalZero (expr : Expr) : Expr :=
  .other .bool fun s => do
    let x ← expr.eval ns s
    if expr.ty = .reference then none else some (decide (x = 0)).toNat

/-- `AddMod` and `MulMod` are computed with 512 bits, and the result has 256 bits whatever the type of the operands. -/
def modular (op : Ternary) (x y k : Expr) : Expr :=
  .other .uint256 fun s => do
    let x := BitVec.ofNat 512 (← x.eval ns s)
    let y := BitVec.ofNat 512 (← y.eval ns s)
    let k := BitVec.ofNat 512 (← k.eval ns s)
    let dividend := match op with
      | .addmod => x + y
      | .mulmod => x * y
    if k = 0 then none else some ((dividend % k).setWidth 256).toNat

/-- `Set` of a temporary of the type `uint256`; LLVM accepts no other width. -/
def setTemp (expr : Expr) : Code Expr := do
  let v ← force fun s => if expr.ty.bits ns = 256 then expr.eval ns s else none
  pure (.other .uint256 (temp v))

/-- `branch_if_zero` -/
def branchIfZero («variable» codegenExpr : Expr) : Code Expr := do
  let v ← force («variable».eval ns)
  if v = 0 then setTemp ns (.numberLiteral (.uint 256) 0) else setTemp ns codegenExpr

/-- The builtins with two operands, once these have one type -/
def binary (op : Binary) (left right : Expr) : Code Expr :=
  match op with
  | .add => pure (instruction ns .add left.ty left right)
  | .sub => pure (instruction ns .subtract left.ty left right)
  | .mul => pure (instruction ns .multiply left.ty left right)
  | .div => branchIfZero ns right (instruction ns .unsignedDivide left.ty left right)
  | .sdiv => branchIfZero ns right (instruction ns .signedDivide left.ty left right)
  | .mod => branchIfZero ns right (instruction ns .unsignedModulo left.ty left right)
  | .smod => branchIfZero ns right (instruction ns .signedModulo left.ty left right)
  | .exp => pure (instruction ns .power left.ty left right)
  | .lt => pure (instruction ns (.less false) .bool left right)
  | .gt => pure (instruction ns (.more false) .bool left right)
  | .slt => pure (instruction ns (.less true) .bool left right)
  | .sgt => pure (instruction ns (.more true) .bool left right)
  | .eq => pure (instruction ns .equal .bool left right)
  | .and => pure (instruction ns .bitwiseAnd left.ty left right)
  | .or => pure (instruction ns .bitwiseOr left.ty left right)
  | .xor => pure (instruction ns .bitwiseXor left.ty left right)
  -- `shr(x, y)` shifts `y` by `x` bits.
  | .shl => pure (instruction ns .shiftLeft left.ty right left)
  | .shr => pure (instruction ns (.shiftRight false) left.ty right left)
  | .sar => pure (instruction ns (.shiftRight true) left.ty right left)

/-- `byte_builtin`: `(arg >> (8 * (31 - offset))) & 0xff` -/
def byteBuiltin (offset arg : Operand ns) : Code Expr := do
  let offset := (← offset.expression ns).cast ns (.uint 256)
  let n ← force (offset.eval ns)
  if 32 ≤ n then setTemp ns (.numberLiteral (.uint 256) 0)
  else do
    -- `overflowing` is not set
    let op31SubArg0 := Expr.other .uint256 fun s => do
      let n ← offset.eval ns s
      if n ≤ 31 then some (31 - n) else none
    let opEightTimes := instruction ns .shiftLeft .uint256 op31SubArg0 (.numberLiteral (.uint 256) 3)
    let arg := (← arg.expression ns).cast ns (.uint 256)
    let opShiftRight := instruction ns (.shiftRight false) .uint256 arg opEightTimes
    setTemp ns (instruction ns .bitwiseAnd .uint256 opShiftRight (.numberLiteral (.uint 256) 255))

inductive Call where
  | not (arg : Operand ns)
  | isZero (arg : Operand ns)
  | binary (op : Binary) (left right : Operand ns)
  | ternary (op : Ternary) (left right modulo : Operand ns)
  | byte (offset arg : Operand ns)

/-- `process_builtin` -/
def processBuiltin : Call ns → Code Expr
  | .not arg => do
    let exp ← arg.expression ns
    pure (bitwiseNot ns exp)
  | .isZero arg => do
    let left ← arg.expression ns
    pure (equalZero ns left)
  | .binary op left right => do
    let left ← left.expression ns
    let right ← right.expression ns
    let (left, right) ← equalizeTypes ns (castToNumber ns left) (castToNumber ns right)
    binary ns op left right
  | .ternary op left right modulo => do
    let left ← left.expression ns
    let right ← right.expression ns
    let (left, right) ← equalizeTypes ns (castToNumber ns left) (castToNumber ns right)
    let moduloOperand ← modulo.expression ns
    let (_, equalizedModulo) ← equalizeTypes ns left moduloOperand
    branchIfZero ns moduloOperand (modular ns op right left equalizedModulo)
  | .byte offset arg => byteBuiltin ns offset arg

/-! ## What they mean -/

namespace Operand

variable {ns}

/-- The code of an operand, run once, and the integer that it stands for -/
def integer : Operand ns → Code (State → Int)
  | numberLiteral _ value => pure fun _ => value
  | boolLiteral value => pure fun _ => value.toNat
  | code ty expr => do
    let v ← expr
    pure fun s => ty.read ns (v.get s)

def ty : Operand ns → Ty
  | numberLiteral ty _ => .number ty
  | boolLiteral _ => .bool
  | code ty _ => ty

/-- The type as one of two operands; a literal is a number. -/
def operandTy : Operand ns → Ty
  | boolLiteral _ => .uint256
  | x => x.ty

/-- The type of its number -/
def numberTy (x : Operand ns) : Ty :=
  match x.operandTy with
  | .reference => .number (.uint ns.ptrSize)
  | .number (.address _) => .number (.uint (ns.addressLength * 8))
  | ty => ty

end Operand

def commonTy (left right : Ty) : Option Ty :=
  if left = right then some left else (coerceNumber ns left right).map .number

/-- The width of an operation: that of the type the operands have in common -/
def widthOf (ty : Option Ty) : Nat := (ty.map (Ty.bits ns)).getD 0

/-- Every operand is evaluated once, in order, and the integers are taken modulo the width. -/
def Call.meaning : Call ns → Code Nat
  | .not arg => do
    let x ← arg.integer
    let w := arg.ty.bits ns
    .ask fun s => some (EvmWord.not w (wrap w (x s)))
  | .isZero arg => do
    let x ← arg.integer
    let w := arg.ty.bits ns
    .ask fun s => some (EvmWord.isZero (wrap w (x s)))
  | .binary op left right => do
    let x ← left.integer
    let y ← right.integer
    let w := widthOf ns (commonTy ns left.numberTy right.numberTy)
    .ask fun s => some (op.eval w (wrap w (x s)) (wrap w (y s)))
  | .ternary op left right modulo => do
    let x ← left.integer
    let y ← right.integer
    let m ← modulo.integer
    let w := widthOf ns ((commonTy ns left.numberTy right.numberTy).bind fun ty => commonTy ns ty modulo.operandTy)
    .ask fun s => some (op.eval (wrap w (x s)) (wrap w (y s)) (wrap w (m s)))
  | .byte offset arg => do
    let i ← offset.integer
    let x ← arg.integer
    .ask fun s => some (EvmWord.byte (wrap 256 (i s)) (wrap 256 (x s)))

/-! ## Where the code has that meaning -/

/-- The types of sema -/
def Ty.Valid : Ty → Prop
  | bool => True
  | number ty => ty.Valid ns.toNamespace ∧ ty.bits ns.toNamespace ≤ 256
  | reference => 0 < ns.ptrSize ∧ 8 ∣ ns.ptrSize ∧ ns.ptrSize ≤ 256

def Operand.Typed : Operand ns → Prop
  | numberLiteral ty value => Ty.Valid ns (.number ty) ∧ ((∃ w, ty = .uint w) ∨ ∃ w, ty = .int w) ∧
      Conversions.InRange ns.toNamespace ty value
  | boolLiteral _ => True
  | code ty _ => ty.Valid ns

def divides (op : Binary) : Prop := op = .div ∨ op = .sdiv ∨ op = .mod ∨ op = .smod

def shifts (op : Binary) : Prop := op = .shl ∨ op = .shr ∨ op = .sar

def Ty.isSigned : Ty → Bool
  | number ty => ty.isSigned
  | _ => false

/-- The compiler has code for the operands: there is a type in common, which has all 256 bits where the divisor may be
zero; and two operands with a sign are not narrower than the modulus. -/
def Call.Typed : Call ns → Prop
  | .not arg => arg.Typed ∧ arg.ty.isInteger = true
  | .isZero arg => arg.Typed ∧ arg.ty ≠ .reference
  | .binary op left right => left.Typed ∧ right.Typed ∧ ∃ ty, commonTy ns left.numberTy right.numberTy = some ty ∧
      (divides op → ty.bits ns = 256)
  | .ternary _ left right modulo => left.Typed ∧ right.Typed ∧ modulo.Typed ∧
      ∃ ty, commonTy ns left.numberTy right.numberTy = some ty ∧
        ∃ ty', commonTy ns ty modulo.operandTy = some ty' ∧ (ty.isSigned = true → ty.bits ns = ty'.bits ns)
  | .byte offset arg => offset.Typed ∧ arg.Typed

/-- A conversion of an integer keeps it: a balance, or an address, has no top bit that is taken for a sign, and a
`bool` is not `true`. -/
def Ty.Kept (source : Ty) (ty : Conversions.Ty) (i : Int) : Prop :=
  match source with
  | bool => i = 0
  | number source => Conversions.CodegenExact ns.toNamespace source ty i.toNat
  | reference => True

/-- Operands that are converted to a common type -/
def KeptBoth (left right : Ty) (x y : Int) : Prop :=
  ∀ ty, left ≠ right → coerceNumber ns left right = some ty → left.Kept ns ty x ∧ right.Kept ns ty y

/-- The conversions keep the integers, and the emitter has an instruction: the places of a shift are fewer than the
width, and `byte` has an offset in the word, or an operand that needs no code. -/
def Call.Settled (s : State) : Call ns → Prop
  | .not _ | .isZero _ => True
  | .binary op left right =>
    After (do
      let x ← left.integer
      let y ← right.integer
      pure (x, y)) s fun (x, y) s' => KeptBoth ns left.numberTy right.numberTy (x s') (y s') ∧
        (shifts op → wrap (widthOf ns (commonTy ns left.numberTy right.numberTy)) (x s') <
          widthOf ns (commonTy ns left.numberTy right.numberTy))
  | .ternary _ left right modulo =>
    After (do
      let x ← left.integer
      let y ← right.integer
      let m ← modulo.integer
      pure (x, y, m)) s fun (x, y, m) s' => KeptBoth ns left.numberTy right.numberTy (x s') (y s') ∧
        ∀ ty ty', commonTy ns left.numberTy right.numberTy = some ty → ty ≠ modulo.operandTy →
          coerceNumber ns ty modulo.operandTy = some ty' → modulo.operandTy.Kept ns ty' (m s')
  | .byte offset arg =>
    After offset.integer s fun i s₁ => offset.ty.Kept ns (.uint 256) (i s₁) ∧
      if wrap 256 (i s₁) < 32 then
        After arg.integer s₁ fun x s₂ => offset.ty.Kept ns (.uint 256) (i s₂) ∧ wrap 256 (i s₂) < 32 ∧
          arg.ty.Kept ns (.uint 256) (x s₂)
      else (arg.integer.run s₁).trace = [] ∧ (arg.integer.run s₁).result.isSome = true

end Solang.Codegen.Evaluation.Yul
