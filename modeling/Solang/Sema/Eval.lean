import Mathlib.Data.Int.Bitwise

/-!
# Evaluation of constants

`sema/eval.rs`: `eval_const_number` gives the number that a constant expression stands for, and
`eval_constants_in_expression` folds the number literals of an expression. Both work on integers
without bounds.
-/

namespace Solang.Sema.Constants

inductive Loc where
  | builtin
  | commandLine
  | implicit
  | codegen
  | file (fileNo start stop : Nat)
  deriving DecidableEq, Repr

/-- `other` stands for the other types that a number can have (addresses, values, bytes), with
their bits. -/
inductive Ty where
  | uint (bits : Nat)
  | int (bits : Nat)
  | enum (no : Nat)
  | other (bits : Nat)
  deriving DecidableEq, Repr

/-- `other` stands for the expressions that neither evaluation looks into. -/
inductive Expression where
  | add (loc : Loc) (ty : Ty) (unchecked : Bool) (left right : Expression)
  | subtract (loc : Loc) (ty : Ty) (unchecked : Bool) (left right : Expression)
  | multiply (loc : Loc) (ty : Ty) (unchecked : Bool) (left right : Expression)
  | divide (loc : Loc) (ty : Ty) (left right : Expression)
  | modulo (loc : Loc) (ty : Ty) (left right : Expression)
  | power (loc : Loc) (ty : Ty) (unchecked : Bool) (base exp : Expression)
  | bitwiseOr (loc : Loc) (ty : Ty) (left right : Expression)
  | bitwiseAnd (loc : Loc) (ty : Ty) (left right : Expression)
  | bitwiseXor (loc : Loc) (ty : Ty) (left right : Expression)
  | shiftLeft (loc : Loc) (ty : Ty) (left right : Expression)
  | shiftRight (loc : Loc) (ty : Ty) (left right : Expression) (sign : Bool)
  | numberLiteral (loc : Loc) (ty : Ty) (value : Int)
  | zeroExt (loc : Loc) (toTy : Ty) (expr : Expression)
  | signExt (loc : Loc) (toTy : Ty) (expr : Expression)
  | cast (loc : Loc) (toTy : Ty) (expr : Expression)
  | not (loc : Loc) (expr : Expression)
  | bitwiseNot (loc : Loc) (ty : Ty) (expr : Expression)
  | negate (loc : Loc) (ty : Ty) (unchecked : Bool) (expr : Expression)
  | constantVariable (loc : Loc) (ty : Ty) (contractNo : Option Nat) (varNo : Nat)
  | typeMin (loc : Loc) (ty : Ty)
  | typeMax (loc : Loc) (ty : Ty)
  | other (loc : Loc) (ty : Ty)
  deriving Repr

/-- The initializers of variables, and the number of values of each enum -/
structure Namespace where
  contracts : List (List (Option Expression))
  constants : List (Option Expression)
  enums : List Nat

structure Diagnostic where
  loc : Loc
  message : String
  deriving DecidableEq, Repr

inductive EvaluationError where
  | notAConstant
  | mathError
  deriving DecidableEq, Repr

/-! ## Numbers -/

/-- The result is `none` when the fuel runs out, or where the source panics. -/
abbrev Eval := ExceptT EvaluationError (StateT (List Diagnostic) Option)

def push {m : Type → Type} [MonadStateOf (List Diagnostic) m] (loc : Loc) (message : String) : m PUnit :=
  modifyThe (List Diagnostic) (· ++ [⟨loc, message⟩])

def panic {α : Type} : Eval α := ExceptT.mk fun _ => none

/-- `to_usize` and `to_u64` -/
def toU64 (n : Int) : Option Nat := if 0 ≤ n ∧ n < 2 ^ 64 then some n.toNat else none

/-- The loop of the power: `b` is multiplied once for every unit of `e`. -/
def powerLoop (b : Int) : Nat → Int → Int
  | 0, res => res
  | e + 1, res => powerLoop b e (res * b)

def initializer (ns : Namespace) : Option Nat → Nat → Option (Option Expression)
  | some contractNo, varNo => (ns.contracts[contractNo]?).bind (·[varNo]?)
  | none, varNo => ns.constants[varNo]?

def typeMinValue : Ty → Int
  | .int bits => -(2 ^ (bits - 1))
  | _ => 0

def typeMaxValue (ns : Namespace) : Ty → Option Int
  | .uint bits => some (2 ^ bits - 1)
  | .int bits => some (2 ^ (bits - 1) - 1)
  | .enum no => ns.enums[no]?.map fun values => (values : Int) - 1
  | .other _ => none

def evalConstNumber (ns : Namespace) : Nat → Expression → Eval (Loc × Int)
  | 0, _ => panic
  | fuel + 1, expr =>
    match expr with
    | .add loc _ _ left right => do
      let l ← evalConstNumber ns fuel left
      let r ← evalConstNumber ns fuel right
      return (loc, l.2 + r.2)
    | .subtract loc _ _ left right => do
      let l ← evalConstNumber ns fuel left
      let r ← evalConstNumber ns fuel right
      return (loc, l.2 - r.2)
    | .multiply loc _ _ left right => do
      let l ← evalConstNumber ns fuel left
      let r ← evalConstNumber ns fuel right
      return (loc, l.2 * r.2)
    | .divide loc _ left right => do
      let divisor ← evalConstNumber ns fuel right
      if divisor.2 = 0 then
        push loc "divide by zero"
        throw .mathError
      else
        let l ← evalConstNumber ns fuel left
        return (loc, l.2.tdiv divisor.2)
    | .modulo loc _ left right => do
      let divisor ← evalConstNumber ns fuel right
      if divisor.2 = 0 then
        push loc "divide by zero"
        throw .mathError
      else
        let l ← evalConstNumber ns fuel left
        return (loc, l.2.tmod divisor.2)
    | .bitwiseAnd loc _ left right => do
      let l ← evalConstNumber ns fuel left
      let r ← evalConstNumber ns fuel right
      return (loc, l.2.land r.2)
    | .bitwiseOr loc _ left right => do
      let l ← evalConstNumber ns fuel left
      let r ← evalConstNumber ns fuel right
      return (loc, l.2.lor r.2)
    | .bitwiseXor loc _ left right => do
      let l ← evalConstNumber ns fuel left
      let r ← evalConstNumber ns fuel right
      return (loc, l.2.xor r.2)
    | .power loc _ _ base exp => do
      let b ← evalConstNumber ns fuel base
      let e ← evalConstNumber ns fuel exp
      if e.2 < 0 then
        push loc "power cannot take negative number as exponent"
        throw .mathError
      else if e.2 = 0 then return (loc, 1)
      else return (loc, powerLoop b.2 (e.2 - 1).toNat b.2)
    | .shiftLeft loc _ left right => do
      let l ← evalConstNumber ns fuel left
      let r ← evalConstNumber ns fuel right
      match toU64 r.2 with
      | some n => return (loc, l.2 <<< n)
      | none =>
        push loc s!"cannot left shift by {r.2}"
        throw .mathError
    | .shiftRight loc _ left right _ => do
      let l ← evalConstNumber ns fuel left
      let r ← evalConstNumber ns fuel right
      match toU64 r.2 with
      | some n => return (loc, l.2 >>> n)
      | none =>
        push loc s!"right left shift by {r.2}"
        throw .mathError
    | .numberLiteral loc _ value => return (loc, value)
    | .zeroExt loc _ expr | .signExt loc _ expr | .cast loc _ expr => do
      let v ← evalConstNumber ns fuel expr
      return (loc, v.2)
    | .not loc expr | .bitwiseNot loc _ expr => do
      let v ← evalConstNumber ns fuel expr
      return (loc, v.2.not)
    | .negate loc _ _ expr => do
      let v ← evalConstNumber ns fuel expr
      return (loc, -v.2)
    | .constantVariable _ _ contractNo varNo =>
      match initializer ns contractNo varNo with
      | some (some init) => evalConstNumber ns fuel init
      | some none => throw .notAConstant
      | none => panic
    | .typeMin loc ty => return (loc, typeMinValue ty)
    | .typeMax loc ty =>
      match typeMaxValue ns ty with
      | some value => return (loc, value)
      | none => panic
    | .other loc _ => do
      push loc "expression not allowed in constant number expression"
      throw .notAConstant

/-! ## Literals -/

/-- `BigInt::bits`: the bits of the absolute value -/
def bits (n : Int) : Nat := n.natAbs.size

/-- `BigInt::to_signed_bytes_be().len()` -/
def signedBytes (n : Int) : Nat := (if n < 0 then (n.natAbs - 1).size else n.natAbs.size) / 8 + 1

/-- Texts for values that are too long to be printed leave them out. -/
def overflowDiagnostic (result : Int) (ty : Ty) (loc : Loc) : Option Diagnostic :=
  match ty with
  | .uint n =>
    if result < 0 then
      some ⟨loc, if 1024 < bits result
        then s!"large negative value does not fit into type uint{n}. Cannot implicitly convert signed literal to unsigned type."
        else s!"negative value {result} does not fit into type uint{n}. Cannot implicitly convert signed literal to unsigned type."⟩
    else if n < bits result then
      some ⟨loc, if 1024 < bits result then s!"value is too large to fit into type uint{n}"
        else s!"value {result} does not fit into type uint{n}."⟩
    else none
  | .int n =>
    if n < signedBytes result * 8 then
      some ⟨loc, if 1024 < bits result then s!"value is too large to fit into type int{n}"
        else s!"value {result} does not fit into type int{n}."⟩
    else none
  | _ => none

/-- What `eval_constants_in_expression` returns: the literal, and whether the recursion goes on. -/
abbrev Folded := Option Expression × Bool

/-- An operation on two literals -/
def foldLiterals (loc : Loc) (ty : Ty) (op : Int → Int → Int) : Option Expression → Option Expression → Folded
  | some (.numberLiteral _ _ left), some (.numberLiteral _ _ right) =>
    (some (.numberLiteral loc ty (op left right)), true)
  | _, _ => (none, true)

/-- A division, unless it is by zero -/
def foldDivision (loc : Loc) (ty : Ty) (op : Int → Int → Int) (left right : Option Expression) :
    StateM (List Diagnostic) Folded :=
  match left, right with
  | some (.numberLiteral _ _ _), some (.numberLiteral _ _ divisor) =>
    if divisor = 0 then do
      push loc "divide by zero"
      return (none, false)
    else return foldLiterals loc ty op left right
  | _, _ => return (none, true)

/-- An operation whose right operand has to fit into a type -/
def foldBounded (loc : Loc) (ty bound : Ty) (message : Int → String) (op : Int → Int → Int)
    (left right : Option Expression) : StateM (List Diagnostic) Folded :=
  match left, right with
  | some (.numberLiteral _ _ _), some (.numberLiteral rightLoc _ value) =>
    if (overflowDiagnostic value bound rightLoc).isSome then do
      push rightLoc (message value)
      return (none, false)
    else return foldLiterals loc ty op left right
  | _, _ => return (none, true)

def foldExtension (loc : Loc) (toTy : Ty) : Option Expression → Folded
  | some (.numberLiteral _ _ value) => (some (.numberLiteral loc toTy value), true)
  | _ => (none, true)

def evalConstantsInExpression : Expression → StateM (List Diagnostic) Folded
  | .add loc ty _ left right => do
    let left ← evalConstantsInExpression left
    let right ← evalConstantsInExpression right
    return foldLiterals loc ty (· + ·) left.1 right.1
  | .subtract loc ty _ left right => do
    let left ← evalConstantsInExpression left
    let right ← evalConstantsInExpression right
    return foldLiterals loc ty (· - ·) left.1 right.1
  | .multiply loc ty _ left right => do
    let left ← evalConstantsInExpression left
    let right ← evalConstantsInExpression right
    return foldLiterals loc ty (· * ·) left.1 right.1
  | .divide loc ty left right => do
    let left ← evalConstantsInExpression left
    let right ← evalConstantsInExpression right
    foldDivision loc ty Int.tdiv left.1 right.1
  | .modulo loc ty left right => do
    let left ← evalConstantsInExpression left
    let right ← evalConstantsInExpression right
    foldDivision loc ty Int.tmod left.1 right.1
  | .power loc ty _ base exp => do
    let base ← evalConstantsInExpression base
    let exp ← evalConstantsInExpression exp
    foldBounded loc ty (.uint 16) (fun value => s!"power by {value} is not possible")
      (fun l r => l ^ r.toNat) base.1 exp.1
  | .shiftLeft loc ty left right => do
    let left ← evalConstantsInExpression left
    let right ← evalConstantsInExpression right
    foldBounded loc ty (.uint 64) (fun value => s!"left shift by {value} is not possible")
      (fun l r => l <<< r.toNat) left.1 right.1
  | .shiftRight loc ty left right _ => do
    let left ← evalConstantsInExpression left
    let right ← evalConstantsInExpression right
    foldBounded loc ty (.uint 64) (fun value => s!"right shift by {value} is not possible")
      (fun l r => l >>> r.toNat) left.1 right.1
  | .bitwiseAnd loc ty left right => do
    let left ← evalConstantsInExpression left
    let right ← evalConstantsInExpression right
    return foldLiterals loc ty Int.land left.1 right.1
  | .bitwiseOr loc ty left right => do
    let left ← evalConstantsInExpression left
    let right ← evalConstantsInExpression right
    return foldLiterals loc ty Int.lor left.1 right.1
  | .bitwiseXor loc ty left right => do
    let left ← evalConstantsInExpression left
    let right ← evalConstantsInExpression right
    return foldLiterals loc ty Int.xor left.1 right.1
  | .zeroExt loc toTy expr | .signExt loc toTy expr => do
    let expr ← evalConstantsInExpression expr
    return foldExtension loc toTy expr.1
  | .numberLiteral loc ty value => return (some (.numberLiteral loc ty value), true)
  | _ => return (none, true)

end Solang.Sema.Constants
