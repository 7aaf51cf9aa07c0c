import Solang.Codegen.StrengthReduce.ExpressionValues

/-!
# What expressions evaluate to

The value of an expression of an integer type is the integer that its bits are, for the signed types in
two's complement. A division by zero has none.
-/

namespace Solang.Codegen

open StrengthReduce

/-- The integer of the type with these low bits -/
def Ty.wrap (ns : Namespace) (ty : Ty) (v : Int) : Int :=
  if ty.isSignedInt ns then v.bmod (2 ^ ty.bits ns) else v % 2 ^ ty.bits ns

/-- The low bits of an integer -/
def StrengthReduce.pattern (bits : Nat) (v : Int) : Nat := (v % 2 ^ bits).toNat

/-- The values of the variables, and of the expressions that are not computed from integers -/
structure StrengthReduce.Env where
  vars : Nat → Int
  others : Expression → Int

/-- `LLVM`'s comparisons of integers of this width -/
def StrengthReduce.readAs (signed : Bool) (bits : Nat) (v : Int) : Int :=
  if signed then v.bmod (2 ^ bits) else v % 2 ^ bits

/-- The operation on integers; `operand` is the type of the left one. -/
def BinaryOp.apply (ns : Namespace) (operand : Ty) (x y : Int) : BinaryOp → Option Int
  | add ty _ => some (ty.wrap ns (x + y))
  | subtract ty _ => some (ty.wrap ns (x - y))
  | multiply ty _ => some (ty.wrap ns (x * y))
  | unsignedDivide ty =>
    let bits := ty.bits ns
    if pattern bits y = 0 then none else some (ty.wrap ns (pattern bits x / pattern bits y : Nat))
  | signedDivide ty =>
    let bits := ty.bits ns
    if pattern bits y = 0 then none
    else some (ty.wrap ns ((x.bmod (2 ^ bits)).tdiv (y.bmod (2 ^ bits))))
  | unsignedModulo ty =>
    let bits := ty.bits ns
    if pattern bits y = 0 then none else some (ty.wrap ns (pattern bits x % pattern bits y : Nat))
  | signedModulo ty =>
    let bits := ty.bits ns
    if pattern bits y = 0 then none
    else some (ty.wrap ns ((x.bmod (2 ^ bits)).tmod (y.bmod (2 ^ bits))))
  | power ty _ => some (ty.wrap ns (x ^ pattern (ty.bits ns) y))
  | bitwiseAnd ty => some (ty.wrap ns (pattern (ty.bits ns) x &&& pattern (ty.bits ns) y : Nat))
  | bitwiseOr ty => some (ty.wrap ns (pattern (ty.bits ns) x ||| pattern (ty.bits ns) y : Nat))
  | bitwiseXor ty => some (ty.wrap ns (pattern (ty.bits ns) x ^^^ pattern (ty.bits ns) y : Nat))
  | shiftLeft ty => some (ty.wrap ns (x * 2 ^ pattern (ty.bits ns) y))
  | shiftRight ty signed =>
    some (ty.wrap ns (readAs signed (ty.bits ns) x / 2 ^ pattern (ty.bits ns) y))
  | more signed =>
    some (readAs signed (operand.bits ns) y < readAs signed (operand.bits ns) x : Bool).toNat
  | less signed =>
    some (readAs signed (operand.bits ns) x < readAs signed (operand.bits ns) y : Bool).toNat
  | moreEqual signed =>
    some (readAs signed (operand.bits ns) y ≤ readAs signed (operand.bits ns) x : Bool).toNat
  | lessEqual signed =>
    some (readAs signed (operand.bits ns) x ≤ readAs signed (operand.bits ns) y : Bool).toNat
  | equal => some (pattern (operand.bits ns) x == pattern (operand.bits ns) y).toNat
  | notEqual => some (pattern (operand.bits ns) x != pattern (operand.bits ns) y).toNat
  | advancePointer | subscript _ _ | stringCompare => none

/-- The operations on integers -/
def BinaryOp.onIntegers : BinaryOp → Bool
  | advancePointer | subscript _ _ | stringCompare => false
  | _ => true

/-- The value of an expression -/
def Expression.eval (ns : Namespace) (env : Env) : Expression → Option Int
  | .numberLiteral ty v => some (ty.wrap ns v)
  | .boolLiteral v => some v.toNat
  | .variable ty varNo => some (ty.wrap ns (env.vars varNo))
  | .unary op expr =>
    match op with
    | .zeroExt ty => (expr.eval ns env).map fun x => ty.wrap ns (pattern (expr.ty.bits ns) x)
    | .signExt ty => (expr.eval ns env).map fun x => ty.wrap ns (x.bmod (2 ^ expr.ty.bits ns))
    | .trunc ty => (expr.eval ns env).map (ty.wrap ns)
    | .not => (expr.eval ns env).map fun x => (x == 0).toNat
    | .bitwiseNot ty => (expr.eval ns env).map fun x => ty.wrap ns (-x - 1)
    | op => some (op.ty.wrap ns (env.others (.unary op expr)))
  | .binary op left right =>
    match op with
    | .advancePointer | .subscript _ _ | .stringCompare =>
      some (op.ty.wrap ns (env.others (.binary op left right)))
    | op =>
      (left.eval ns env).bind fun x =>
        (right.eval ns env).bind fun y => op.apply ns left.ty x y
  | expr => some (expr.ty.wrap ns (env.others expr))

/-! ## Integers of a type -/

namespace StrengthReduce

variable {ns : Namespace} {ty : Ty} {v v' : Int}

theorem wrap_emod (ns : Namespace) (ty : Ty) (v : Int) :
    ty.wrap ns v % 2 ^ ty.bits ns = v % 2 ^ ty.bits ns := by
  unfold Ty.wrap
  split
  next =>
    have h := Int.bmod_emod (x := v) (m := 2 ^ ty.bits ns)
    rwa [Int.natCast_pow] at h
  next => exact Int.emod_emod_of_dvd v (Int.dvd_refl _)

theorem wrap_congr (h : v % 2 ^ ty.bits ns = v' % 2 ^ ty.bits ns) : ty.wrap ns v = ty.wrap ns v' := by
  unfold Ty.wrap
  split
  next =>
    rw [← Int.emod_bmod v, ← Int.emod_bmod v', Int.natCast_pow]
    exact congrArg (Int.bmod · _) h
  next => exact h

theorem wrap_wrap (ns : Namespace) (ty : Ty) (v : Int) : ty.wrap ns (ty.wrap ns v) = ty.wrap ns v :=
  wrap_congr (wrap_emod ns ty v)

theorem pattern_natCast (bits : Nat) (v : Int) : (pattern bits v : Int) = v % 2 ^ bits :=
  Int.toNat_of_nonneg (Int.emod_nonneg v (Int.pow_ne_zero (by decide)))

theorem pattern_wrap (ns : Namespace) (ty : Ty) (v : Int) :
    pattern (ty.bits ns) (ty.wrap ns v) = pattern (ty.bits ns) v := by
  unfold pattern
  rw [wrap_emod]

theorem pattern_of_lt {bits : Nat} (h0 : 0 ≤ v) (h : v < 2 ^ bits) : pattern bits v = v.toNat := by
  unfold pattern
  rw [Int.emod_eq_of_lt h0 h]

@[simp] theorem bits_int (n : Nat) : (Ty.int n).bits ns = n := rfl

@[simp] theorem bits_uint (n : Nat) : (Ty.uint n).bits ns = n := rfl

/-! ## Division -/

variable {operand : Ty} {x y : Int}

theorem apply_unsignedDivide (h : pattern (ty.bits ns) y ≠ 0) :
    (BinaryOp.unsignedDivide ty).apply ns operand x y =
      some (ty.wrap ns (x % 2 ^ ty.bits ns / (y % 2 ^ ty.bits ns))) := by
  rw [← pattern_natCast, ← pattern_natCast, ← Int.natCast_ediv]
  exact if_neg h

theorem apply_unsignedModulo (h : pattern (ty.bits ns) y ≠ 0) :
    (BinaryOp.unsignedModulo ty).apply ns operand x y =
      some (ty.wrap ns (x % 2 ^ ty.bits ns % (y % 2 ^ ty.bits ns))) := by
  rw [← pattern_natCast, ← pattern_natCast, ← Int.natCast_emod]
  exact if_neg h

theorem eval_binary {env : Env} {op : BinaryOp} {left right : Expression}
    (h : op.onIntegers = true) : (Expression.binary op left right).eval ns env =
      (left.eval ns env).bind fun x => (right.eval ns env).bind fun y => op.apply ns left.ty x y := by
  cases op <;> first | rfl | cases h

end StrengthReduce

end Solang.Codegen
