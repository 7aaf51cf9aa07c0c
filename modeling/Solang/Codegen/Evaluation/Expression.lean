import Solang.Codegen.Conversions
import Solang.Lib.Logged

/-!
# What generated code does

The code that is generated for an expression, as the computation it performs. The instructions are executed as they are
added to the graph, and the operands of an instruction are evaluated when it is executed; an expression of the code
generator is a `Tree`, whose value depends on the state that it is evaluated in. A temporary is set once, so that a
variable for it is the value it was set to.

Writes and calls are logged. What a call does is a parameter.
-/

namespace Solang.Codegen.Evaluation

/-- Where a value is: in a variable of the source, in memory or in storage -/
inductive Place where
  | variable (varNo : Nat)
  | memory (address : Nat)
  | storage (slot : Nat)
  /-- A byte of the bytes at a slot -/
  | storageByte (slot offset : Nat)
  deriving DecidableEq, Repr

/-- The pattern of the bits in each place -/
abbrev State := Place → Nat

/-- The builtins with effects, as far as the code generator distinguishes them -/
inductive Builtin where
  | payableSend
  | payableTransfer
  | arrayPush
  | arrayPop
  | require
  | selfDestruct
  /-- `WriteInt8` and so on, and `WriteAddress` -/
  | write
  | other (no : Nat)
  deriving DecidableEq, Repr

inductive Callee where
  | internalFunction (no : Nat)
  | externalFunction
  | externalFunctionRaw
  | constructor (no : Nat)
  | builtin (kind : Builtin)
  deriving DecidableEq, Repr

inductive Effect where
  | write (place : Place) (value : Nat)
  | call (callee : Callee) (args : List Nat)
  deriving DecidableEq, Repr

/-- An effect, and the location of the expression that has it -/
structure Event where
  loc : Nat
  effect : Effect
  deriving DecidableEq, Repr

/-- What a callee returns and leaves, `none` when it reverts -/
abbrev Calls := Callee → List Nat → State → Option (Nat × State)

abbrev Code := Logged State Event

/-- An expression of the code generator; `none` when its evaluation aborts. -/
abbrev Tree := State → Option Nat

/-- A `Variable` that is a temporary, or a literal -/
def temp (v : Nat) : Tree := fun _ => some v

/-! ## Instructions -/

def force (expr : Tree) : Code Nat := .ask expr

def read (p : Place) : Code Nat := .ask fun s => some (s p)

def write (loc : Nat) (p : Place) (v : Nat) : Code Unit :=
  .perform ⟨loc, .write p v⟩ fun s => some ((), Function.update s p v)

theorem run_read_bind {α : Type} (p : Place) (k : Nat → Code α) (s : State) :
    (read p >>= k).run s = (k (s p)).run s :=
  Logged.run_ask_bind (f := fun s : State => some (s p)) (a := s p) rfl

/-- What holds of the value and the state that a run ends with -/
def After {α : Type} (m : Code α) (s : State) (P : α → State → Prop) : Prop :=
  ∀ t a s', m.run s = ⟨t, some (a, s')⟩ → P a s'

theorem after_iff {α : Type} {m : Code α} {s s' : State} {t : List Event} {a : α} {P : α → State → Prop}
    (h : m.run s = ⟨t, some (a, s')⟩) : After m s P ↔ P a s' := by
  refine ⟨fun hP => hP t a s' h, fun hP t₁ a₁ s₁ h₁ => ?_⟩
  rw [h] at h₁
  cases h₁
  exact hP

theorem force_temp (v : Nat) : force (temp v) = pure v := rfl

/-- `Instr::Set` of a variable of the source -/
def set (loc varNo : Nat) (expr : Tree) : Code Unit := do
  let v ← force expr
  write loc (.variable varNo) v

/-- `Instr::Store` -/
def store (loc : Nat) (dest data : Tree) : Code Unit := do
  let v ← force data
  let address ← force dest
  write loc (.memory address) v

/-- `Instr::SetStorage` -/
def setStorage (loc : Nat) (value storage : Tree) : Code Unit := do
  let v ← force value
  let slot ← force storage
  write loc (.storage slot) v

/-- `Instr::LoadStorage`, and the variable that is set -/
def loadStorage (storage : Tree) : Code Tree := do
  let slot ← force storage
  let v ← read (.storage slot)
  pure (temp v)

def forceAll : List Tree → Code (List Nat)
  | [] => pure []
  | t :: ts => do
    let v ← force t
    let vs ← forceAll ts
    pure (v :: vs)

def call (loc : Nat) (calls : Calls) (callee : Callee) (args : List Tree) : Code Tree := do
  let vs ← forceAll args
  let v ← Logged.perform ⟨loc, .call callee vs⟩ (calls callee vs)
  pure (temp v)

/-! ## Expressions of the code generator -/

/-- `Expression::Load` -/
def load (expr : Tree) : Tree := fun s => (expr s).map fun address => s (.memory address)

/-- `Expression::Add` and the like; when `overflowing` is not set, a result that does not fit the type aborts. -/
def arithmetic (ns : Conversions.Namespace) (ty : Conversions.Ty) (overflowing : Bool) (op : Int → Int → Int)
    (left right : Tree) : Tree := fun s => do
  let exact := op (ty.read ns (← left s)) (ty.read ns (← right s))
  let v := (exact % 2 ^ ty.bits ns).toNat
  if overflowing || ty.read ns v == exact then some v else none

end Solang.Codegen.Evaluation

/-!
## The code of expressions

`expression` of `codegen/expression.rs`, for expressions of the value types and for the references to them. Constant
folding before an expression is lowered, the encoded form of values on Soroban and the widths of indices are left out;
the arrays in storage have slots.

The operators that evaluate their operands and do nothing else are one constructor.
-/

namespace Solang.Codegen.Evaluation

inductive Ty where
  | value (ty : Conversions.Ty)
  /-- The types whose values are not converted: `bool`, contracts and functions, and what is not a value type -/
  | other (no : Nat)
  | ref (ty : Ty)
  | storageRef (ty : Ty)
  deriving DecidableEq, Repr

def Ty.isContractStorage : Ty → Bool
  | .storageRef _ => true
  | _ => false

/-- Which array is subscripted; without a length it is dynamic. -/
inductive Layout where
  | memory (length : Option Nat) (elemSize : Nat)
  | storage (length : Option Nat) (elemSlots : Nat)
  deriving DecidableEq, Repr

inductive Step where
  | increment
  | decrement
  deriving DecidableEq, Repr

inductive Fixity where
  | pre
  | post
  deriving DecidableEq, Repr

/-- `ast::Expression`. The arguments of a call are in the order in which they are lowered. What has effects has a
location. -/
inductive Expr where
  | number (ty : Ty) (value : Nat)
  | variable (ty : Ty) (varNo : Nat)
  | storageVariable (ty : Ty) (slot : Nat)
  | load (ty : Ty) (expr : Expr)
  | storageLoad (ty : Ty) (expr : Expr)
  /-- `Trunc`, `Cast` and `BytesCast` -/
  | cast (ty : Ty) (op : Nat → Option Nat) (expr : Expr)
  | structMember (ty : Ty) (expr : Expr) (offset : Nat)
  | subscript (ty : Ty) (layout : Layout) (array index : Expr)
  /-- A byte of `bytes` or of a string in storage -/
  | storageByte (array index : Expr)
  | operator (ty : Ty) (op : List Nat → Option Nat) (args : List Expr)
  /-- A call of a `pure` function, on values -/
  | userDefinedOperator (ty : Ty) (function : List Nat → Option Nat) (args : List Expr)
  | and (left right : Expr)
  | or (left right : Expr)
  | conditionalOperator (ty : Ty) (cond left right : Expr)
  | assign (loc : Nat) (left right : Expr)
  | incdec (loc : Nat) (fixity : Fixity) (step : Step) (ty : Conversions.Ty) (unchecked : Bool) (expr : Expr)
  | call (loc : Nat) (ty : Ty) (callee : Callee) (args : List Expr)

namespace Expr

def ty : Expr → Ty
  | .number ty _ => ty
  | .variable ty _ => ty
  | .storageVariable ty _ => .storageRef ty
  | .load ty _ => ty
  | .storageLoad ty _ => ty
  | .cast ty _ _ => ty
  | .structMember ty _ _ => ty
  | .subscript ty _ _ _ => ty
  | .storageByte _ _ => .storageRef (.value (.bytes 1))
  | .operator ty _ _ => ty
  | .userDefinedOperator ty _ _ => ty
  | .and _ _ => .other 0
  | .or _ _ => .other 0
  | .conditionalOperator ty _ _ _ => ty
  | .assign _ left _ => left.ty
  | .incdec _ _ _ ty _ _ => .value ty
  | .call _ ty _ _ => ty

end Expr

/-- What the code depends on besides the expression: `slotBits` is the width of `ns.storage_type()`, `removed` has the
variables that `should_remove_variable` finds unused, and `keccak256` gives the slots of the elements of a dynamic
array. -/
structure Context where
  ns : Conversions.Namespace
  slotBits : Nat
  calls : Calls
  keccak256 : Nat → Nat
  removed : Nat → Bool

variable (ctx : Context)

/-- `should_remove_assignment` -/
def shouldRemoveAssignment : Expr → Bool
  | .variable _ varNo => ctx.removed varNo
  | .structMember _ expr _ => shouldRemoveAssignment expr
  | .subscript _ _ array _ => shouldRemoveAssignment array
  | .storageByte array _ => shouldRemoveAssignment array
  | .storageLoad _ expr => shouldRemoveAssignment expr
  | .load _ expr => shouldRemoveAssignment expr
  | .cast _ _ expr => shouldRemoveAssignment expr
  | .call _ _ (.builtin .arrayPush) (array :: _) => !array.ty.isContractStorage && shouldRemoveAssignment array
  | .call _ _ (.builtin .arrayPop) (array :: _) => !array.ty.isContractStorage && shouldRemoveAssignment array
  | _ => false

/-! ### Values and places -/

/-- `load_storage` for a reference to storage, `Load` for one to memory -/
def loadRef : Ty → Tree → Code Tree
  | .ref _, v => pure (load v)
  | .storageRef _, v => loadStorage v
  | _, v => pure v

/-- The instruction that writes to what `dest` refers to -/
def storeRef (loc : Nat) : Ty → Tree → Tree → Code Unit
  | .ref _, dest, data => store loc dest data
  | .storageRef _, dest, data => setStorage loc data dest
  | _, _, _ => .abort

def addOffset (ty : Ty) (offset : Nat) (expr : Tree) : Tree := fun s => (expr s).map fun start =>
  match ty with
  | .storageRef _ => (start + offset) % 2 ^ ctx.slotBits
  | _ => start + offset

/-- `array_subscript`: the bounds are checked at once. -/
def arraySubscript (layout : Layout) (array index : Code Tree) : Code Tree := do
  let array ← array
  let index ← index
  match layout with
  | .memory length elemSize => do
    let pos ← force index
    -- a dynamic array has its length before its elements
    let arrayLength ← force (length.elim (load array) temp)
    if arrayLength ≤ pos then .abort
    else pure fun s => (array s).map fun start => start + (if length.isNone then 1 else 0) + pos * elemSize
  | .storage length elemSlots => do
    let arrayLength ← length.elim (loadStorage array) fun n => pure (temp n)
    let array : Tree := if length.isNone then fun s => (array s).map ctx.keccak256 else array
    let pos ← force index
    let arrayLength ← force arrayLength
    if arrayLength ≤ pos then .abort
    else pure fun s => (array s).map fun start => (start + pos * elemSlots) % 2 ^ ctx.slotBits

/-- `Subscript` of bytes in storage, whose length is in their slot -/
def storageSubscript (array index : Tree) : Tree := fun s => do
  let slot ← array s
  let offset ← index s
  if offset < s (.storage slot) then some (s (.storageByte slot offset)) else none

/-! ### Operators with effects -/

/-- `expr_or` and `and`: the right side is evaluated unless the left side is `isOr`. -/
def shortCircuit (isOr : Bool) (left right : Code Tree) : Code Tree := do
  let l ← left
  let cond ← force l
  if (cond != 0) = isOr then pure (temp isOr.toNat)
  else do
    let r ← right
    let v ← force r
    pure (temp v)

def conditionalOperator (cond left right : Code Tree) : Code Tree := do
  let cond ← cond
  let c ← force cond
  let expr ← if c ≠ 0 then left else right
  let v ← force expr
  pure (temp v)

/-- `assign_single`; `left` is lowered to `dest`. -/
def assignSingle (loc : Nat) (left : Expr) (dest : Code Tree) (cfgRight : Tree) : Code Tree :=
  match left with
  | .variable _ varNo => do
    set loc varNo cfgRight
    pure fun s => some (s (.variable varNo))
  | _ => do
    let dest ← dest
    let pos ← force cfgRight
    storeRef loc left.ty dest (temp pos)
    pure (temp pos)

/-- `assign_single` of a byte in storage, with `SetStorageBytes` -/
def assignStorageByte (loc : Nat) (array index : Code Tree) (cfgRight : Tree) : Code Tree := do
  let array ← array
  let index ← index
  let pos ← force cfgRight
  let slot ← force array
  let offset ← force index
  let length ← read (.storage slot)
  if length ≤ offset then .abort
  else do
    write loc (.storageByte slot offset) pos
    pure (temp pos)

/-- `Add` or `Subtract` of one -/
def stepped (step : Step) (ty : Conversions.Ty) (overflowing : Bool) (v : Tree) : Tree :=
  match step with
  | .increment => arithmetic ctx.ns ty overflowing (· + ·) v (temp 1)
  | .decrement => arithmetic ctx.ns ty overflowing (· - ·) v (temp 1)

/-- `post_incdec`; `var` is lowered to `operand`. -/
def postIncdec (loc : Nat) (step : Step) (ty : Conversions.Ty) (overflowing : Bool) (var : Expr) (operand : Code Tree) :
    Code Tree := do
  let v ← operand
  let v ← loadRef var.ty v
  let res ← force v
  let expr := stepped ctx step ty overflowing (temp res)
  match var with
  | .variable _ varNo => set loc varNo expr
  | _ => do
    let dest ← operand
    let new ← force expr
    storeRef loc var.ty dest (temp new)
  pure (temp res)

/-- `pre_incdec`; `var` is lowered to `operand`. -/
def preIncdec (loc : Nat) (step : Step) (ty : Conversions.Ty) (overflowing : Bool) (var : Expr) (operand : Code Tree) :
    Code Tree := do
  let v ← operand
  let v ← loadRef var.ty v
  let res ← force (stepped ctx step ty overflowing v)
  match var with
  | .variable _ varNo => set loc varNo (temp res)
  | _ => do
    let dest ← operand
    storeRef loc var.ty dest (temp res)
  pure (temp res)

/-! ### Lowering -/

mutual

/-- `expression` -/
def expression : Expr → Code Tree
  | .number _ value => pure (temp value)
  | .variable _ varNo => pure fun s => some (s (.variable varNo))
  | .storageVariable _ slot => pure (temp slot)
  | .load _ expr => do
    let v ← expression expr
    pure (load v)
  | .storageLoad _ expr => do
    let storage ← expression expr
    loadStorage storage
  | .cast _ op expr => do
    let v ← expression expr
    pure fun s => (v s).bind op
  | .structMember ty expr offset => do
    let v ← expression expr
    pure (addOffset ctx ty offset v)
  | .subscript _ layout array index => arraySubscript ctx layout (expression array) (expression index)
  | .storageByte array index => do
    let array ← expression array
    let index ← expression index
    pure (storageSubscript array index)
  | .operator _ op args => do
    let vs ← expressions args
    pure fun s => (vs.mapM fun (v : Tree) => v s).bind op
  | .userDefinedOperator _ function args => do
    let vs ← expressions args
    let vs ← forceAll vs
    let v ← Logged.ofOption (function vs)
    pure (temp v)
  | .and left right => shortCircuit false (expression left) (expression right)
  | .or left right => shortCircuit true (expression left) (expression right)
  | .conditionalOperator _ cond left right =>
    conditionalOperator (expression cond) (expression left) (expression right)
  | .assign loc (.storageByte array index) right =>
    if shouldRemoveAssignment ctx array then expression right
    else do
      let cfgRight ← expression right
      assignStorageByte loc (expression array) (expression index) cfgRight
  | .assign loc left right =>
    if shouldRemoveAssignment ctx left then expression right
    else do
      let cfgRight ← expression right
      assignSingle loc left (expression left) cfgRight
  | .incdec loc .pre step ty unchecked var => preIncdec ctx loc step ty unchecked var (expression var)
  | .incdec loc .post step ty unchecked var => postIncdec ctx loc step ty unchecked var (expression var)
  | .call loc _ callee args => do
    let vs ← expressions args
    call loc ctx.calls callee vs

def expressions : List Expr → Code (List Tree)
  | [] => pure []
  | e :: es => do
    let v ← expression e
    let vs ← expressions es
    pure (v :: vs)

end

end Solang.Codegen.Evaluation
