import Solang.Codegen.Evaluation.Expression

/-!
# Unused variables

A declaration or an assignment whose variable is never read is not lowered: `process_side_effects_expressions` visits
the value instead, and lowers the calls and the assignments in it. The visit does not stop at `++` and `--` nor at all
builtins with effects, and it does not know which operands of `&&`, `||` and `?:` are evaluated.
-/

namespace Solang.Codegen.Evaluation

variable (ctx : Context)

/-! ## The code -/

/-- The calls at which `process_side_effects_expressions` stops -/
def Callee.hasSideEffects : Callee → Bool
  | .internalFunction _ | .externalFunction | .externalFunctionRaw | .constructor _ => true
  | .builtin (.other _) => false
  | .builtin _ => true

/-- The code of an expression whose value is not used -/
def effectsOf (e : Expr) : Code Unit := do
  let _ ← expression ctx e
  pure ()

mutual

/-- `recurse` with `process_side_effects_expressions` -/
def sideEffects : Expr → Code Unit
  | .number _ _ | .variable _ _ | .storageVariable _ _ => pure ()
  | .load _ expr => sideEffects expr
  | .storageLoad _ expr => sideEffects expr
  | .cast _ _ expr => sideEffects expr
  | .structMember _ expr _ => sideEffects expr
  | .subscript _ _ array index => do
    sideEffects array
    sideEffects index
  | .storageByte array index => do
    sideEffects array
    sideEffects index
  | .operator _ _ args => sideEffectsAll args
  | .userDefinedOperator _ _ args => sideEffectsAll args
  | .and left right => do
    sideEffects left
    sideEffects right
  | .or left right => do
    sideEffects left
    sideEffects right
  | .conditionalOperator _ cond left right => do
    sideEffects cond
    sideEffects left
    sideEffects right
  | .assign loc left right => effectsOf ctx (.assign loc left right)
  | .incdec _ _ _ _ _ var => sideEffects var
  | .call loc ty callee args =>
    if callee.hasSideEffects then effectsOf ctx (.call loc ty callee args) else sideEffectsAll args

def sideEffectsAll : List Expr → Code Unit
  | [] => pure ()
  | e :: es => do
    sideEffects e
    sideEffectsAll es

end

inductive Statement where
  | variableDecl (loc : Nat) (varNo : Nat) (init : Expr)
  | expression (expr : Expr)

/-- `statement` -/
def statement : Statement → Code Unit
  | .variableDecl loc varNo init =>
    if ctx.removed varNo then sideEffects ctx init
    else do
      let v ← expression ctx init
      set loc varNo v
  | .expression (.assign loc left right) =>
    if shouldRemoveAssignment ctx left then sideEffects ctx right else effectsOf ctx (.assign loc left right)
  | .expression (.call loc ty (.builtin kind) args) =>
    -- `push` and `pop` of an array in memory
    if shouldRemoveAssignment ctx (.call loc ty (.builtin kind) args) then sideEffectsAll ctx args
    else effectsOf ctx (.call loc ty (.builtin kind) args)
  | .expression expr => effectsOf ctx expr

/-- The value of a declaration or an assignment that is dropped -/
def Statement.droppedValue : Statement → Option Expr
  | .variableDecl _ varNo init => if ctx.removed varNo then some init else none
  | .expression (.assign _ left right) => if shouldRemoveAssignment ctx left then some right else none
  | .expression _ => none

/-! ## What is to be kept -/

def evaluate (e : Expr) : Code Nat := do
  let v ← expression ctx e
  force v

/-- The code does what the evaluation does. One that aborts is undone: the code aborts too, or it does nothing. -/
def SameEffects (evaluation : Traced Event (Nat × State)) (code : Traced Event (Unit × State)) : Prop :=
  match evaluation with
  | ⟨t, some (_, s)⟩ => code = ⟨t, some ((), s)⟩
  | ⟨_, none⟩ => code.result = none ∨ code.trace = []

/-! ## When it is kept -/

mutual

/-- The sub-expressions that are lowered when the value is dropped -/
def Expr.kept : Expr → List Expr
  | .number _ _ | .variable _ _ | .storageVariable _ _ => []
  | .load _ expr => expr.kept
  | .storageLoad _ expr => expr.kept
  | .cast _ _ expr => expr.kept
  | .structMember _ expr _ => expr.kept
  | .subscript _ _ array index => array.kept ++ index.kept
  | .storageByte array index => array.kept ++ index.kept
  | .operator _ _ args => keptAll args
  | .userDefinedOperator _ _ args => keptAll args
  | .and left right => left.kept ++ right.kept
  | .or left right => left.kept ++ right.kept
  | .conditionalOperator _ cond left right => cond.kept ++ (left.kept ++ right.kept)
  | .assign loc left right => [.assign loc left right]
  | .incdec _ _ _ _ _ var => var.kept
  | .call loc ty callee args => if callee.hasSideEffects then [.call loc ty callee args] else keptAll args

def keptAll : List Expr → List Expr
  | [] => []
  | e :: es => e.kept ++ keptAll es

end

/-- All of them do nothing in the state. -/
def Skipped (es : List Expr) (s : State) : Prop :=
  ∀ e ∈ es, ∃ v, (expression ctx e).run s = ⟨[], some (v, s)⟩

mutual

/-- The run from the state comes to no `++` or `--` and to no call that is not kept, except inside what is kept; and
what is kept of an operand that it does not evaluate does nothing. -/
def Aligned : Expr → State → Prop
  | .number _ _, _ | .variable _ _, _ | .storageVariable _ _, _ => True
  | .load _ expr, s => Aligned expr s
  | .storageLoad _ expr, s => Aligned expr s
  | .cast _ _ expr, s => Aligned expr s
  | .structMember _ expr _, s => Aligned expr s
  | .subscript _ _ array index, s => Aligned array s ∧ After (expression ctx array) s fun _ s' => Aligned index s'
  | .storageByte array index, s => Aligned array s ∧ After (expression ctx array) s fun _ s' => Aligned index s'
  | .operator _ _ args, s => AlignedAll args s
  | .userDefinedOperator _ _ args, s => AlignedAll args s
  | .and left right, s => Aligned left s ∧ After (evaluate ctx left) s fun l s' =>
      if l ≠ 0 then Aligned right s' else Skipped ctx right.kept s'
  | .or left right, s => Aligned left s ∧ After (evaluate ctx left) s fun l s' =>
      if l ≠ 0 then Skipped ctx right.kept s' else Aligned right s'
  | .conditionalOperator _ cond left right, s => Aligned cond s ∧ After (evaluate ctx cond) s fun c s' =>
      if c ≠ 0 then Aligned left s' ∧ After (expression ctx left) s' fun _ s'' => Skipped ctx right.kept s''
      else Skipped ctx left.kept s' ∧ Aligned right s'
  | .assign _ _ _, _ => True
  | .incdec _ _ _ _ _ _, _ => False
  | .call _ _ callee _, _ => callee.hasSideEffects = true

def AlignedAll : List Expr → State → Prop
  | [], _ => True
  | e :: es, s => Aligned e s ∧ After (expression ctx e) s fun _ s' => AlignedAll es s'

end

def effectsOfAll : List Expr → Code Unit
  | [] => pure ()
  | e :: es => do
    effectsOf ctx e
    effectsOfAll es

/-- Where the evaluation of the value aborts, something that is kept aborts too, or nothing that is kept has an
effect. -/
def KeepsEffects (e : Expr) (s : State) : Prop :=
  match ((evaluate ctx e).run s).result with
  | some _ => Aligned ctx e s
  | none => ((effectsOfAll ctx e.kept).run s).result = none ∨ ((effectsOfAll ctx e.kept).run s).trace = []

/-! ## Where the effects are -/

mutual

/-- The locations in an expression -/
def Expr.locs : Expr → List Nat
  | .number _ _ | .variable _ _ | .storageVariable _ _ => []
  | .load _ expr => expr.locs
  | .storageLoad _ expr => expr.locs
  | .cast _ _ expr => expr.locs
  | .structMember _ expr _ => expr.locs
  | .subscript _ _ array index => array.locs ++ index.locs
  | .storageByte array index => array.locs ++ index.locs
  | .operator _ _ args => locsAll args
  | .userDefinedOperator _ _ args => locsAll args
  | .and left right => left.locs ++ right.locs
  | .or left right => left.locs ++ right.locs
  | .conditionalOperator _ cond left right => cond.locs ++ (left.locs ++ right.locs)
  | .assign loc left right => loc :: (left.locs ++ right.locs)
  | .incdec loc _ _ _ _ var => loc :: var.locs
  | .call loc _ _ args => loc :: locsAll args

def locsAll : List Expr → List Nat
  | [] => []
  | e :: es => e.locs ++ locsAll es

end

end Solang.Codegen.Evaluation
