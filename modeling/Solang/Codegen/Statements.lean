import Solang.Codegen.Cfg

/-!
# Lowering of statements

`codegen/statements/mod.rs` with the parts of `codegen/expression.rs`,
`codegen/cfg.rs` and `codegen/vartable.rs` that create blocks and phis. An
expression without control flow of its own is the straight-line code that it
is lowered to; `&&`, `||` and `?:` branch. The reachability flags are the ones
`sema/statements.rs` resolves.
-/

namespace Solang.Codegen

/-! ## The resolved syntax tree -/

/-- The code of an expression without control flow. -/
structure Code where
  instrs : List Instr
  straight : ∀ i ∈ instrs, i.targets = none
  /-- The variables marked by `set_dirty`, for writes other than `Set`. -/
  dirty : List Nat
  value : Expression

inductive SrcExpr where
  | basic (code : Code)
  /-- The operands of an operator: both are evaluated, in this order. -/
  | operands (first second : SrcExpr)
  | and (left right : SrcExpr)
  | or (left right : SrcExpr)
  | conditionalOperator (ty : Ty) (cond left right : SrcExpr)

/-- An instruction that ends execution. -/
structure Final where
  instr : Instr
  targets : instr.targets = some []

/-- An expression evaluated for its effect. One of type `Type::Unreachable`,
such as a call of `revert`, ends in a final instruction. -/
structure Effect where
  expr : SrcExpr
  noreturn : Option Final

inductive Stmt where
  | block (statements : List Stmt)
  | expression (effect : Effect)
  | return (expr : Option SrcExpr)
  | break
  | continue
  | ifThen (cond : SrcExpr) (thenStmt : Stmt)
  | ifThenElse (cond : SrcExpr) (thenStmt elseStmt : Stmt)
  | doWhile (body : Stmt) (cond : SrcExpr)
  | while (cond : SrcExpr) (body : Stmt)
  | for (init : Option Stmt) (cond : Option SrcExpr) (next : Option Effect) (body : Option Stmt)

namespace Stmt

mutual

/-- A `break` that leaves the loop around the statement (`no_breaks`). -/
def hasBreak : Stmt → Bool
  | block statements => hasBreaks statements
  | .break => true
  | ifThen _ thenStmt => thenStmt.hasBreak
  | ifThenElse _ thenStmt elseStmt => thenStmt.hasBreak || elseStmt.hasBreak
  | .for (some init) _ _ _ => init.hasBreak
  | _ => false

def hasBreaks : List Stmt → Bool
  | [] => false
  | s :: ss => s.hasBreak || hasBreaks ss

end

mutual

/-- What `sema::statements::statement` returns: of a block, the flag of its
last statement. -/
def resolvedReachable : Stmt → Bool
  | block statements => resolvedReachableLast statements
  | expression effect => effect.noreturn.isNone
  | .return _ | .break | .continue => false
  | ifThenElse _ thenStmt elseStmt => thenStmt.resolvedReachable || elseStmt.resolvedReachable
  | .for _ none _ body => body.any hasBreak
  | ifThen _ _ | doWhile _ _ | .while _ _ | .for _ (some _) _ _ => true

def resolvedReachableLast : List Stmt → Bool
  | [] => true
  | [s] => s.resolvedReachable
  | _ :: ss => resolvedReachableLast ss

end

mutual

/-- `Statement::reachable`. -/
def reachable : Stmt → Bool
  | block statements => allReachable statements
  | s => s.resolvedReachable

def allReachable : List Stmt → Bool
  | [] => true
  | s :: ss => s.reachable && allReachable ss

end

end Stmt

/-! ## The state of the lowering -/

/-- `vartable::DirtyTracker`. -/
structure DirtyTracker where
  lim : Nat
  set : List Nat

structure LoopScope where
  breakBb : Nat
  continueBb : Nat

/-- The graph under construction with its current block, the next variable and
the dirty trackers of the `Vartable`, and the `LoopScopes`; the top of each
stack comes first. -/
structure Lower where
  cfg : ControlFlowGraph
  current : Nat
  nextId : Nat
  dirty : List DirtyTracker
  loops : List LoopScope

namespace Lower

/-- The block that `new_basic_block` creates gets this number. -/
def newBlockNo (s : Lower) : Nat := s.cfg.blocks.length

def newBasicBlock (s : Lower) : Lower :=
  { s with cfg := ⟨s.cfg.blocks ++ [{ instr := [] }]⟩ }

def setBasicBlock (pos : Nat) (s : Lower) : Lower := { s with current := pos }

def setDirty (varNo : Nat) (s : Lower) : Lower :=
  { s with dirty := s.dirty.map fun e =>
      if varNo < e.lim then { e with set := e.set.insert varNo } else e }

/-- `ControlFlowGraph::add`. -/
def add (ins : Instr) (s : Lower) : Lower :=
  let s := match ins with
    | .set res _ => s.setDirty res
    | _ => s
  let b := s.cfg.block s.current
  { s with cfg := ⟨s.cfg.blocks.set s.current { b with instr := b.instr ++ [ins] }⟩ }

def setPhis (block : Nat) (phis : List Nat) (s : Lower) : Lower :=
  if phis.isEmpty then s
  else { s with cfg := ⟨s.cfg.blocks.set block { s.cfg.block block with phis := phis }⟩ }

def newDirtyTracker (s : Lower) : Lower := { s with dirty := ⟨s.nextId, []⟩ :: s.dirty }

/-- The set of the tracker on top, which `pop_dirty_tracker` returns. -/
def topDirty (s : Lower) : List Nat := (s.dirty.head?.map (·.set)).getD []

def popDirtyTracker (s : Lower) : Lower := { s with dirty := s.dirty.tail }

def temp (s : Lower) : Lower := { s with nextId := s.nextId + 1 }

def enterScope (breakBb continueBb : Nat) (s : Lower) : Lower :=
  { s with loops := ⟨breakBb, continueBb⟩ :: s.loops }

def leaveScope (s : Lower) : Lower := { s with loops := s.loops.tail }

def doBreak (s : Lower) : Nat := (s.loops.head?.map (·.breakBb)).getD 0

def doContinue (s : Lower) : Nat := (s.loops.head?.map (·.continueBb)).getD 0

/-- Straight-line code, with its calls of `set_dirty`. -/
def addCode (code : Code) (s : Lower) : Lower :=
  code.dirty.foldl (fun s v => s.setDirty v) (code.instrs.foldl (fun s i => s.add i) s)

end Lower

/-! ## Expressions -/

open Lower

/-- `expr_or` and `and`: the result is `isOr` unless the right side is
evaluated, which happens when the left side is not `isOr`. -/
def shortCircuit (isOr : Bool) (left right : Lower → Expression × Lower) (s : Lower) :
    Expression × Lower :=
  let (l, s) := left s
  let pos := s.nextId
  let s := s.temp.newDirtyTracker
  let rightSide := s.newBlockNo
  let s := s.newBasicBlock
  let endBlock := s.newBlockNo
  let s := s.newBasicBlock
  let s := s.add (.set pos (.boolLiteral isOr))
  let s := s.add (if isOr then .branchCond l endBlock rightSide
    else .branchCond l rightSide endBlock)
  let s := s.setBasicBlock rightSide
  let (r, s) := right s
  let s := s.add (.set pos r)
  let s := s.add (.branch endBlock)
  let s := s.setBasicBlock endBlock
  (.variable .bool pos, (s.setPhis endBlock s.topDirty).popDirtyTracker)

def conditionalOperator (ty : Ty) (cond left right : Lower → Expression × Lower) (s : Lower) :
    Expression × Lower :=
  let (c, s) := cond s
  let pos := s.nextId
  let s := s.temp.newDirtyTracker
  let leftBlock := s.newBlockNo
  let s := s.newBasicBlock
  let rightBlock := s.newBlockNo
  let s := s.newBasicBlock
  let doneBlock := s.newBlockNo
  let s := s.newBasicBlock
  let s := s.add (.branchCond c leftBlock rightBlock)
  let s := s.setBasicBlock leftBlock
  let (l, s) := left s
  let s := s.add (.set pos l)
  let s := s.add (.branch doneBlock)
  let s := s.setBasicBlock rightBlock
  let (r, s) := right s
  let s := s.add (.set pos r)
  let s := s.add (.branch doneBlock)
  let s := s.setBasicBlock doneBlock
  (.variable ty pos, (s.setPhis doneBlock s.topDirty).popDirtyTracker)

/-- `expression`: the value, and the state after its code was added. -/
def lowerExpr : SrcExpr → Lower → Expression × Lower
  | .basic code => fun s => (code.value, s.addCode code)
  | .operands first second => fun s => lowerExpr second (lowerExpr first s).2
  | .or left right => shortCircuit true (lowerExpr left) (lowerExpr right)
  | .and left right => shortCircuit false (lowerExpr left) (lowerExpr right)
  | .conditionalOperator ty cond left right =>
    conditionalOperator ty (lowerExpr cond) (lowerExpr left) (lowerExpr right)

def lowerEffect (e : Effect) (s : Lower) : Lower :=
  let s := (lowerExpr e.expr s).2
  match e.noreturn with
  | some i => s.add i.instr
  | none => s

/-- `returns`; the tracker pushed for a `?:` is not popped. -/
def returns : SrcExpr → Lower → Lower
  | .conditionalOperator _ cond left right, s =>
    let (c, s) := lowerExpr cond s
    let leftBlock := s.newBlockNo
    let s := s.newBasicBlock
    let rightBlock := s.newBlockNo
    let s := s.newBasicBlock
    let s := s.add (.branchCond c leftBlock rightBlock)
    let s := s.newDirtyTracker
    let s := s.setBasicBlock leftBlock
    let s := returns left s
    let s := s.setBasicBlock rightBlock
    returns right s
  | e, s =>
    let (v, s) := lowerExpr e s
    s.add (.return [v])

/-! ## Statements

Each construct takes the lowering of its parts and the flag `reachable()` of
its body. -/

/-- `if_then`. -/
def ifThen (cond : Lower → Expression × Lower) (thenStmt : Lower → Lower) (reachable : Bool)
    (s : Lower) : Lower :=
  let (c, s) := cond s
  let thenBlock := s.newBlockNo
  let s := s.newBasicBlock
  let endif := s.newBlockNo
  let s := s.newBasicBlock
  let s := s.add (.branchCond c thenBlock endif)
  let s := s.setBasicBlock thenBlock
  let s := s.newDirtyTracker
  let s := thenStmt s
  let s := if reachable then s.add (.branch endif) else s
  let s := (s.setPhis endif s.topDirty).popDirtyTracker
  s.setBasicBlock endif

/-- `if_then_else`. -/
def ifThenElse (cond : Lower → Expression × Lower) (thenStmt elseStmt : Lower → Lower)
    (thenReachable elseReachable : Bool) (s : Lower) : Lower :=
  let (c, s) := cond s
  let thenBlock := s.newBlockNo
  let s := s.newBasicBlock
  let elseBlock := s.newBlockNo
  let s := s.newBasicBlock
  let endif := s.newBlockNo
  let s := s.newBasicBlock
  let s := s.add (.branchCond c thenBlock elseBlock)
  let s := s.setBasicBlock thenBlock
  let s := s.newDirtyTracker
  let s := thenStmt s
  let s := if thenReachable then s.add (.branch endif) else s
  let s := s.setBasicBlock elseBlock
  let s := elseStmt s
  let s := if elseReachable then s.add (.branch endif) else s
  let s := (s.setPhis endif s.topDirty).popDirtyTracker
  s.setBasicBlock endif

/-- `Statement::DoWhile`; the loop scope is not left. -/
def doWhileLoop (body : Lower → Lower) (bodyReachable : Bool) (cond : Lower → Expression × Lower)
    (s : Lower) : Lower :=
  let bodyBlock := s.newBlockNo
  let s := s.newBasicBlock
  let condBlock := s.newBlockNo
  let s := s.newBasicBlock
  let endBlock := s.newBlockNo
  let s := s.newBasicBlock
  let s := s.add (.branch bodyBlock)
  let s := s.setBasicBlock bodyBlock
  let s := s.newDirtyTracker
  let s := s.enterScope endBlock condBlock
  let s := body s
  let s := if bodyReachable then s.add (.branch condBlock) else s
  let s := s.setBasicBlock condBlock
  let (c, s) := cond s
  let s := s.add (.branchCond c bodyBlock endBlock)
  let set := s.topDirty
  let s := s.popDirtyTracker
  let s := ((s.setPhis endBlock set).setPhis bodyBlock set).setPhis condBlock set
  s.setBasicBlock endBlock

/-- `Statement::While`. -/
def whileLoop (cond : Lower → Expression × Lower) (body : Lower → Lower) (bodyReachable : Bool)
    (s : Lower) : Lower :=
  let condBlock := s.newBlockNo
  let s := s.newBasicBlock
  let bodyBlock := s.newBlockNo
  let s := s.newBasicBlock
  let endBlock := s.newBlockNo
  let s := s.newBasicBlock
  let s := s.add (.branch condBlock)
  let s := s.setBasicBlock condBlock
  let (c, s) := cond s
  let s := s.add (.branchCond c bodyBlock endBlock)
  let s := s.setBasicBlock bodyBlock
  let s := s.newDirtyTracker
  let s := s.enterScope endBlock condBlock
  let s := body s
  let s := if bodyReachable then s.add (.branch condBlock) else s
  let s := s.leaveScope
  let set := s.topDirty
  let s := s.popDirtyTracker
  let s := (s.setPhis endBlock set).setPhis condBlock set
  s.setBasicBlock endBlock

/-- The next-block of a `for`, which goes back to the block `target`. -/
def forNext (next : Option (Lower → Lower)) (nextReachable : Bool) (nextBlock target : Nat)
    (s : Lower) : Lower :=
  let s := s.setBasicBlock nextBlock
  let s := next.elim s fun next => next s
  if nextReachable then s.add (.branch target) else s

/-- `Statement::For` without a condition. -/
def forLoop (init : Lower → Lower) (next : Option (Lower → Lower)) (nextReachable : Bool)
    (body : Lower → Lower) (bodyReachable : Bool) (s : Lower) : Lower :=
  let bodyBlock := s.newBlockNo
  let s := s.newBasicBlock
  let nextBlock := s.newBlockNo
  let s := s.newBasicBlock
  let endBlock := s.newBlockNo
  let s := s.newBasicBlock
  let s := init s
  let s := s.add (.branch bodyBlock)
  let s := s.setBasicBlock bodyBlock
  let s := s.enterScope endBlock (if next.isNone then bodyBlock else nextBlock)
  let s := s.newDirtyTracker
  let s := body s
  let s := if bodyReachable then s.add (.branch nextBlock) else s
  let s := s.leaveScope
  let s := if bodyReachable then forNext next nextReachable nextBlock bodyBlock s else s
  let set := s.topDirty
  let s := s.popDirtyTracker
  let s := ((s.setPhis nextBlock set).setPhis bodyBlock set).setPhis endBlock set
  s.setBasicBlock endBlock

/-- `Statement::For` with a condition. -/
def forLoopCond (init : Lower → Lower) (cond : Lower → Expression × Lower)
    (next : Option (Lower → Lower)) (nextReachable : Bool) (body : Lower → Lower)
    (bodyReachable : Bool) (s : Lower) : Lower :=
  let bodyBlock := s.newBlockNo
  let s := s.newBasicBlock
  let condBlock := s.newBlockNo
  let s := s.newBasicBlock
  let nextBlock := s.newBlockNo
  let s := s.newBasicBlock
  let endBlock := s.newBlockNo
  let s := s.newBasicBlock
  let s := init s
  let s := s.add (.branch condBlock)
  let s := s.setBasicBlock condBlock
  let (c, s) := cond s
  let s := s.add (.branchCond c bodyBlock endBlock)
  let s := s.setBasicBlock bodyBlock
  let s := s.enterScope endBlock nextBlock
  let s := s.newDirtyTracker
  let s := body s
  let s := if bodyReachable then s.add (.branch nextBlock) else s
  let s := s.leaveScope
  let s := forNext next nextReachable nextBlock condBlock s
  let s := s.setBasicBlock endBlock
  let set := s.topDirty
  let s := s.popDirtyTracker
  ((s.setPhis nextBlock set).setPhis endBlock set).setPhis condBlock set

/-- The flag of an expression's type being other than `Type::Unreachable`. -/
def Effect.reachable (e : Effect) : Bool := e.noreturn.isNone

mutual

def statement : Stmt → Lower → Lower
  | .block stmts => statements stmts
  | .expression effect => lowerEffect effect
  | .return none => fun s => s.add (.return [])
  | .return (some expr) => returns expr
  | .break => fun s => s.add (.branch s.doBreak)
  | .continue => fun s => s.add (.branch s.doContinue)
  | .ifThen cond thenStmt => ifThen (lowerExpr cond) (statement thenStmt) thenStmt.reachable
  | .ifThenElse cond thenStmt elseStmt =>
    ifThenElse (lowerExpr cond) (statement thenStmt) (statement elseStmt)
      thenStmt.reachable elseStmt.reachable
  | .doWhile body cond => doWhileLoop (statement body) body.reachable (lowerExpr cond)
  | .while cond body => whileLoop (lowerExpr cond) (statement body) body.reachable
  | .for init none next body =>
    forLoop (optStatement init) (next.map lowerEffect) (next.all Effect.reachable)
      (optStatement body) (body.all Stmt.reachable)
  | .for init (some cond) next body =>
    forLoopCond (optStatement init) (lowerExpr cond) (next.map lowerEffect)
      (next.all Effect.reachable) (optStatement body) (body.all Stmt.reachable)

/-- A block stops at the first statement that is not reachable past. -/
def statements : List Stmt → Lower → Lower
  | [], s => s
  | stmt :: stmts, s =>
    let s := statement stmt s
    if stmt.reachable then statements stmts s else s

def optStatement : Option Stmt → Lower → Lower
  | none => id
  | some stmt => statement stmt

end

/-- The body of `function_cfg`: lower the statement from an empty entry block,
and add the implicit return of the variables `returnVars`. -/
def functionCfg (body : Stmt) (returnVars : List Expression) (nextId : Nat) : ControlFlowGraph :=
  let s := statement body ⟨⟨[{ instr := [] }]⟩, 0, nextId, [], []⟩
  let s := if body.reachable then s.add (.return returnVars) else s
  s.cfg

end Solang.Codegen
