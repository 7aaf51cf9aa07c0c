import Solang.Codegen.Statements

/-!
# Lowering of Yul statements

`sema/yul` resolves for each statement whether it can be reached, and for each
block whether what follows it can; `codegen/yul/statements.rs` lowers only what can
be reached. The graph and its construction are those of the Solidity statements.

Definitions of functions, which execute nothing, are left out. A branch on zero in a
builtin (`div(x, 0)` is zero) is a conditional expression.
-/

namespace Solang.Codegen.Yul

open Lower

/-! ## The parse tree -/

/-- A condition with the type of its value -/
structure Condition where
  expr : SrcExpr
  ty : Ty

mutual

/-- `pt::YulStatement`; calls, declarations and assignments are effects. -/
inductive Stmt where
  | effect (effect : Effect)
  | block (statements : List Stmt)
  | ifBlock (condition : Condition) (body : List Stmt)
  | switch (condition : SrcExpr) (cases : List Case) (default : Option (List Stmt))
  | for (init : List Stmt) (condition : Condition) (post body : List Stmt)
  | leave
  | break
  | continue

/-- The literal of a case is lowered to a value without code. -/
inductive Case where
  | mk (condition : Expression) (body : List Stmt)

end

/-! ## The resolved syntax tree -/

mutual

inductive YulStatement where
  | effect (reachable : Bool) (effect : Effect)
  | block (block : YulBlock)
  | ifBlock (reachable : Bool) (condition : Condition) (block : YulBlock)
  | switch (reachable : Bool) (condition : SrcExpr) (cases : List CaseBlock)
      (default : Option YulBlock)
  | for (reachable : Bool) (init : YulBlock) (condition : Condition) (post body : YulBlock)
  | leave (reachable : Bool)
  | break (reachable : Bool)
  | continue (reachable : Bool)

inductive YulBlock where
  | mk (reachable nextReachable : Bool) (statements : List YulStatement)

inductive CaseBlock where
  | mk (condition : Expression) (block : YulBlock)

end

def YulBlock.reachable : YulBlock → Bool
  | mk reachable _ _ => reachable

/-- `is_next_reachable`, which also holds of an empty block -/
def YulBlock.isNextReachable : YulBlock → Bool
  | mk _ nextReachable statements => statements.isEmpty || nextReachable

/-! ## Resolution -/

/-- What `resolve_yul_block` makes of the statements that it has resolved -/
def asBlock (reachable : Bool) (resolved : List YulStatement × Bool) : YulBlock × Bool :=
  let next := resolved.2 && reachable
  (⟨reachable, next, resolved.1⟩, next)

mutual

/-- `resolve_yul_statement`: the statement, and whether the next one can be reached -/
def resolveYulStatement (reachable : Bool) : Stmt → YulStatement × Bool
  | .effect effect => (.effect reachable effect, effect.reachable)
  | .block statements =>
    let (block, next) := asBlock reachable (processStatements reachable statements)
    (.block block, next)
  | .ifBlock condition body =>
    (.ifBlock reachable condition (asBlock reachable (processStatements reachable body)).1, true)
  | .switch condition cases default =>
    let (cases, next) := resolveCases reachable cases
    let (default, next) := resolveDefault next default
    (.switch reachable condition cases default, next)
  | .for init condition post body =>
    let (init, initNext) := processStatements reachable init
    let next := reachable && initNext
    let (body, bodyNext) := asBlock next (processStatements next body)
    let next := next && bodyNext
    let (post, _) := asBlock next (processStatements next post)
    (.for reachable ⟨reachable, initNext, init⟩ condition post body, initNext)
  | .leave => (.leave reachable, false)
  | .break => (.break reachable, false)
  | .continue => (.continue reachable, false)

def processStatements (reachable : Bool) : List Stmt → List YulStatement × Bool
  | [] => ([], reachable)
  | item :: statements =>
    let (item, next) := resolveYulStatement reachable item
    let (body, next) := processStatements (reachable && next) statements
    (item :: body, next)

/-- `resolve_case_block` of each case, with `next_reachable` so far -/
def resolveCases (nextReachable : Bool) : List Case → List CaseBlock × Bool
  | [] => ([], nextReachable)
  | ⟨condition, body⟩ :: cases =>
    let (block, reachable) := asBlock nextReachable (processStatements nextReachable body)
    let (cases, next) := resolveCases (nextReachable || reachable) cases
    (⟨condition, block⟩ :: cases, next)

def resolveDefault (nextReachable : Bool) : Option (List Stmt) → Option YulBlock × Bool
  | none => (none, true)
  | some body =>
    let (block, reachable) := asBlock nextReachable (processStatements nextReachable body)
    (some block, nextReachable || reachable)

end

def resolveYulBlock (reachable : Bool) (statements : List Stmt) : YulBlock × Bool :=
  asBlock reachable (processStatements reachable statements)

/-! ## Lowering -/

/-- The condition of a branch: a value that is no `bool` is compared with zero. -/
def lowerCondition (condition : Condition) (s : Lower) : Expression × Lower :=
  let (value, s) := lowerExpr condition.expr s
  if condition.ty = .bool then (value, s)
  else (.binary .notEqual (.numberLiteral condition.ty 0) value, s)

/-- `process_for_block`; each block comes with `is_next_reachable`. -/
def processForBlock (init : Lower → Lower) (initNext : Bool) (condition : Lower → Expression × Lower)
    (post : Lower → Lower) (postNext : Bool) (body : Lower → Lower) (bodyNext : Bool) (s : Lower) :
    Lower :=
  let s := init s
  if !initNext then s
  else
    let condBlock := s.newBlockNo
    let s := s.newBasicBlock
    let nextBlock := s.newBlockNo
    let s := s.newBasicBlock
    let bodyBlock := s.newBlockNo
    let s := s.newBasicBlock
    let endBlock := s.newBlockNo
    let s := s.newBasicBlock
    let s := s.add (.branch condBlock)
    let s := s.setBasicBlock condBlock
    let (c, s) := condition s
    let s := s.add (.branchCond c bodyBlock endBlock)
    let s := s.setBasicBlock bodyBlock
    let s := s.enterScope endBlock nextBlock
    let s := s.newDirtyTracker
    let s := body s
    let s := if bodyNext then s.add (.branch nextBlock) else s
    let s := s.leaveScope
    let s := s.setBasicBlock nextBlock
    let s := post s
    let s := if postNext then s.add (.branch condBlock) else s
    let s := s.setBasicBlock endBlock
    let set := s.topDirty
    let s := s.popDirtyTracker
    ((s.setPhis nextBlock set).setPhis endBlock set).setPhis condBlock set

/-- A block of a switch, which goes on behind the switch -/
def switchBlock (body : Lower → Lower) (next : Bool) (endSwitch : Nat) (s : Lower) : Lower :=
  let block := s.newBlockNo
  let s := s.newBasicBlock
  let s := s.setBasicBlock block
  let s := body s
  if next then s.add (.branch endSwitch) else s

/-- `switch`, from the lowering of the cases and of the default block -/
def switch (condition : Lower → Expression × Lower)
    (cases : Nat → Lower → List (Expression × Nat) × Lower) (default : Nat → Lower → Nat × Lower)
    (s : Lower) : Lower :=
  let (c, s) := condition s
  let endSwitch := s.newBlockNo
  let s := s.newBasicBlock
  let currentBlock := s.current
  let s := s.newDirtyTracker
  let (casesCfg, s) := cases endSwitch s
  let (defaultBlock, s) := default endSwitch s
  let s := (s.setPhis endSwitch s.topDirty).popDirtyTracker
  let s := s.setBasicBlock currentBlock
  let s := s.add (.switch c casesCfg defaultBlock)
  s.setBasicBlock endSwitch

mutual

/-- `statement`; `earlyLeave` is what `leave` adds. -/
def statement (earlyLeave : Instr) : YulStatement → Lower → Lower
  | .effect reachable effect => if reachable then lowerEffect effect else id
  | .block block => if block.reachable then lowerBlock earlyLeave block else id
  | .ifBlock reachable condition block =>
    if reachable then
      ifThen (lowerCondition condition) (lowerBlock earlyLeave block) block.isNextReachable
    else id
  | .switch reachable condition cases default =>
    if reachable then
      switch (lowerExpr condition) (lowerCases earlyLeave cases) (lowerDefault earlyLeave default)
    else id
  | .for reachable init condition post body =>
    if reachable then
      processForBlock (lowerBlock earlyLeave init) init.isNextReachable (lowerCondition condition)
        (lowerBlock earlyLeave post) post.isNextReachable (lowerBlock earlyLeave body)
        body.isNextReachable
    else id
  | .leave reachable => if reachable then fun s => s.add earlyLeave else id
  | .break reachable => if reachable then fun s => s.add (.branch s.doBreak) else id
  | .continue reachable => if reachable then fun s => s.add (.branch s.doContinue) else id

/-- The statements of a block, one after the other -/
def lowerBlock (earlyLeave : Instr) : YulBlock → Lower → Lower
  | ⟨_, _, statements⟩ => lowerStatements earlyLeave statements

def lowerStatements (earlyLeave : Instr) : List YulStatement → Lower → Lower
  | [], s => s
  | item :: statements, s => lowerStatements earlyLeave statements (statement earlyLeave item s)

def lowerCases (earlyLeave : Instr) : List CaseBlock → Nat → Lower → List (Expression × Nat) × Lower
  | [], _, s => ([], s)
  | ⟨condition, block⟩ :: cases, endSwitch, s =>
    let caseBlock := s.newBlockNo
    let s := switchBlock (lowerBlock earlyLeave block) block.isNextReachable endSwitch s
    let (casesCfg, s) := lowerCases earlyLeave cases endSwitch s
    ((condition, caseBlock) :: casesCfg, s)

def lowerDefault (earlyLeave : Instr) : Option YulBlock → Nat → Lower → Nat × Lower
  | none, endSwitch, s => (endSwitch, s)
  | some block, endSwitch, s =>
    (s.newBlockNo, switchBlock (lowerBlock earlyLeave block) block.isNextReachable endSwitch s)

end

/-- `yul_function_cfg` for a function with this body that returns these values -/
def yulFunctionCfg (body : List Stmt) (returns : List Expression) (nextId : Nat) :
    ControlFlowGraph :=
  let block := (resolveYulBlock true body).1
  let s := lowerBlock (.return returns) block ⟨⟨[{ instr := [] }]⟩, 0, nextId, [], []⟩
  let s := if block.isNextReachable then s.add (.return returns) else s
  s.cfg

end Solang.Codegen.Yul
