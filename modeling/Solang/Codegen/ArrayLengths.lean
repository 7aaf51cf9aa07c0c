import Solang.Codegen.Statements

/-!
# Lengths of arrays in temporaries

`codegen/array_boundary.rs`, `modify_temp_array_length` of `codegen/cfg.rs`, and `codegen/expression.rs` and
`codegen/statements` as far as they go through them. While the code is generated, in the order of the text,
`array_lengths_temps` takes a variable to the temporary that is read in place of the length of its array.

The instructions that belong to one step of the source are one operation of a block. Left out are what the phis
of a block are made from, inline assembly and the placeholder of a modifier.
-/

namespace Solang.Codegen.ArrayLengths

/-! ## The resolved syntax tree -/

inductive Expr where
  | numberLiteral (ty : Ty) (value : Int)
  | boolLiteral (value : Bool)
  | variable (ty : Ty) (varNo : Nat)
  | unary (op : UnaryOp) (expr : Expr)
  | binary (op : BinaryOp) (left right : Expr)
  | nary (op : NaryOp) (args : List Expr)
  /-- An array literal that is cast to a dynamic array -/
  | arrayLiteral (ty : Ty) (values : List Expr)
  | assign (left right : Expr)
  | arrayPush (elemTy arrayTy : Ty) (array value : Expr)
  | arrayPop (elemTy arrayTy : Ty) (array : Expr)
  /-- A subscript of a dynamic array in memory -/
  | subscript (elemTy arrayTy : Ty) (array index : Expr)
  | loadStorage (ty : Ty) (storage : Expr)
  | internalFunctionCall (ty : Ty) (call : InternalCallTy) (args : List Expr)
  | externalFunctionCall (ty : Ty) (args : List Expr)
  | or (left right : Expr)
  | and (left right : Expr)
  | conditionalOperator (ty : Ty) (cond left right : Expr)

/-- What a `return` or a destructuring takes apart -/
inductive Values where
  | list (exprs : List Expr)
  | call (tys : List Ty) (call : InternalCallTy) (args : List Expr)
  | conditionalOperator (cond : Expr) (left right : Values)

inductive DestructureField where
  | none
  | variableDecl (res : Nat)
  | expression (left : Expr)

mutual

inductive Statement where
  | block (statements : List Statement)
  | variableDecl (pos : Nat) (ty : Ty) (init : Option Expr)
  | return (values : Option Values)
  | expression (reachable : Bool) (expr : Expr)
  | delete (ty : Ty) (expr : Expr)
  | break
  | continue
  | ifThen (reachable : Bool) (cond : Expr) (thenStmt : List Statement)
  | ifThenElse (reachable : Bool) (cond : Expr) (thenStmt elseStmt : List Statement)
  | doWhile (reachable : Bool) (body : List Statement) (cond : Expr)
  | while (reachable : Bool) (cond : Expr) (body : List Statement)
  | for (reachable : Bool) (init : List Statement) (cond next : Option Expr) (body : List Statement)
  | destructure (fields : List DestructureField) (values : Values)
  | tryCatch (reachable : Bool) (args : List Expr) (returns : List Nat) (okStmt : List Statement)
      (errors : List CatchClause) (catchAll : Option CatchClause)
  | emit (eventNo : Nat) (args : List Expr)
  | revert (args : List Expr)

inductive CatchClause where
  | clause (paramPos : Option Nat) (stmt : List Statement)

end

/-- The variables of a function are below `nextId`, where the temporaries begin. -/
structure Function where
  params : List (Nat × Ty)
  /-- The named returns that have a default value -/
  returns : List (Nat × Expression)
  body : List Statement
  nextId : Nat

namespace Statement

mutual

/-- `Statement::reachable` -/
def reachable : Statement → Bool
  | block statements => allReachable statements
  | .return _ | .break | .continue | revert _ => false
  | expression r _ | ifThen r _ _ | ifThenElse r _ _ _ | doWhile r _ _ | .while r _ _ | .for r _ _ _ _
  | tryCatch r _ _ _ _ _ => r
  | variableDecl _ _ _ | delete _ _ | destructure _ _ | emit _ _ => true

def allReachable : List Statement → Bool
  | [] => true
  | s :: ss => s.reachable && allReachable ss

end

/-- Whether the end of statements that are all generated is reached: the flag of the last one -/
def lastReachable (ss : List Statement) : Bool := (ss.getLast?.map reachable).getD true

end Statement

/-! ## Operations -/

def Instr.resizesMemory : Instr → Bool
  | .pushMemory _ _ _ _ | .popMemory _ _ _ => true
  | _ => false

/-- An instruction that does not resize an array itself -/
structure PlainInstr where
  instr : Instr
  plain : Instr.resizesMemory instr = false

/-- `length` is no instruction: it marks the place where codegen puts the temporary for the length of the array. -/
inductive Op where
  | instr (i : PlainInstr)
  | declare (pos : Nat) (ty : Ty) (temp : Nat)
  | arrayLiteral (array : Nat) (ty : Ty) (values : List Expression) (temp : Nat)
  | push (res : Nat) (ty : Ty) (array : Nat) (value : Expression) (temp : Option Nat)
  | pop (res : Nat) (ty : Ty) (array : Nat) (temp : Option Nat)
  | length (array temp : Nat)

def uint32 (n : Nat) : Expression := .numberLiteral (.uint 32) n

/-- `modify_temp_array_length`, for the entry of the array in the map -/
def modifyTempArrayLength (minus : Bool) : Option Nat → List Instr
  | none => []
  | some toAdd =>
    let op := if minus then .subtract (.uint 32) true else .add (.uint 32) true
    [.set toAdd (.binary op (.variable (.uint 32) toAdd) (uint32 1))]

/-- The stores of the elements -/
def storeElements (array : Nat) (ty : Ty) (values : List Expression) : List Instr :=
  values.mapIdx fun itemNo item =>
    .store (.binary (.subscript (.ref ty) ty) (.variable ty array) (uint32 itemNo)) item

def Op.instrs : Op → List Instr
  | instr i => [i.instr]
  | declare pos ty temp => [.set pos (.undefined ty), .set temp (uint32 0)]
  | arrayLiteral array ty values temp =>
    .set array (.unary (.allocDynamicBytes ty none) (uint32 values.length)) ::
      (storeElements array ty values ++ [.set temp (uint32 values.length)])
  | push res ty array value temp => .pushMemory res ty array value :: modifyTempArrayLength false temp
  | pop res ty array temp => .popMemory res ty array :: modifyTempArrayLength true temp
  | length _ _ => []

/-- The blocks that can come next; `none` when the next operation of the block does. -/
def Op.targets : Op → Option (List Nat)
  | instr i => i.instr.targets
  | _ => none

/-! ## The state of the generator -/

structure Gen where
  blocks : List (List Op) := [[]]
  current : Nat := 0
  nextId : Nat
  loops : List LoopScope := []
  arrayLengthsTemps : IndexMap Nat Nat := ∅

/-- Code generation fails where the source has `unreachable!()`. -/
abbrev CodeGen := StateT Gen Option

def temp : CodeGen Nat := modifyGet fun g => (g.nextId, { g with nextId := g.nextId + 1 })

def add (op : Op) : CodeGen Unit :=
  modify fun g => { g with blocks := g.blocks.modify g.current (· ++ [op]) }

def addInstr (i : Instr) (h : Instr.resizesMemory i = false) : CodeGen Unit := add (.instr ⟨i, h⟩)

def set (res : Nat) (expr : Expression) : CodeGen Unit := addInstr (.set res expr) rfl

def newBasicBlock : CodeGen Nat :=
  modifyGet fun g => (g.blocks.length, { g with blocks := g.blocks ++ [[]] })

def setBasicBlock (pos : Nat) : CodeGen Unit := modify fun g => { g with current := pos }

def branch (block : Nat) : CodeGen Unit := addInstr (.branch block) rfl

def branchCond (cond : Expression) (trueBlock falseBlock : Nat) : CodeGen Unit :=
  addInstr (.branchCond cond trueBlock falseBlock) rfl

def branchIf (reachable : Bool) (block : Nat) : CodeGen Unit := if reachable then branch block else pure ()

def enterScope (breakBb continueBb : Nat) : CodeGen Unit :=
  modify fun g => { g with loops := ⟨breakBb, continueBb⟩ :: g.loops }

def leaveScope : CodeGen Unit := modify fun g => { g with loops := g.loops.tail }

def loopScope : CodeGen LoopScope := do (← get).loops.head?

/-- `array_lengths_temps.get` -/
def lengthTemp (varNo : Nat) : CodeGen (Option Nat) := return (← get).arrayLengthsTemps.lookup varNo

def insertLength (pos temp : Nat) : CodeGen Unit :=
  modify fun g => { g with arrayLengthsTemps := g.arrayLengthsTemps.insert pos temp }

def removeLength (pos : Nat) : CodeGen Unit :=
  modify fun g => { g with arrayLengthsTemps := g.arrayLengthsTemps.erase pos }

/-! ## Arrays -/

/-- What both `handle_array_assign` and the declaration of a variable do with a new array -/
def allocArray (pos : Nat) (ty : Ty) (size : Expression) (init : Option (List UInt8)) : CodeGen Expression := do
  let tempRes ← temp
  set tempRes size
  insertLength pos tempRes
  return .unary (.allocDynamicBytes ty init) (.variable (.uint 32) tempRes)

def handleArrayAssign (right : Expression) (pos : Nat) : CodeGen Expression :=
  match right with
  | .unary (.allocDynamicBytes (.array elem dims) init) size => allocArray pos (.array elem dims) size init
  | .variable ty rightRes => do
    match ← lengthTemp rightRes with
    | some toUpdate => insertLength pos toUpdate
    -- a function parameter or a struct member
    | none => removeLength pos
    return .variable ty rightRes
  | right => pure right

/-- The variable that an array to be resized is lowered to -/
def arrayVariable : Expression → CodeGen Nat
  | .variable _ varNo => pure varNo
  | _ => failure

/-- `builtin ArrayLength`, or the temporary in its place -/
def arrayLength (tys : List Ty) (array : Expression) (rest : List Expression) : CodeGen Expression :=
  match array with
  | .variable _ varNo => do
    match ← lengthTemp varNo with
    | some arrayLengthVar =>
      add (.length varNo arrayLengthVar)
      return .variable (.uint 32) arrayLengthVar
    | none => return .nary (.builtin tys .arrayLength) (array :: rest)
  | _ => return .nary (.builtin tys .arrayLength) (array :: rest)

/-- The last part of `array_subscript` -/
def boundsCheck (elemTy arrayTy : Ty) (array index : Expression) : CodeGen Expression := do
  let length ← arrayLength [.uint 32] array []
  let pos ← temp
  set pos index
  let outOfBounds ← newBasicBlock
  let inBounds ← newBasicBlock
  branchCond (.binary (.moreEqual false) (.variable (.uint 32) pos) length) outOfBounds inBounds
  setBasicBlock outOfBounds
  addInstr (.assertFailure none) rfl
  setBasicBlock inBounds
  return .binary (.subscript elemTy arrayTy) array (.variable (.uint 32) pos)

def arrayLiteralToMemoryArray (ty : Ty) (values : List Expression) : CodeGen Expression := do
  let memoryArray ← temp
  let tempRes ← temp
  add (.arrayLiteral memoryArray ty values tempRes)
  insertLength memoryArray tempRes
  return .variable ty memoryArray

/-- The result of a call, in a new temporary -/
def callResult (ty : Ty) (call : InternalCallTy) (args : List Expression) : CodeGen Expression := do
  let res ← temp
  addInstr (.call [res] [ty] call args) rfl
  return .variable ty res

def externalResult (ty : Ty) (args : List Expression) : CodeGen Expression := do
  addInstr (.externalCall none none .absentArgument none (.nary (.builtin [] (.other 0)) args) (uint32 0)
    (uint32 0) none) rfl
  let res ← temp
  set res .returnData
  return .variable ty res

/-! ## Expressions -/

mutual

def expression : Expr → CodeGen Expression
  | .numberLiteral ty value => pure (.numberLiteral ty value)
  | .boolLiteral value => pure (.boolLiteral value)
  | .variable ty varNo => pure (.variable ty varNo)
  | .unary op expr => return .unary op (← expression expr)
  | .binary op left right => return .binary op (← expression left) (← expression right)
  | .nary op args => do
    match op, ← expressions args with
    | .builtin tys .arrayLength, array :: rest => arrayLength tys array rest
    | op, args => return .nary op args
  | .arrayLiteral ty values => do arrayLiteralToMemoryArray ty (← expressions values)
  | .assign (.variable ty varNo) right => do
    let cfgRight ← expression right
    let cfgRight ← match ty with
      | .array _ _ => handleArrayAssign cfgRight varNo
      | _ => pure cfgRight
    set varNo cfgRight
    return .variable ty varNo
  | .assign left right => do
    let cfgRight ← expression right
    let pos ← temp
    let dest ← expression left
    set pos cfgRight
    addInstr (.store dest (.variable .void pos)) rfl
    return .variable .void pos
  | .arrayPush elemTy arrayTy array value => do
    let value ← expression value
    let addressRes ← temp
    let arrayPos ← arrayVariable (← expression array)
    add (.push addressRes arrayTy arrayPos value (← lengthTemp arrayPos))
    return .variable elemTy addressRes
  | .arrayPop elemTy arrayTy array => do
    let addressRes ← temp
    let arrayPos ← arrayVariable (← expression array)
    add (.pop addressRes arrayTy arrayPos (← lengthTemp arrayPos))
    return .variable elemTy addressRes
  | .subscript elemTy arrayTy array index => do
    let array ← expression array
    let index ← expression index
    boundsCheck elemTy arrayTy array index
  | .loadStorage ty storage => do
    let storage ← expression storage
    let res ← temp
    addInstr (.loadStorage res ty storage) rfl
    return .variable ty res
  | .internalFunctionCall ty call args => do callResult ty call (← expressions args)
  | .externalFunctionCall ty args => do externalResult ty (← expressions args)
  | .or left right => do
    let l ← expression left
    let pos ← temp
    let rightSide ← newBasicBlock
    let endOr ← newBasicBlock
    set pos (.boolLiteral true)
    branchCond l endOr rightSide
    setBasicBlock rightSide
    set pos (← expression right)
    branch endOr
    setBasicBlock endOr
    return .variable .bool pos
  | .and left right => do
    let l ← expression left
    let pos ← temp
    let rightSide ← newBasicBlock
    let endAnd ← newBasicBlock
    set pos (.boolLiteral false)
    branchCond l rightSide endAnd
    setBasicBlock rightSide
    set pos (← expression right)
    branch endAnd
    setBasicBlock endAnd
    return .variable .bool pos
  | .conditionalOperator ty cond left right => do
    let cond ← expression cond
    let pos ← temp
    let leftBlock ← newBasicBlock
    let rightBlock ← newBasicBlock
    let doneBlock ← newBasicBlock
    branchCond cond leftBlock rightBlock
    setBasicBlock leftBlock
    set pos (← expression left)
    branch doneBlock
    setBasicBlock rightBlock
    set pos (← expression right)
    branch doneBlock
    setBasicBlock doneBlock
    return .variable ty pos

def expressions : List Expr → CodeGen (List Expression)
  | [] => pure []
  | e :: es => return (← expression e) :: (← expressions es)

end

/-! ## Statements -/

/-- `returns`, without the casts of the values -/
def returns : Values → CodeGen Unit
  | .list exprs => do addInstr (.return (← expressions exprs)) rfl
  | .call tys call args => do
    let args ← expressions args
    let res ← tys.mapM fun _ => temp
    addInstr (.call res tys call args) rfl
    addInstr (.return (List.zipWith .variable tys res)) rfl
  | .conditionalOperator cond left right => do
    let cond ← expression cond
    let leftBlock ← newBasicBlock
    let rightBlock ← newBasicBlock
    branchCond cond leftBlock rightBlock
    setBasicBlock leftBlock
    returns left
    setBasicBlock rightBlock
    returns right

/-- The values of a list are put into temporaries. -/
def toTemps : List Expression → CodeGen (List Expression)
  | [] => pure []
  | expr :: exprs => do
    let res ← temp
    set res expr
    return .variable .void res :: (← toTemps exprs)

def assignFields : List DestructureField → List Expression → CodeGen Unit
  | .none :: fields, _ :: values => assignFields fields values
  | .variableDecl res :: fields, right :: values => do
    set res right
    assignFields fields values
  | .expression (.variable _ varNo) :: fields, right :: values => do
    set varNo right
    assignFields fields values
  | .expression left :: fields, right :: values => do
    let pos ← temp
    let dest ← expression left
    set pos right
    addInstr (.store dest (.variable .void pos)) rfl
    assignFields fields values
  | _, _ => pure ()

/-- `destructure`; unlike an assignment it leaves the map as it is. -/
def destructure (fields : List DestructureField) : Values → CodeGen Unit
  | .list exprs => do assignFields fields (← toTemps (← expressions exprs))
  | .call tys call args => do
    let args ← expressions args
    let res ← tys.mapM fun _ => temp
    addInstr (.call res tys call args) rfl
    assignFields fields (List.zipWith .variable tys res)
  | .conditionalOperator cond left right => do
    let cond ← expression cond
    let leftBlock ← newBasicBlock
    let rightBlock ← newBasicBlock
    let doneBlock ← newBasicBlock
    branchCond cond leftBlock rightBlock
    setBasicBlock leftBlock
    destructure fields left
    branch doneBlock
    setBasicBlock rightBlock
    destructure fields right
    branch doneBlock
    setBasicBlock doneBlock

/-- A declaration with an initial value. An entry is only ever added, unlike in `handle_array_assign`. -/
def variableDecl (pos : Nat) (init : Expression) : CodeGen Unit := do
  let expr ← match init with
    | .unary (.allocDynamicBytes (.array elem dims) init) size => allocArray pos (.array elem dims) size init
    | .variable ty varNo => do
      if let some toAdd ← lengthTemp varNo then insertLength pos toAdd
      pure (.variable ty varNo)
    | init => pure init
  set pos expr

/-- A declaration without one -/
def declare (pos : Nat) (ty : Ty) : CodeGen Unit :=
  match ty with
  | .array _ _ => do
    let tempRes ← temp
    add (.declare pos ty tempRes)
    insertLength pos tempRes
  | ty => set pos (.undefined ty)

def setAll (expr : Expression) : List Nat → CodeGen Unit
  | [] => pure ()
  | res :: rest => do
    set res expr
    setAll expr rest

mutual

def statement : Statement → CodeGen Unit
  | .block statements => blockStatements statements
  | .variableDecl pos _ (some init) => do variableDecl pos (← expression init)
  | .variableDecl pos ty none => declare pos ty
  | .return none => addInstr (.return []) rfl
  | .return (some values) => returns values
  | .expression _ expr => discard (expression expr)
  | .delete ty expr => do addInstr (.clearStorage ty (← expression expr)) rfl
  | .break => do branch (← loopScope).breakBb
  | .continue => do branch (← loopScope).continueBb
  | .ifThen _ cond thenStmt => do
    let cond ← expression cond
    let then_ ← newBasicBlock
    let endif ← newBasicBlock
    branchCond cond then_ endif
    setBasicBlock then_
    statements thenStmt
    branchIf (Statement.lastReachable thenStmt) endif
    setBasicBlock endif
  | .ifThenElse _ cond thenStmt elseStmt => do
    let cond ← expression cond
    let then_ ← newBasicBlock
    let else_ ← newBasicBlock
    let endif ← newBasicBlock
    branchCond cond then_ else_
    setBasicBlock then_
    statements thenStmt
    branchIf (Statement.lastReachable thenStmt) endif
    setBasicBlock else_
    statements elseStmt
    branchIf (Statement.lastReachable elseStmt) endif
    setBasicBlock endif
  | .doWhile _ body condExpr => do
    let bodyBlock ← newBasicBlock
    let cond ← newBasicBlock
    let end_ ← newBasicBlock
    branch bodyBlock
    setBasicBlock bodyBlock
    -- the source never leaves this scope
    enterScope end_ cond
    statements body
    branchIf (Statement.lastReachable body) cond
    setBasicBlock cond
    branchCond (← expression condExpr) bodyBlock end_
    setBasicBlock end_
  | .while _ condExpr body => do
    let cond ← newBasicBlock
    let bodyBlock ← newBasicBlock
    let end_ ← newBasicBlock
    branch cond
    setBasicBlock cond
    branchCond (← expression condExpr) bodyBlock end_
    setBasicBlock bodyBlock
    enterScope end_ cond
    statements body
    branchIf (Statement.lastReachable body) cond
    leaveScope
    setBasicBlock end_
  | .for _ init none next body => do
    let bodyBlock ← newBasicBlock
    let nextBlock ← newBasicBlock
    let endBlock ← newBasicBlock
    statements init
    branch bodyBlock
    setBasicBlock bodyBlock
    enterScope endBlock (if next.isNone then bodyBlock else nextBlock)
    statements body
    branchIf (Statement.lastReachable body) nextBlock
    leaveScope
    if Statement.lastReachable body then
      setBasicBlock nextBlock
      if let some next := next then discard (expression next)
      branch bodyBlock
    setBasicBlock endBlock
  | .for _ init (some condExpr) next body => do
    let bodyBlock ← newBasicBlock
    let condBlock ← newBasicBlock
    let nextBlock ← newBasicBlock
    let endBlock ← newBasicBlock
    statements init
    branch condBlock
    setBasicBlock condBlock
    branchCond (← expression condExpr) bodyBlock endBlock
    setBasicBlock bodyBlock
    enterScope endBlock nextBlock
    statements body
    branchIf (Statement.lastReachable body) nextBlock
    leaveScope
    setBasicBlock nextBlock
    if let some next := next then discard (expression next)
    branch condBlock
    setBasicBlock endBlock
  | .destructure fields values => destructure fields values
  | .tryCatch _ args returns okStmt errors catchAll => do
    let ok ← newBasicBlock
    let catch_ ← newBasicBlock
    let finally_ ← newBasicBlock
    let success ← temp
    let args ← expressions args
    addInstr (.externalCall (some success) none .absentArgument none (.nary (.builtin [] (.other 0)) args)
      (uint32 0) (uint32 0) none) rfl
    let successCase ← newBasicBlock
    let revertCase ← newBasicBlock
    let errorNoData ← newBasicBlock
    addInstr (.switch (.variable (.uint 32) success) [(uint32 0, successCase), (uint32 2, revertCase)]
      errorNoData) rfl
    let errorRetDataVar ← temp
    setBasicBlock errorNoData
    set errorRetDataVar (.unary (.allocDynamicBytes .dynamicBytes (some [])) (uint32 0))
    branch catch_
    setBasicBlock revertCase
    set errorRetDataVar .returnData
    branch catch_
    setBasicBlock successCase
    setAll .returnData returns
    branch ok
    setBasicBlock ok
    statements okStmt
    branchIf (Statement.lastReachable okStmt) finally_
    setBasicBlock catch_
    if !errors.isEmpty then
      let noMatch ← newBasicBlock
      let switch ← newBasicBlock
      branchCond (.binary (.more false) (.nary (.builtin [.uint 32] .arrayLength)
        [.variable .dynamicBytes errorRetDataVar]) (uint32 4)) switch noMatch
      let cases ← errorClauses finally_ errors
      setBasicBlock switch
      addInstr (.switch (.variable .dynamicBytes errorRetDataVar) (cases.map (uint32 0, ·)) noMatch) rfl
      setBasicBlock noMatch
    catchAllClause errorRetDataVar finally_ catchAll
    setBasicBlock finally_
  | .emit eventNo args => do addInstr (.emitEvent eventNo (.nary (.builtin [] (.other 0)) (← expressions args)) []) rfl
  | .revert args => do
    addInstr (.assertFailure (some (.nary (.builtin [] (.other 0)) (← expressions args)))) rfl

def statements : List Statement → CodeGen Unit
  | [] => pure ()
  | s :: ss => do
    statement s
    statements ss

/-- The statements of a block, up to one that does not reach its end -/
def blockStatements : List Statement → CodeGen Unit
  | [] => pure ()
  | s :: ss => do
    statement s
    if s.reachable then blockStatements ss

def errorClauses (finallyBlock : Nat) : List CatchClause → CodeGen (List Nat)
  | [] => pure []
  | .clause paramPos stmt :: rest => do
    let clauseBodyBlock ← newBasicBlock
    setBasicBlock clauseBodyBlock
    let res ← match paramPos with
      | some pos => pure pos
      | none => temp
    set res .returnData
    statements stmt
    branchIf (Statement.lastReachable stmt) finallyBlock
    return clauseBodyBlock :: (← errorClauses finallyBlock rest)

def catchAllClause (errorDataBuf finallyBlock : Nat) : Option CatchClause → CodeGen Unit
  | none => addInstr (.assertFailure (some (.variable .dynamicBytes errorDataBuf))) rfl
  | some (.clause paramPos stmt) => do
    if let some res := paramPos then set res (.variable .dynamicBytes errorDataBuf)
    statements stmt
    branchIf (Statement.lastReachable stmt) finallyBlock

end

def populateArguments : Nat → List (Nat × Ty) → CodeGen Unit
  | _, [] => pure ()
  | i, (pos, ty) :: rest => do
    set pos (.functionArg ty i)
    populateArguments (i + 1) rest

def populateNamedReturns : List (Nat × Expression) → CodeGen Unit
  | [] => pure ()
  | (pos, expr) :: rest => do
    set pos expr
    populateNamedReturns rest

/-- `function_cfg`, without the calls of base constructors -/
def Function.codegen (f : Function) : CodeGen Unit := do
  populateArguments 0 f.params
  populateNamedReturns f.returns
  blockStatements f.body
  if Statement.lastReachable f.body then addInstr (.return []) rfl

/-- The blocks of the function -/
def Function.cfg (f : Function) : Option (List (List Op)) :=
  (f.codegen.run { nextId := f.nextId }).map fun r => r.2.blocks

end Solang.Codegen.ArrayLengths
