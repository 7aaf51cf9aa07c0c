import Solang.Sema.Ast

/-!
# Mutability checking

`check_mutability` walks the modifiers and the body of a function and compares
every access it meets with the declared mutability. The walk never looks at what
it has gathered, so it is modelled by the list of updates that it makes to
`StateCheck`, in order.
-/

namespace Solang.Sema

open Codegen.Encoding (Target)

inductive Access where
  | none
  | read
  | write
  | value
  deriving DecidableEq, Repr

namespace Access

def level : Access → Nat
  | none => 0
  | read => 1
  | write => 2
  | value => 3

instance : LE Access := ⟨fun a b => a.level ≤ b.level⟩

instance (a b : Access) : Decidable (a ≤ b) := inferInstanceAs (Decidable (a.level ≤ b.level))

def increaseTo (a other : Access) : Access := if other ≤ a then a else other

end Access

def Mutability.access : Mutability → Access
  | pure => .none
  | view => .read
  | nonpayable => .write
  | payable => .value

/-- The flags `READ` and `WRITE` -/
structure DataAccountUsage where
  read : Bool
  write : Bool
  deriving DecidableEq, Repr

inductive DiagnosticLevel where
  | error
  | warning
  deriving DecidableEq, Repr

structure Diagnostic where
  level : DiagnosticLevel
  message : String
  note : Option String
  deriving DecidableEq, Repr

/-- `mutability` is that of `func`, `modifier` says whether a modifier is being checked. -/
structure StateCheck where
  diagnostics : List Diagnostic
  declaredAccess : Access
  requiredAccess : Access
  mutability : Mutability
  modifier : Bool
  dataAccount : DataAccountUsage

/-- A call of `StateCheck::read`, `write` or `value`, or flags set in `data_account` -/
inductive Update where
  | access (desired : Access)
  | dataAccount (usage : DataAccountUsage)
  deriving DecidableEq, Repr

namespace Update

def read : Update := access .read

def write : Update := access .write

def value : Update := access .value

def dataRead : Update := dataAccount ⟨true, false⟩

def dataWrite : Update := dataAccount ⟨false, true⟩

end Update

namespace StateCheck

/-- The messages for the expression and for the note; there is none for `Access::None`. -/
def messages : Access → String × String
  | .read => ("reads from state", "read to state")
  | .write => ("writes to state", "write to state")
  | .value => ("accesses value sent, which is only allowed for payable functions",
      "access of value sent")
  | .none => ("", "")

def checkLevel (s : StateCheck) (desired : Access) : StateCheck :=
  if desired ≤ s.declaredAccess then s
  else
    let (message, note) := messages desired
    let diagnostic :=
      if s.modifier then
        { level := .error
          message := "function declared '" ++ s.mutability.asStr ++ "' but modifier " ++ message
          note := some note }
      else
        { level := .error
          message := "function declared '" ++ s.mutability.asStr ++ "' but this expression "
            ++ message
          note := none }
    { s with diagnostics := s.diagnostics ++ [diagnostic] }

def apply (s : StateCheck) : Update → StateCheck
  | .access desired =>
    let s := s.checkLevel desired
    { s with requiredAccess := s.requiredAccess.increaseTo desired }
  | .dataAccount usage =>
    { s with
      dataAccount := ⟨s.dataAccount.read || usage.read, s.dataAccount.write || usage.write⟩ }

def applyAll (s : StateCheck) (us : List Update) : StateCheck := us.foldl apply s

end StateCheck

/-! ## Expressions -/

/-- The builtins that `read_expression` takes as reading state -/
def Builtin.readsState : Builtin → Bool
  | getAddress | blockNumber | slot | timestamp | blockCoinbase | blockDifficulty | blockHash
  | sender | origin | gasleft | gasprice | gasLimit | minimumBalance | balance | accounts
  | contractCode => true
  | _ => false

def Expression.isExternalFunction : Expression → Bool
  | .externalFunction _ => true
  | _ => false

/-- `args[0].ty().is_contract_storage()` -/
def Expression.onStorage (args : List Expression) : Bool :=
  (args.head?.map (·.ty.isContractStorage)).getD false

/-- The arm of `write_expression` for a node, and whether its operands are walked -/
def Expression.writeUpdates : Expression → List Update × Bool
  | .structMember _ array | .subscript _ _ array _ =>
    if array.ty.isContractStorage then ([.dataWrite, .write], false) else ([], true)
  | .variable ty varNo =>
    if ty.isContractStorage && !(Expression.variable ty varNo).ty.isContractStorage then
      ([.dataWrite, .write], false)
    else ([], true)
  | .storageVariable _ _ => ([.dataWrite, .write], false)
  | .builtin _ .accounts _ => ([.write], true)
  | .namedMember _ _ name => if name = "dataAccount" then ([.dataWrite], true) else ([], true)
  | _ => ([], true)

mutual

/-- `expr.recurse(state, write_expression)` -/
def Expression.recurseWrite : Expression → List Update
  | e@(.storageLoad _ expr) | e@(.incDec _ expr) | e@(.unary _ expr) | e@(.namedMember _ expr _)
  | e@(.structMember _ expr) | e@(.storageArrayLength _ expr) | e@(.externalFunction expr) =>
    e.writeUpdates.1 ++ if e.writeUpdates.2 then expr.recurseWrite else []
  | e@(.subscript _ _ left right) | e@(.assign _ left right) | e@(.binary _ left right) =>
    e.writeUpdates.1 ++
      if e.writeUpdates.2 then left.recurseWrite ++ right.recurseWrite else []
  | .conditionalOperator _ cond left right =>
    cond.recurseWrite ++ (left.recurseWrite ++ right.recurseWrite)
  | .internalFunctionCall _ _ function args =>
    function.recurseWrite ++ Expression.recurseWrites args
  | .externalFunctionCall _ _ function args callArgs _ =>
    Expression.recurseWrites args ++ (function.recurseWrite ++ Expression.recurseWrites callArgs)
  | .externalFunctionCallRaw _ address args callArgs _ =>
    args.recurseWrite ++ (address.recurseWrite ++ Expression.recurseWrites callArgs)
  | .constructor args callArgs _ =>
    Expression.recurseWrites args ++ Expression.recurseWrites callArgs
  | e@(.builtin _ _ exprs) => e.writeUpdates.1 ++ Expression.recurseWrites exprs
  | .stringCompare exprs | .many _ exprs => Expression.recurseWrites exprs
  | e => e.writeUpdates.1

def Expression.recurseWrites : List Expression → List Update
  | [] => []
  | e :: es => e.recurseWrite ++ Expression.recurseWrites es

end

/-- The access of a call by the mutability of the function's type -/
def Mutability.callUpdates : Mutability → List Update
  | nonpayable | payable => [.write]
  | view => [.read]
  | pure => []

/-- The arm of `read_expression` for a builtin in a function that is public or not, and
whether its arguments are walked -/
def Builtin.readUpdates (isPublic : Bool) (kind : Builtin) (args : List Expression) :
    List Update × Bool :=
  if kind = .functionSelector then
    ([], !(args.head?.map (·.isExternalFunction)).getD false)
  else if kind.readsState then ([.read], true)
  else if kind = .payableSend ∨ kind = .payableTransfer ∨ kind = .selfDestruct then
    ([.write], true)
  else if kind = .value then ([if isPublic then .value else .read], true)
  else if (kind = .arrayPush ∨ kind = .arrayPop) ∧ Expression.onStorage args then
    ([.dataWrite, .write], true)
  else ([], true)

mutual

/-- `expr.recurse(state, read_expression)` in a function that is public or not -/
def Expression.recurseRead (isPublic : Bool) : Expression → List Update
  | .storageLoad _ expr => [.dataRead, .read] ++ expr.recurseRead isPublic
  -- an increment is walked in write mode and then, like any operand, in read mode
  | .incDec _ expr => expr.recurseWrite ++ expr.recurseRead isPublic
  | .assign _ left right => right.recurseRead isPublic ++ left.recurseWrite
  | .storageArrayLength _ array => [.dataRead, .read] ++ array.recurseRead isPublic
  | .storageVariable _ _ => [.dataRead, .read]
  | .builtin _ kind args =>
    (kind.readUpdates isPublic args).1 ++
      if (kind.readUpdates isPublic args).2 then Expression.recurseReads isPublic args else []
  | .constructor args callArgs _ =>
    [.write] ++ (Expression.recurseReads isPublic args ++
      Expression.recurseReads isPublic callArgs)
  | .externalFunctionCall _ mutability function args callArgs _ =>
    mutability.callUpdates ++ (Expression.recurseReads isPublic args ++
      (function.recurseRead isPublic ++ Expression.recurseReads isPublic callArgs))
  | .internalFunctionCall _ mutability function args =>
    mutability.callUpdates ++
      (function.recurseRead isPublic ++ Expression.recurseReads isPublic args)
  | .externalFunctionCallRaw callTy address args callArgs _ =>
    (match callTy with
      | .static => [Update.read]
      | .delegate | .regular => [Update.write]) ++
      (args.recurseRead isPublic ++
        (address.recurseRead isPublic ++ Expression.recurseReads isPublic callArgs))
  | .namedMember _ array name =>
    (if name = "dataAccount" then [.dataRead] else []) ++ array.recurseRead isPublic
  | .unary _ expr | .structMember _ expr | .externalFunction expr => expr.recurseRead isPublic
  | .subscript _ _ left right | .binary _ left right =>
    left.recurseRead isPublic ++ right.recurseRead isPublic
  | .conditionalOperator _ cond left right =>
    cond.recurseRead isPublic ++ (left.recurseRead isPublic ++ right.recurseRead isPublic)
  | .stringCompare exprs | .many _ exprs => Expression.recurseReads isPublic exprs
  | .literal _ | .internalFunction _ _ | .variable _ _ => []

def Expression.recurseReads (isPublic : Bool) : List Expression → List Update
  | [] => []
  | e :: es => e.recurseRead isPublic ++ Expression.recurseReads isPublic es

end

def Expression.recurseOption (isPublic : Bool) : Option Expression → List Update
  | some e => e.recurseRead isPublic
  | none => []

/-! ## Inline assembly -/

def YulBuiltInFunction.stateUpdates (ty : YulBuiltInFunction) : List Update :=
  if ty.readState then [.read] else if ty.modifyState then [.write] else []

mutual

/-- `expr.recurse(state, check_expression_mutability_yul)` -/
def YulExpression.recurse : YulExpression → List Update
  | .builtInCall ty args =>
    ty.stateUpdates ++
      ((match ty with
        | .sStore => [Update.dataWrite]
        | .sLoad => [Update.dataRead]
        | _ => []) ++ YulExpression.recurses args)
  | .functionCall _ args => YulExpression.recurses args
  | _ => []

def YulExpression.recurses : List YulExpression → List Update
  | [] => []
  | e :: es => e.recurse ++ YulExpression.recurses es

end

mutual

/-- An iteration of `recurse_yul_statements` -/
def YulStatement.recurse : YulStatement → List Update
  | .functionCall _ args => YulExpression.recurses args
  | .builtInCall ty args => ty.stateUpdates ++ YulExpression.recurses args
  | .block statements => YulStatement.recurses statements
  | .assignment _ value | .variableDeclaration (some value) => value.recurse
  | .ifBlock condition block => condition.recurse ++ YulStatement.recurses block
  | .switch condition cases (some block) =>
    condition.recurse ++ (CaseBlock.recurses cases ++ YulStatement.recurses block)
  | .switch condition cases none => condition.recurse ++ CaseBlock.recurses cases
  | .for initBlock condition postBlock executionBlock =>
    YulStatement.recurses initBlock ++ (condition.recurse ++
      (YulStatement.recurses postBlock ++ YulStatement.recurses executionBlock))
  | _ => []

def CaseBlock.recurse : CaseBlock → List Update
  | .mk condition block => condition.recurse ++ YulStatement.recurses block

def CaseBlock.recurses : List CaseBlock → List Update
  | [] => []
  | c :: cs => c.recurse ++ CaseBlock.recurses cs

/-- `recurse_yul_statements` -/
def YulStatement.recurses : List YulStatement → List Update
  | [] => []
  | s :: ss => s.recurse ++ YulStatement.recurses ss

end

/-! ## Statements -/

mutual

/-- An iteration of `recurse_statements` -/
def Statement.recurse (isPublic : Bool) : Statement → List Update
  | .block statements => Statement.recurses isPublic statements
  | .variableDecl init => Expression.recurseOption isPublic init
  | .if cond then_ else_ =>
    cond.recurseRead isPublic ++
      (Statement.recurses isPublic then_ ++ Statement.recurses isPublic else_)
  | .doWhile body cond | .while cond body =>
    cond.recurseRead isPublic ++ Statement.recurses isPublic body
  | .for init cond next body =>
    Statement.recurses isPublic init ++ (Expression.recurseOption isPublic cond ++
      (Expression.recurseOption isPublic next ++ Statement.recurses isPublic body))
  | .expression expr => expr.recurseRead isPublic
  | .delete _ => [.dataWrite, .write]
  | .destructure fields expr => expr.recurseRead isPublic ++ Expression.recurseWrites fields
  | .return expr => Expression.recurseOption isPublic expr
  | .tryCatch expr okStmt clauses =>
    expr.recurseRead isPublic ++
      (Statement.recurses isPublic okStmt ++ Statement.recurseClauses isPublic clauses)
  | .emit _ => [.write]
  | .revert args => Expression.recurseReads isPublic args
  | .break | .continue | .underscore => []
  | .assembly functions body =>
    functions.flatMap YulStatement.recurses ++ YulStatement.recurses body

/-- `recurse_statements` -/
def Statement.recurses (isPublic : Bool) : List Statement → List Update
  | [] => []
  | s :: ss => s.recurse isPublic ++ Statement.recurses isPublic ss

def Statement.recurseClauses (isPublic : Bool) : List (List Statement) → List Update
  | [] => []
  | c :: cs => Statement.recurses isPublic c ++ Statement.recurseClauses isPublic cs

end

/-! ## Functions -/

namespace Bodies

variable (ns : Bodies)

/-- The body of a modifier that is called in the contract `contractNo` -/
def modifierBody (contractNo : Nat) : Expression → List Statement
  | .internalFunction _ (some signature) =>
    (ns.functions (ns.virtualFunction contractNo signature)).body
  | .internalFunction functionNo none => (ns.functions functionNo).body
  | _ => []

/-- The arguments of a modifier's call are checked as the function's own code. -/
def checkModifier (isPublic : Bool) (contractNo : Nat) (s : StateCheck) : Expression → StateCheck
  | .internalFunctionCall _ _ function args =>
    let s := s.applyAll (Expression.recurseReads isPublic args)
    let s := { s with modifier := true }
    let s := s.applyAll (Statement.recurses isPublic (ns.modifierBody contractNo function))
    { s with modifier := false }
  | _ => s

/-- What `check_mutability` has gathered when it has walked the body. Only the functions of a
contract have modifiers. -/
def walk (func : FunctionBody) : StateCheck :=
  let s : StateCheck :=
    { diagnostics := []
      declaredAccess := func.mutability.access
      requiredAccess := .none
      mutability := func.mutability
      modifier := false
      dataAccount := ⟨false, false⟩ }
  let s :=
    match func.contractNo with
    | some contractNo => func.modifiers.foldl (ns.checkModifier func.isPublic contractNo) s
    | none => s
  s.applyAll (Statement.recurses func.isPublic func.body)

end Bodies

def warning (message : String) : Diagnostic := ⟨.warning, message, none⟩

/-- The warnings of `check_mutability` -/
def FunctionBody.canBeDeclared (func : FunctionBody) (s : StateCheck) : List Diagnostic :=
  if func.ty = .function ∧ func.isAccessor = false then
    (if s.requiredAccess = .none then
      match func.mutability with
      | .payable | .pure => []
      | .nonpayable => [warning "function can be declared 'pure'"]
      | .view => [warning ("function declared '" ++ func.mutability.asStr ++
          "' can be declared 'pure'")]
    else []) ++
    -- don't suggest marking payable as view
    if s.requiredAccess = .read ∧ s.declaredAccess = .write then
      [warning "function can be declared 'view'"]
    else []
  else []

/-- The entry for the data account in `solana_accounts` -/
def FunctionBody.dataAccount (func : FunctionBody) (target : Target) (s : StateCheck) :
    Option SolanaAccount :=
  if func.isConstructor then
    some
      { isSigner := func.hasPayerAnnotation && !func.hasSeedAnnotation
        isWriter := true
        generated := true }
  else if s.dataAccount ≠ ⟨false, false⟩ ∧ target = .solana then
    some { isSigner := false, isWriter := s.dataAccount.write, generated := true }
  else none

/-- `check_mutability`: the diagnostics and the data account of the function -/
def Bodies.checkMutability (ns : Bodies) (target : Target) (func : FunctionBody) :
    List Diagnostic × Option SolanaAccount :=
  if func.isVirtual then ([], none)
  else
    let s := ns.walk func
    (s.diagnostics ++ func.canBeDeclared s, func.dataAccount target s)

end Solang.Sema
