import Solang.Sema.Mutability

/-!
# What the mutability check sees

`Node.effect` says what a node of a function's code does to the state by itself,
`Node.children` what is nested in it. A function that is declared `view` or `pure`
is `Sound` in a contract when nothing nested in its body or in its modifiers does
more than that.

The check does not look everywhere. It does not look at the targets of
assignments for what they read or call, at some options of calls and at the
argument of a selector (`Node.sheltered`), nor does it know some nodes
(`Node.missed`). A function without an error is sound exactly when there is
nothing in those places.
-/

namespace Solang.Sema

open Relation

/-! ## Effects -/

def Ty.isDynamicStorage : Ty → Bool
  | .storageRef dynamicArray => dynamicArray
  | _ => false

/-- A builtin that reads the state of the contract or of the chain -/
def Builtin.effect (kind : Builtin) (args : List Expression) : Access :=
  match kind with
  | .getAddress | .blockNumber | .slot | .timestamp | .blockCoinbase | .blockDifficulty
  | .blockHash | .sender | .origin | .gasleft | .gasprice | .gasLimit | .minimumBalance
  | .balance | .accounts | .contractCode | .value | .baseFee | .prevRandao | .chainId => .read
  | .payableSend | .payableTransfer | .selfDestruct => .write
  | .arrayPush | .arrayPop => if Expression.onStorage args then .write else .none
  | _ => .none

def Mutability.effect : Mutability → Access
  | payable | nonpayable => .write
  | view => .read
  | pure => .none

namespace Expression

/-- The expression is part of `tx.accounts`. -/
def inTxAccounts : Expression → Bool
  | .builtin _ .accounts _ => true
  | .subscript _ _ array _ => array.inTxAccounts
  | .structMember _ expr | .namedMember _ expr _ | .unary _ expr => expr.inTxAccounts
  | _ => false

/-- The expression is part of an account. -/
def inAccount : Expression → Bool
  | .builtin _ .accounts _ => true
  | .subscript _ _ array _ => array.inAccount
  | .structMember _ expr => expr.ty == .accountInfo || expr.inAccount
  | .namedMember _ expr _ | .unary _ expr => expr.inAccount
  | _ => false

/-- To store in a local variable is no effect, also where it is a reference to storage. -/
def isState : Expression → Bool
  | .variable _ _ => false
  | e => e.ty.isContractStorage || e.inAccount

/-- The targets that the check knows to be state -/
def isMarked : Expression → Bool
  | .storageVariable _ _ => true
  | .structMember ty expr =>
    expr.ty.isContractStorage || (Expression.structMember ty expr).inTxAccounts
  | .subscript ty arrayTy array index =>
    array.ty.isContractStorage || (Expression.subscript ty arrayTy array index).inTxAccounts
  | e => e.inTxAccounts

/-- A subscript of a storage array of dynamic length reads the length. -/
def effect : Expression → Access
  | .storageLoad _ _ | .storageArrayLength _ _ | .storageVariable _ _ => .read
  | .subscript _ arrayTy _ _ => if arrayTy.isDynamicStorage then .read else .none
  | .incDec _ target | .assign _ target _ => if target.isState then .write else .none
  | .internalFunctionCall _ mutability _ _ | .externalFunctionCall _ mutability _ _ _ _ =>
    mutability.effect
  | .externalFunctionCallRaw .static _ _ _ _ => .read
  | .externalFunctionCallRaw _ _ _ _ _ | .constructor _ _ _ => .write
  | .builtin _ kind args => kind.effect args
  | _ => .none

/-- The nodes that the check does not know: three builtins that it takes for constants, a
subscript that reads a length, and targets that it does not take for state -/
def missed : Expression → Prop
  | .builtin _ kind _ => kind = .baseFee ∨ kind = .prevRandao ∨ kind = .chainId
  | .subscript _ arrayTy _ _ => arrayTy.isDynamicStorage = true
  | .incDec _ target | .assign _ target _ => target.isMarked = false
  | _ => False

/-- The operands that are walked like the node itself -/
def opens : Expression → List Expression
  | .storageLoad _ e | .incDec _ e | .unary _ e | .namedMember _ e _ | .structMember _ e
  | .storageArrayLength _ e | .externalFunction e => [e]
  | .subscript _ _ l r | .binary _ l r => [l, r]
  | .assign _ _ r => [r]
  | .conditionalOperator _ c l r => [c, l, r]
  | .internalFunctionCall _ _ function args => function :: args
  | .externalFunctionCall _ _ function args callArgs _ => function :: (args ++ callArgs)
  | .externalFunctionCallRaw _ address args callArgs _ => address :: args :: callArgs
  | .constructor args callArgs _ => args ++ callArgs
  | .builtin _ kind args =>
    if kind = .functionSelector ∧ (args.head?.map (·.isExternalFunction)).getD false then []
    else args
  | .stringCompare es | .many _ es => es
  | .literal _ | .internalFunction _ _ | .variable _ _ | .storageVariable _ _ => []

/-- The operands that are not: the target of an assignment, the seeds and the program id of a
call, and the function whose selector is taken -/
def sheltered : Expression → List Expression
  | .assign _ l _ => [l]
  | .externalFunctionCall _ _ _ _ _ seeds | .externalFunctionCallRaw _ _ _ _ seeds
  | .constructor _ _ seeds => seeds
  | .builtin _ kind args =>
    if kind = .functionSelector ∧ (args.head?.map (·.isExternalFunction)).getD false then args
    else []
  | _ => []

end Expression

def YulBuiltInFunction.effect (ty : YulBuiltInFunction) : Access :=
  if ty.modifyState then .write else if ty.readState then .read else .none

inductive Node where
  | expr (e : Expression)
  | stmt (s : Statement)
  | yulExpr (e : YulExpression)
  | yulStmt (s : YulStatement)

namespace Node

def effect : Node → Access
  | .expr e => e.effect
  | .stmt (.delete _) | .stmt (.emit _) => .write
  | .stmt (.destructure fields _) => if fields.any (·.isState) then .write else .none
  | .yulExpr (.builtInCall ty _) | .yulStmt (.builtInCall ty _) => ty.effect
  | _ => .none

def missed : Node → Prop
  | .expr e => e.missed
  | .stmt (.destructure fields _) => ∀ e ∈ fields, e.isMarked = false
  | _ => False

def yulStmts (ss : List YulStatement) : List Node := ss.map .yulStmt

def yulExprs (es : List YulExpression) : List Node := es.map .yulExpr

def stmts (ss : List Statement) : List Node := ss.map .stmt

def exprs (es : List Expression) : List Node := es.map .expr

def yulCase : CaseBlock → List Node
  | .mk condition block => .yulExpr condition :: yulStmts block

def opens : Node → List Node
  | .expr e => exprs e.opens
  | .stmt (.block ss) => stmts ss
  | .stmt (.variableDecl init) => exprs init.toList
  | .stmt (.if cond then_ else_) => .expr cond :: stmts (then_ ++ else_)
  | .stmt (.while cond body) | .stmt (.doWhile body cond) => .expr cond :: stmts body
  | .stmt (.for init cond next body) =>
    stmts (init ++ body) ++ exprs (cond.toList ++ next.toList)
  | .stmt (.expression e) | .stmt (.delete e) | .stmt (.destructure _ e) => [.expr e]
  | .stmt (.return e) => exprs e.toList
  | .stmt (.tryCatch e okStmt clauses) => .expr e :: stmts (okStmt ++ clauses.flatten)
  | .stmt (.emit args) | .stmt (.revert args) => exprs args
  | .stmt .break | .stmt .continue | .stmt .underscore => []
  | .stmt (.assembly functions body) => yulStmts (functions.flatten ++ body)
  | .yulExpr (.builtInCall _ args) | .yulExpr (.functionCall _ args) => yulExprs args
  | .yulExpr _ => []
  | .yulStmt (.functionCall _ args) | .yulStmt (.builtInCall _ args) => yulExprs args
  | .yulStmt (.block ss) => yulStmts ss
  | .yulStmt (.variableDeclaration value) => yulExprs value.toList
  | .yulStmt (.assignment _ value) => [.yulExpr value]
  | .yulStmt (.ifBlock condition block) => .yulExpr condition :: yulStmts block
  | .yulStmt (.switch condition cases default) =>
    .yulExpr condition :: (cases.flatMap yulCase ++ yulStmts (default.getD []))
  | .yulStmt (.for initBlock condition postBlock executionBlock) =>
    .yulExpr condition :: yulStmts (initBlock ++ postBlock ++ executionBlock)
  | .yulStmt .leave | .yulStmt .break | .yulStmt .continue => []

def sheltered : Node → List Node
  | .expr e => exprs e.sheltered
  | .stmt (.destructure fields _) => exprs fields
  | .yulExpr (.suffixAccess e) => [.yulExpr e]
  | .yulStmt (.assignment targets _) => yulExprs targets
  | _ => []

def children (n : Node) : List Node := n.opens ++ n.sheltered

/-- `n` is `root` or nested in it. -/
def Within (root n : Node) : Prop := ReflTransGen (fun a b => b ∈ a.children) root n

end Node

/-! ## Functions -/

namespace Bodies

variable (ns : Bodies)

/-- The code that a modifier adds in a contract: its arguments and its body -/
def modifierNodes (contractNo : Nat) : Expression → List Node
  | .internalFunctionCall _ _ function args =>
    Node.exprs args ++ Node.stmts (ns.modifierBody contractNo function)
  | _ => []

/-- The code of a function in a contract. A contract may override modifiers that it inherits
together with the function. -/
def code (contractNo : Nat) (func : FunctionBody) : List Node :=
  func.modifiers.flatMap (ns.modifierNodes contractNo) ++ Node.stmts func.body

/-- Nothing in the code of the function does more than its mutability says. -/
def Sound (contractNo : Nat) (func : FunctionBody) : Prop :=
  ∀ root ∈ ns.code contractNo func, ∀ n, root.Within n → n.effect ≤ func.mutability.access

/-- The code of a function as the contract that declares it has it -/
def ownCode (func : FunctionBody) : List Node :=
  match func.contractNo with
  | some contractNo => ns.code contractNo func
  | none => Node.stmts func.body

/-- The node is where the check does not look: in a virtual function, in a modifier that
another contract overrides, under a sheltered operand, or a node that the check misses. -/
def Concealed (func : FunctionBody) (root n : Node) : Prop :=
  func.isVirtual = true ∨ n.missed ∨ root ∉ ns.ownCode func ∨
    ∃ a, root.Within a ∧ ∃ b ∈ a.sheltered, b.Within n

/-- There is nothing above the declared mutability where the check does not look. -/
def NothingConcealed (contractNo : Nat) (func : FunctionBody) : Prop :=
  ∀ root ∈ ns.code contractNo func, ∀ n, root.Within n → ns.Concealed func root n →
    n.effect ≤ func.mutability.access

end Bodies

def anyErrors (diagnostics : List Diagnostic) : Bool := diagnostics.any (·.level == .error)

/-! ## The updates of a walk -/

namespace Update

def All (p : Update → Prop) (us : List Update) : Prop := ∀ u ∈ us, p u

variable {p : Update → Prop}

@[simp] theorem all_nil : All p [] := by
  intro u h
  simp at h

@[simp] theorem all_cons {u : Update} {us : List Update} : All p (u :: us) ↔ p u ∧ All p us :=
  List.forall_mem_cons

@[simp] theorem all_append {us vs : List Update} : All p (us ++ vs) ↔ All p us ∧ All p vs :=
  List.forall_mem_append

theorem all_flatMap {α : Type} {f : α → List Update} {l : List α} :
    All p (l.flatMap f) ↔ ∀ x ∈ l, All p (f x) := by
  simp only [All, List.mem_flatMap]
  constructor
  · intro h x hx u hu
    exact h u ⟨x, hx, hu⟩
  · rintro h u ⟨x, hx, hu⟩
    exact h x hx u hu

/-- An access is not above `acc`. -/
def UpTo (acc : Access) : Update → Prop
  | .access desired => desired ≤ acc
  | .dataAccount _ => True

variable {acc : Access}

@[simp] theorem upTo_access {desired : Access} :
    UpTo acc (.access desired) ↔ desired ≤ acc := Iff.rfl

@[simp] theorem upTo_read : UpTo acc .read ↔ Access.read ≤ acc := Iff.rfl

@[simp] theorem upTo_write : UpTo acc .write ↔ Access.write ≤ acc := Iff.rfl

@[simp] theorem upTo_value : UpTo acc .value ↔ Access.value ≤ acc := Iff.rfl

@[simp] theorem upTo_dataAccount {usage : DataAccountUsage} :
    UpTo acc (.dataAccount usage) := trivial

@[simp] theorem upTo_dataRead : UpTo acc .dataRead := trivial

@[simp] theorem upTo_dataWrite : UpTo acc .dataWrite := trivial

end Update

open Update

variable {acc : Access} {p : Update → Prop} {isPublic : Bool}

variable {es : List Expression} {a : Access} {e : Expression}

@[simp] theorem Expression.all_recurseReads :
    All p (Expression.recurseReads isPublic es) ↔
      ∀ e ∈ es, All p (e.recurseRead isPublic) := by
  induction es with
  | nil => simp [recurseReads]
  | cons e es ih => simp [recurseReads, ih]

theorem Expression.all_recurseWrites :
    All p (Expression.recurseWrites es) ↔ ∀ e ∈ es, All p e.recurseWrite := by
  induction es with
  | nil => simp [recurseWrites]
  | cons e es ih => simp [recurseWrites, ih]

@[simp] theorem Expression.all_recurseOption {e : Option Expression} :
    All p (Expression.recurseOption isPublic e) ↔
      ∀ e' ∈ e, All p (e'.recurseRead isPublic) := by
  cases e <;> simp [recurseOption]

@[simp] theorem YulExpression.all_recurses {es : List YulExpression} :
    All p (YulExpression.recurses es) ↔ ∀ e ∈ es, All p e.recurse := by
  induction es with
  | nil => simp [recurses]
  | cons e es ih => simp [recurses, ih]

@[simp] theorem YulStatement.all_recurses {ss : List YulStatement} :
    All p (YulStatement.recurses ss) ↔ ∀ s ∈ ss, All p s.recurse := by
  induction ss with
  | nil => simp [recurses]
  | cons s ss ih => simp [recurses, ih]

@[simp] theorem CaseBlock.all_recurses {cs : List CaseBlock} :
    All p (CaseBlock.recurses cs) ↔ ∀ c ∈ cs, All p c.recurse := by
  induction cs with
  | nil => simp [recurses]
  | cons c cs ih => simp [recurses, ih]

@[simp] theorem Statement.all_recurses {ss : List Statement} :
    All p (Statement.recurses isPublic ss) ↔ ∀ s ∈ ss, All p (s.recurse isPublic) := by
  induction ss with
  | nil => simp [recurses]
  | cons s ss ih => simp [recurses, ih]

@[simp] theorem Statement.all_recurseClauses {cs : List (List Statement)} :
    All p (Statement.recurseClauses isPublic cs) ↔
      ∀ c ∈ cs, ∀ s ∈ c, All p (s.recurse isPublic) := by
  induction cs with
  | nil => simp [recurseClauses]
  | cons c cs ih => simp [recurseClauses, ih]

/-! ## A node and its operands -/

/-- What the walk does at a node -/
def Node.updates (isPublic : Bool) : Node → List Update
  | .expr e => e.recurseRead isPublic
  | .stmt s => s.recurse isPublic
  | .yulExpr e => e.recurse
  | .yulStmt s => s.recurse

theorem Access.not_write_le_read (h : a ≤ .read) : ¬ Access.write ≤ a := by
  revert h
  cases a <;> decide

theorem Expression.all_opens (h : All p (e.recurseRead isPublic)) :
    ∀ b ∈ e.opens, All p (b.recurseRead isPublic) := by
  cases e with
  | builtin ty kind args =>
    simp only [opens]
    simp only [recurseRead, all_append] at h
    split_ifs with hs
    · simp
    · have hwalked : (kind.readUpdates isPublic args).2 = true := by
        unfold Builtin.readUpdates
        split_ifs with hk <;> simp_all
      rw [if_pos hwalked] at h
      exact all_recurseReads.mp h.2
  | _ =>
    simp only [recurseRead, all_append, all_recurseReads] at h
    simp_all [opens, or_imp]

theorem YulExpression.all_opens {e : YulExpression} (h : All p e.recurse) :
    ∀ b ∈ (Node.yulExpr e).opens, All p (b.updates isPublic) := by
  cases e with
  | leaf => simp [Node.opens]
  | suffixAccess e => simp [Node.opens]
  | _ =>
    simp only [recurse, all_append, all_recurses] at h
    simp_all [Node.opens, Node.yulExprs, Node.updates]

theorem YulStatement.all_opens {s : YulStatement} (h : All p s.recurse) :
    ∀ b ∈ (Node.yulStmt s).opens, All p (b.updates isPublic) := by
  cases s with
  | switch condition cases default =>
    have hcase : ∀ c ∈ cases, All p c.recurse →
        ∀ b ∈ Node.yulCase c, All p (b.updates isPublic) := by
      rintro ⟨condition, block⟩ _ hc
      simp only [CaseBlock.recurse, all_append, all_recurses] at hc
      simp_all [Node.yulCase, Node.yulStmts, Node.updates]
    intro b hb
    simp only [Node.opens, List.mem_cons, List.mem_append, List.mem_flatMap] at hb
    cases default with
    | none =>
      simp only [recurse, all_append, CaseBlock.all_recurses] at h
      obtain rfl | ⟨c, hc, hb⟩ | hb := hb
      · exact h.1
      · exact hcase c hc (h.2 c hc) b hb
      · simp [Node.yulStmts] at hb
    | some block =>
      simp only [recurse, all_append, CaseBlock.all_recurses, all_recurses] at h
      obtain rfl | ⟨c, hc, hb⟩ | hb := hb
      · exact h.1
      · exact hcase c hc (h.2.1 c hc) b hb
      · obtain ⟨s, hs, rfl⟩ := List.mem_map.mp hb
        exact h.2.2 s hs
  | variableDeclaration value =>
    cases value <;> simp_all [Node.opens, Node.yulExprs, recurse, Node.updates]
  | _ =>
    simp only [recurse, all_append, all_recurses, YulExpression.all_recurses] at h
    simp_all [Node.opens, Node.yulExprs, Node.yulStmts, Node.updates, or_imp, forall_and]

/-- The operands that the walk goes on with. Nothing is walked under `delete` and `emit`. -/
def Node.walked : Node → List Node
  | .stmt (.delete _) | .stmt (.emit _) => []
  | n => n.opens

theorem Statement.all_walked {s : Statement} (h : All p (s.recurse isPublic)) :
    ∀ b ∈ (Node.stmt s).walked, All p (b.updates isPublic) := by
  cases s with
  | delete e => simp [Node.walked]
  | emit args => simp [Node.walked]
  | tryCatch e okStmt clauses =>
    simp only [recurse, all_append, all_recurses, all_recurseClauses] at h
    intro b hb
    obtain rfl | hb := List.mem_cons.mp hb
    · exact h.1
    obtain ⟨s, hs, rfl⟩ := List.mem_map.mp hb
    obtain hs | hs := List.mem_append.mp hs
    · exact h.2.1 s hs
    · obtain ⟨c, hc, hs⟩ := List.mem_flatten.mp hs
      exact h.2.2 c hc s hs
  | assembly functions body =>
    simp only [recurse, all_append, all_flatMap, YulStatement.all_recurses] at h
    intro b hb
    obtain ⟨s, hs, rfl⟩ := List.mem_map.mp hb
    obtain hs | hs := List.mem_append.mp hs
    · obtain ⟨c, hc, hs⟩ := List.mem_flatten.mp hs
      exact h.1 c hc s hs
    · exact h.2 s hs
  | _ =>
    simp only [recurse, all_append, all_recurses, Expression.all_recurseReads,
      Expression.all_recurseOption] at h
    simp_all [Node.walked, Node.opens, Node.exprs, Node.stmts, Node.updates, or_imp, forall_and]

theorem Node.all_walked {n : Node} (h : All p (n.updates isPublic)) :
    ∀ b ∈ n.walked, All p (b.updates isPublic) := by
  cases n with
  | expr e =>
    intro b hb
    obtain ⟨e', he', rfl⟩ := List.mem_map.mp hb
    exact Expression.all_opens h e' he'
  | stmt s => exact Statement.all_walked h
  | yulExpr e => exact YulExpression.all_opens h
  | yulStmt s => exact YulStatement.all_opens h

/-- Where nothing writes, there is no `delete` and no `emit`. -/
theorem Node.walked_eq_opens {n : Node} (hacc : acc ≤ .read)
    (h : All (UpTo acc) (n.updates isPublic)) : n.walked = n.opens := by
  cases n with
  | stmt s =>
    cases s with
    | delete e =>
      simp only [updates, Statement.recurse, all_cons, upTo_write] at h
      exact absurd h.2.1 (Access.not_write_le_read hacc)
    | emit args =>
      simp only [updates, Statement.recurse, all_cons, upTo_write] at h
      exact absurd h.1 (Access.not_write_le_read hacc)
    | _ => rfl
  | _ => rfl

/-! ## A node that the check knows -/

/-- A walk in write mode finds the accounts at the root of a target. -/
theorem Expression.write_mem_of_inTxAccounts :
    ∀ {e : Expression}, e.inTxAccounts = true → Update.write ∈ e.recurseWrite
  | .builtin ty kind args, h => by
    have hk : kind = .accounts := by
      by_contra hk
      cases kind <;> simp_all [inTxAccounts]
    subst hk
    simp [recurseWrite, writeUpdates]
  | .subscript _ _ array index, h => by
    simp only [recurseWrite, writeUpdates]
    by_cases hs : array.ty.isContractStorage = true
    · simp [hs]
    · simp [hs, write_mem_of_inTxAccounts (e := array) h]
  | .structMember _ expr, h => by
    simp only [recurseWrite, writeUpdates]
    by_cases hs : expr.ty.isContractStorage = true
    · simp [hs]
    · simp [hs, write_mem_of_inTxAccounts (e := expr) h]
  | .namedMember _ expr name, h => by
    have hwalked : (namedMember ‹_› expr name).writeUpdates.2 = true := by
      simp only [writeUpdates]
      split_ifs <;> rfl
    simp [recurseWrite, hwalked, write_mem_of_inTxAccounts (e := expr) h]
  | .unary _ expr, h => by
    simp [recurseWrite, writeUpdates, write_mem_of_inTxAccounts (e := expr) h]

theorem Expression.write_mem_of_isMarked (h : e.isMarked = true) :
    Update.write ∈ e.recurseWrite := by
  have hstorage : ∀ {e base : Expression}, base.ty.isContractStorage = true →
      (e = .structMember e.ty base ∨ ∃ ty index, e = .subscript e.ty ty base index) →
      Update.write ∈ e.recurseWrite := by
    rintro e base hb (he | ⟨ty, index, he⟩)
    · rw [he]
      simp [recurseWrite, writeUpdates, hb]
    · rw [he]
      simp [recurseWrite, writeUpdates, hb]
  cases e with
  | storageVariable ty varNo => simp [recurseWrite, writeUpdates]
  | structMember ty expr =>
    obtain hs | ha := (Bool.or_eq_true _ _).mp h
    · exact hstorage hs (.inl rfl)
    · exact write_mem_of_inTxAccounts ha
  | subscript ty arrayTy array index =>
    obtain hs | ha := (Bool.or_eq_true _ _).mp h
    · exact hstorage hs (.inr ⟨arrayTy, index, rfl⟩)
    · exact write_mem_of_inTxAccounts ha
  | _ => exact write_mem_of_inTxAccounts h

theorem Expression.isMarked_eq_false (hacc : acc ≤ .read) (h : All (UpTo acc) e.recurseWrite) :
    e.isMarked = false := by
  cases hm : e.isMarked with
  | false => rfl
  | true => exact absurd (h _ (write_mem_of_isMarked hm)) (Access.not_write_le_read hacc)

/-- A target that is not marked is one that the check misses. -/
theorem Expression.target_le {target : Expression} (hacc : acc ≤ .read)
    (h : All (UpTo acc) target.recurseWrite) (hm : ¬ target.isMarked = false) :
    (if target.isState then Access.write else .none) ≤ acc :=
  absurd (isMarked_eq_false hacc h) hm

theorem Mutability.effect_le {m : Mutability} (h : All (UpTo acc) m.callUpdates) :
    m.effect ≤ acc := by
  cases m with
  | pure => exact Nat.zero_le _
  | _ => simpa [callUpdates, effect] using h

theorem Access.read_le_value (h : Access.value ≤ a) : Access.read ≤ a := by
  revert h
  cases a <;> decide

theorem Builtin.effect_le {kind : Builtin} {args : List Expression}
    (h : All (UpTo acc) (kind.readUpdates isPublic args).1)
    (hm : ¬ (kind = .baseFee ∨ kind = .prevRandao ∨ kind = .chainId)) :
    kind.effect args ≤ acc := by
  have hnone : Access.none ≤ acc := Nat.zero_le _
  cases kind with
  | value =>
    cases isPublic with
    | true => exact Access.read_le_value (by simpa [readUpdates, readsState] using h)
    | false => simpa [readUpdates, readsState, effect] using h
  | arrayPush | arrayPop =>
    unfold effect
    by_cases hs : Expression.onStorage args = true
    · simpa [readUpdates, readsState, hs] using h
    · simpa [hs] using hnone
  | baseFee | prevRandao | chainId => simp at hm
  | _ => first | exact hnone | simpa [readUpdates, readsState, effect] using h

theorem Expression.effect_le {e : Expression} (hacc : acc ≤ .read)
    (h : All (UpTo acc) (e.recurseRead isPublic)) (hm : ¬ e.missed) : e.effect ≤ acc := by
  have hnone : Access.none ≤ acc := Nat.zero_le _
  cases e with
  | storageLoad ty expr => simp_all [recurseRead, effect]
  | storageArrayLength ty array => simp_all [recurseRead, effect]
  | storageVariable ty varNo => simp_all [recurseRead, effect]
  | incDec ty expr =>
    simp only [recurseRead, all_append] at h
    exact target_le hacc h.1 hm
  | assign ty left right =>
    simp only [recurseRead, all_append] at h
    exact target_le hacc h.2 hm
  | subscript ty arrayTy array index =>
    have hd : ¬ arrayTy.isDynamicStorage = true := hm
    simp only [effect, if_neg hd]
    exact hnone
  | internalFunctionCall ty mutability function args =>
    simp only [recurseRead, all_append] at h
    exact Mutability.effect_le h.1
  | externalFunctionCall ty mutability function args callArgs seeds =>
    simp only [recurseRead, all_append] at h
    exact Mutability.effect_le h.1
  | externalFunctionCallRaw callTy address args callArgs seeds =>
    cases callTy <;> simp_all [recurseRead, effect]
  | constructor args callArgs seeds => simp_all [recurseRead, effect]
  | builtin ty kind args =>
    simp only [recurseRead, all_append] at h
    exact Builtin.effect_le h.1 hm
  | _ => exact hnone

theorem YulBuiltInFunction.effect_le {ty : YulBuiltInFunction} (h : All (UpTo acc) ty.stateUpdates) :
    ty.effect ≤ acc := by
  -- no builtin is in both tables
  have hdisjoint : ty.readState = true → ty.modifyState = false := by
    cases ty <;> decide
  have hnone : Access.none ≤ acc := Nat.zero_le _
  unfold effect
  unfold stateUpdates at h
  cases hr : ty.readState with
  | true => simpa [hr, hdisjoint hr] using h
  | false =>
    cases hw : ty.modifyState with
    | true => simpa [hr, hw] using h
    | false => simpa [hr, hw] using hnone

theorem Node.effect_le {n : Node} (hacc : acc ≤ .read) (h : All (UpTo acc) (n.updates isPublic))
    (hm : ¬ n.missed) : n.effect ≤ acc := by
  have hnone : Access.none ≤ acc := Nat.zero_le _
  cases n with
  | expr e => exact Expression.effect_le hacc h hm
  | stmt s =>
    cases s with
    | delete e =>
      simp_all [updates, Statement.recurse, effect]
    | emit args =>
      simp_all [updates, Statement.recurse, effect]
    | destructure fields e =>
      simp only [updates, Statement.recurse, all_append] at h
      refine absurd (fun e he => ?_) hm
      exact Expression.isMarked_eq_false hacc (Expression.all_recurseWrites.mp h.2 e he)
    | _ => exact hnone
  | yulExpr e =>
    cases e with
    | builtInCall ty args =>
      simp only [updates, YulExpression.recurse, all_append] at h
      exact YulBuiltInFunction.effect_le h.1
    | _ => exact hnone
  | yulStmt s =>
    cases s with
    | builtInCall ty args =>
      simp only [updates, YulStatement.recurse, all_append] at h
      exact YulBuiltInFunction.effect_le h.1
    | _ => exact hnone

/-! ## Whole functions -/

theorem anyErrors_append {ds es : List Diagnostic} :
    anyErrors (ds ++ es) = false ↔ anyErrors ds = false ∧ anyErrors es = false := by
  simp only [anyErrors, List.any_append, Bool.or_eq_false_iff]

namespace StateCheck

variable {s : StateCheck}

@[simp] theorem apply_declaredAccess (u : Update) :
    (s.apply u).declaredAccess = s.declaredAccess := by
  cases u with
  | access desired =>
    unfold apply checkLevel
    dsimp only
    split_ifs <;> rfl
  | dataAccount usage => rfl

@[simp] theorem applyAll_declaredAccess (us : List Update) :
    (s.applyAll us).declaredAccess = s.declaredAccess := by
  induction us generalizing s with
  | nil => rfl
  | cons u us ih => exact (ih (s := s.apply u)).trans (apply_declaredAccess u)

/-- An access above the declared one is an error, and errors stay. -/
theorem allowed_of_apply {u : Update} (h : anyErrors (s.apply u).diagnostics = false) :
    anyErrors s.diagnostics = false ∧ All (UpTo s.declaredAccess) [u] := by
  cases u with
  | dataAccount usage => exact ⟨h, by simp⟩
  | access desired =>
    unfold apply checkLevel at h
    dsimp only at h
    by_cases hd : desired ≤ s.declaredAccess
    · rw [if_pos hd] at h
      exact ⟨h, by simp [hd]⟩
    · rw [if_neg hd] at h
      dsimp only at h
      rw [anyErrors_append] at h
      split_ifs at h <;> simp [anyErrors] at h

theorem allowed_of_applyAll (us : List Update)
    (h : anyErrors (s.applyAll us).diagnostics = false) :
    anyErrors s.diagnostics = false ∧ All (UpTo s.declaredAccess) us := by
  induction us generalizing s with
  | nil => exact ⟨h, by simp⟩
  | cons u us ih =>
    obtain ⟨hu, hus⟩ := ih (s := s.apply u) h
    obtain ⟨hs, hone⟩ := allowed_of_apply hu
    rw [apply_declaredAccess] at hus
    refine ⟨hs, ?_⟩
    rw [← List.singleton_append, all_append]
    exact ⟨hone, hus⟩

end StateCheck

namespace Bodies

variable {ns : Bodies} {func : FunctionBody}

variable {s : StateCheck} {c : Nat}

theorem allowed_of_checkModifier {call : Expression}
    (h : anyErrors (ns.checkModifier isPublic c s call).diagnostics = false) :
    anyErrors s.diagnostics = false ∧
      ∀ n ∈ ns.modifierNodes c call, All (UpTo s.declaredAccess) (n.updates isPublic) := by
  cases call with
  | internalFunctionCall ty mutability function args =>
    simp only [checkModifier] at h
    obtain ⟨hargs, hbody⟩ := StateCheck.allowed_of_applyAll _ h
    obtain ⟨hs, hargs⟩ := StateCheck.allowed_of_applyAll _ hargs
    rw [StateCheck.applyAll_declaredAccess] at hbody
    refine ⟨hs, fun n hn => ?_⟩
    obtain hn | hn := List.mem_append.mp hn
    · obtain ⟨e, he, rfl⟩ := List.mem_map.mp hn
      exact Expression.all_recurseReads.mp hargs e he
    · obtain ⟨s', hs', rfl⟩ := List.mem_map.mp hn
      exact Statement.all_recurses.mp hbody s' hs'
  | _ => exact ⟨h, by simp [modifierNodes]⟩

@[simp] theorem checkModifier_declaredAccess (call : Expression) :
    (ns.checkModifier isPublic c s call).declaredAccess = s.declaredAccess := by
  cases call with
  | internalFunctionCall ty mutability function args => simp [checkModifier]
  | _ => rfl

theorem allowed_of_modifiers (calls : List Expression)
    (h : anyErrors (calls.foldl (ns.checkModifier isPublic c) s).diagnostics = false) :
    anyErrors s.diagnostics = false ∧ ∀ n ∈ calls.flatMap (ns.modifierNodes c),
      All (UpTo s.declaredAccess) (n.updates isPublic) := by
  induction calls generalizing s with
  | nil => exact ⟨h, by simp⟩
  | cons call calls ih =>
    obtain ⟨hcall, hcalls⟩ := ih h
    obtain ⟨hs, hn⟩ := allowed_of_checkModifier hcall
    rw [checkModifier_declaredAccess] at hcalls
    refine ⟨hs, fun n hm => ?_⟩
    rw [List.flatMap_cons, List.mem_append] at hm
    exact hm.elim (hn n) (hcalls n)

theorem modifiers_declaredAccess (calls : List Expression) :
    (calls.foldl (ns.checkModifier isPublic c) s).declaredAccess = s.declaredAccess := by
  induction calls generalizing s with
  | nil => rfl
  | cons call calls ih => exact ih.trans (checkModifier_declaredAccess call)

/-- Without an error the walk allows every node that the function's own contract gives it. -/
theorem allowed_of_walk (h : anyErrors (ns.walk func).diagnostics = false) :
    ∀ n ∈ ns.ownCode func, All (UpTo func.mutability.access) (n.updates func.isPublic) := by
  unfold walk at h
  unfold ownCode
  cases hc : func.contractNo with
  | none =>
    simp only [hc] at h
    obtain ⟨_, hbody⟩ := StateCheck.allowed_of_applyAll _ h
    intro n hn
    obtain ⟨s, hs, rfl⟩ := List.mem_map.mp hn
    exact Statement.all_recurses.mp hbody s hs
  | some c =>
    simp only [hc] at h
    obtain ⟨hmods, hbody⟩ := StateCheck.allowed_of_applyAll _ h
    obtain ⟨_, hmods⟩ := allowed_of_modifiers _ hmods
    rw [modifiers_declaredAccess] at hbody
    intro n hn
    obtain hn | hn := List.mem_append.mp hn
    · exact hmods n hn
    · obtain ⟨s, hs, rfl⟩ := List.mem_map.mp hn
      exact Statement.all_recurses.mp hbody s hs

/-- A node is under a sheltered operand, or the walk comes to it. -/
theorem allowed_or_sheltered {root n : Node} (hacc : acc ≤ .read)
    (hroot : All (UpTo acc) (root.updates isPublic)) (h : root.Within n) :
    All (UpTo acc) (n.updates isPublic) ∨ ∃ a, root.Within a ∧ ∃ b ∈ a.sheltered, b.Within n := by
  induction h with
  | refl => exact .inl hroot
  | tail hab hbc ih =>
    rename_i b c
    obtain hb | ⟨a, ha, s, hs, hsb⟩ := ih
    · obtain hopen | hshel := List.mem_append.mp hbc
      · rw [← Node.walked_eq_opens hacc hb] at hopen
        exact .inl (Node.all_walked hb c hopen)
      · exact .inr ⟨b, hab, c, hshel, .refl⟩
    · exact .inr ⟨a, ha, s, hs, hsb.tail hbc⟩

/-- A `view` or `pure` function that passes the check does nothing beyond that, in any
contract that has it, if and only if there is nothing where the check does not look. -/
theorem sound_iff_nothingConcealed (ns : Bodies) (target : Codegen.Encoding.Target)
    (func : FunctionBody) (contractNo : Nat)
    (hdecl : func.mutability = .view ∨ func.mutability = .pure)
    (hcheck : anyErrors (ns.checkMutability target func).1 = false) :
    ns.Sound contractNo func ↔ ns.NothingConcealed contractNo func := by
  constructor
  · intro hsound root hroot n hn _
    exact hsound root hroot n hn
  · intro hclear root hroot n hn
    by_cases hconcealed : ns.Concealed func root n
    · exact hclear root hroot n hn hconcealed
    have hacc : func.mutability.access ≤ .read := by
      obtain h | h := hdecl <;> rw [h] <;> decide
    unfold Concealed at hconcealed
    push Not at hconcealed
    obtain ⟨hvirtual, hmissed, hown, hsheltered⟩ := hconcealed
    unfold checkMutability at hcheck
    rw [if_neg (by simpa using hvirtual)] at hcheck
    have hwalk := (anyErrors_append.mp hcheck).1
    obtain hn' | ⟨a, ha, b, hb, hbn⟩ :=
      allowed_or_sheltered hacc (allowed_of_walk hwalk root hown) hn
    · exact Node.effect_le hacc hn' hmissed
    · exact absurd hbn (hsheltered a ha b hb)

/-! ### An index with an effect -/

def sampleDeclaration (id : String) (visibility : Visibility) (mutability : Mutability) :
    Declaration :=
  { id := id
    ty := .function
    contractNo := some 0
    visibility := visibility
    signature := id ++ "()"
    mangledName := id
    mangledNameContracts := []
    selector := none
    isVirtual := false
    isOverride := none
    hasBody := true
    mutability := mutability
    isAccessor := false
    params := []
    returns := []
    solanaAccounts := [] }

/-- `mem[index]` -/
def sampleTarget (index : Expression) : Expression :=
  .subscript .other .other (.variable .other 0) index

/-- `mem[index] = 1` -/
def sampleAssign (index : Expression) : Expression :=
  .assign .other (sampleTarget index) (.literal .other)

/-- `function f() public view { uint64[] memory mem = new uint64[](2); mem[index] = 1; }` -/
def sampleFunction (index : Expression) : FunctionBody :=
  { sampleDeclaration "f" .pub .view with
    modifiers := []
    body := [.variableDecl (some (.unary .other (.literal .other))),
      .expression (sampleAssign index)]
    hasPayerAnnotation := false
    hasSeedAnnotation := false }

/-- `function next() internal returns (uint64) { return count++; }` -/
def sampleNext : FunctionBody :=
  { sampleDeclaration "next" .internal .nonpayable with
    modifiers := []
    body := [.return (some (.incDec .other (.storageVariable (.storageRef false) 0)))]
    hasPayerAnnotation := false
    hasSeedAnnotation := false }

/-- `next()` -/
def sampleCall : Expression :=
  .internalFunctionCall .other .nonpayable (.internalFunction 1 none) []

def sampleBodies (index : Expression) : Bodies :=
  { functions := fun no => if no = 0 then sampleFunction index else sampleNext
    virtualFunction := fun _ _ => 0 }

/-- `mem[next()] = 1` in a `view` function is no error. -/
theorem not_sound_sample :
    (sampleFunction sampleCall).mutability = .view ∧
      anyErrors ((sampleBodies sampleCall).checkMutability .solana
        (sampleFunction sampleCall)).1 = false ∧
      ¬ (sampleBodies sampleCall).Sound 0 (sampleFunction sampleCall) := by
  refine ⟨rfl, by decide, fun h => ?_⟩
  have hroot : Node.stmt (.expression (sampleAssign sampleCall)) ∈
      (sampleBodies sampleCall).code 0 (sampleFunction sampleCall) := by
    simp [code, sampleFunction, Node.stmts]
  have hassign : Node.expr (sampleAssign sampleCall) ∈
      (Node.stmt (.expression (sampleAssign sampleCall))).children := by
    simp [Node.children, Node.opens]
  have htarget : Node.expr (sampleTarget sampleCall) ∈
      (Node.expr (sampleAssign sampleCall)).children := by
    simp [sampleAssign, Node.children, Node.sheltered, Node.exprs, Expression.sheltered]
  have hindex : Node.expr sampleCall ∈ (Node.expr (sampleTarget sampleCall)).children := by
    simp [sampleTarget, Node.children, Node.opens, Node.exprs, Expression.opens]
  have hcall := h _ hroot _ (((ReflTransGen.single hassign).tail htarget).tail hindex)
  exact absurd hcall (by decide)

/-- The nodes of `f` with a constant index -/
def sampleNodes : List Node :=
  [.stmt (.variableDecl (some (.unary .other (.literal .other)))),
    .expr (.unary .other (.literal .other)), .expr (.literal .other),
    .stmt (.expression (sampleAssign (.literal .other))),
    .expr (sampleAssign (.literal .other)), .expr (sampleTarget (.literal .other)),
    .expr (.variable .other 0)]

theorem mem_sampleNodes {root n : Node} (hroot : root ∈ sampleNodes) (h : root.Within n) :
    n ∈ sampleNodes := by
  have hclosed : ∀ a ∈ sampleNodes, ∀ b ∈ a.children, b ∈ sampleNodes := by
    simp [sampleNodes, sampleAssign, sampleTarget, Node.children, Node.opens, Node.sheltered,
      Node.exprs, Expression.opens, Expression.sheltered]
  induction h with
  | refl => exact hroot
  | tail _ hbc ih => exact hclosed _ ih _ hbc

theorem sound_sample :
    (sampleBodies (.literal .other)).Sound 0 (sampleFunction (.literal .other)) := by
  refine (sound_iff_nothingConcealed _ .solana _ 0 (.inl rfl) (by decide)).mpr ?_
  intro root hroot n hn _
  have hroot' : root ∈ sampleNodes := by
    simp only [code, sampleFunction, Node.stmts, List.flatMap_nil, List.nil_append, List.map_cons,
      List.map_nil, List.mem_cons, List.not_mem_nil, or_false] at hroot
    obtain rfl | rfl := hroot <;> simp [sampleNodes]
  have heffect : ∀ n ∈ sampleNodes, n.effect = .none := by
    simp [sampleNodes, sampleAssign, sampleTarget, Node.effect, Expression.effect,
      Expression.isState, Expression.ty, Ty.isContractStorage, Ty.isDynamicStorage,
      Expression.inAccount]
  rw [heffect n (mem_sampleNodes hroot' hn)]
  exact Nat.zero_le _

end Bodies

end Solang.Sema
