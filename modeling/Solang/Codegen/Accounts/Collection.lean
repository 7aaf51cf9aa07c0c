import Solang.Codegen.Cfg
import Solang.Lib.Bfs
import Solang.Sema.Contracts

/-!
# Collecting the accounts of functions

`codegen/solana_accounts/account_collection.rs`. The accounts that a function
needs come from its expressions, from the functions it calls and, under other
names, from the functions of other contracts that it calls. The collection visits
the functions of a contract, and then callers and callees, until a visit of all of
them adds no account.

What `check_instruction` does with an instruction does not depend on what has been
collected: it is a list of operations (`Op`) on the data of the traversal. The
errors about names that are declared twice are left out.
-/

namespace Solang.Codegen.Accounts

open Sema (SolanaAccount FunctionTy)

inductive ASTFunction where
  | solidityFunction (no : Nat)
  | yulFunction (no : Nat)
  | none
  deriving DecidableEq

/-- Most instructions only have their expressions looked at, in this order. A constructor
looks at `before` (its arguments, value, gas and salt) first. An external call that codegen
makes itself has no location in the source. -/
inductive Instr where
  | expressions (exprs : List Expression)
  | call (call : InternalCallTy) (args : List Expression)
  | constructor (contractNo : Nat) (constructorNo : Option Nat) (before : List Expression)
      (address seeds : Option Expression) (accounts : ExternalCallAccounts)
  | externalCall (inSource : Bool) (address : Option Expression) (accounts : ExternalCallAccounts)
      (payload value gas : Expression) (contractFunctionNo : Option (Nat × Nat))

structure Block where
  instr : List Instr
  successors : List Nat

structure Cfg where
  functionNo : ASTFunction
  blocks : List Block

/-- `allFunctions` has the functions and the number of their graph; a function of a contract
that is not compiled has none. -/
structure Contract where
  id : String
  allFunctions : List (Nat × Option Nat)
  cfg : List Cfg

/-- What the collection reads of a function -/
structure Function where
  name : String
  isPublic : Bool
  ty : FunctionTy
  hasPayerAnnotation : Bool

/-- `accountFromNumber` has the accounts whose address is known. -/
structure Program where
  contracts : List Contract
  functions : Nat → Function
  accountFromNumber : Int → Option String

namespace Program

variable (p : Program)

def contract (contractNo : Nat) : Contract := p.contracts.getD contractNo ⟨"", [], []⟩

def cfg (contractNo cfgNo : Nat) : Cfg := (p.contract contractNo).cfg.getD cfgNo ⟨.none, []⟩

end Program

/-! ## Accounts -/

/-- `IndexMap<String, SolanaAccount>` -/
structure AccountMap where
  entries : List (String × SolanaAccount)
  nodup : (entries.map (·.1)).Nodup

namespace AccountMap

def get (m : AccountMap) (name : String) : Option SolanaAccount := m.entries.lookup name

def replace (l : List (String × SolanaAccount)) (name : String) (a : SolanaAccount) :
    List (String × SolanaAccount) := l.map fun e => if e.1 = name then (name, a) else e

theorem map_fst_replace (l : List (String × SolanaAccount)) (name : String) (a : SolanaAccount) :
    (replace l name a).map (·.1) = l.map (·.1) := by
  unfold replace
  rw [List.map_map]
  refine List.map_congr_left fun e _ => ?_
  show (if e.1 = name then (name, a) else e).1 = e.1
  split
  next h => exact h.symm
  next => rfl

/-- An account that is there keeps its place. -/
def insert (m : AccountMap) (name : String) (a : SolanaAccount) : AccountMap :=
  if h : name ∈ m.entries.map (·.1) then
    { entries := replace m.entries name a
      nodup := by
        rw [map_fst_replace]
        exact m.nodup }
  else
    { entries := m.entries ++ [(name, a)]
      nodup := by
        rw [List.map_append, List.map_singleton]
        refine List.nodup_append.mpr ⟨m.nodup, List.nodup_singleton _, ?_⟩
        intro x hx y hy
        rw [List.mem_singleton] at hy
        subst hy
        intro hxy
        exact h (hxy ▸ hx) }

/-- `move_index` of this account to the front -/
def moveFirst (m : AccountMap) (name : String) : AccountMap where
  entries := m.entries.filter (·.1 = name) ++ m.entries.filter (·.1 ≠ name)
  nodup := by
    refine List.Perm.nodup_iff (List.Perm.map _ ?_) |>.mpr m.nodup
    simpa using List.filter_append_perm (fun e => decide (e.1 = name)) m.entries

end AccountMap

/-- `solana_accounts` of every function -/
abbrev AccountTable := Nat → AccountMap

def plain : SolanaAccount := { isSigner := false, isWriter := false, generated := true }

structure RecurseData where
  nextQueue : List (Nat × Option Nat)
  accountsAdded : Nat
  astNo : Nat
  accounts : AccountTable

namespace RecurseData

def addAccount (d : RecurseData) (name : String) (account : SolanaAccount) : RecurseData :=
  let old := (d.accounts d.astNo).get name
  { d with
    accounts := Function.update d.accounts d.astNo ((d.accounts d.astNo).insert name
      { isSigner := account.isSigner || (old.map (·.isSigner)).getD false
        isWriter := account.isWriter || (old.map (·.isWriter)).getD false
        generated := true })
    accountsAdded := if old.isNone then d.accountsAdded + 1 else d.accountsAdded }

def addAccounts (d : RecurseData) (l : List (String × SolanaAccount)) : RecurseData :=
  l.foldl (fun d e => d.addAccount e.1 e.2) d

def enqueue (d : RecurseData) (x : Nat × Option Nat) : RecurseData :=
  if x ∈ d.nextQueue then d else { d with nextQueue := d.nextQueue ++ [x] }

end RecurseData

/-! ## What an instruction needs -/

inductive Op where
  | add (name : String) (account : SolanaAccount)
  /-- The accounts of a function that is called inside the contract -/
  | merge (functionNo : Nat)
  /-- `transfer_accounts`, but for the queue -/
  | transfer (contractNo functionNo : Nat)
  | enqueue (x : Nat × Option Nat)

namespace Op

def system : Op := add "systemProgram" plain

def programId (contractName : String) : Op := add (contractName ++ "_programId") plain

end Op

/-- The account behind a builtin. The time and the block are `other 2`, `other 3` and
`other 4`, the verification of a signature is `other 5`. -/
def Builtin.account : Builtin → Option String
  | .other 2 | .other 3 | .other 4 => some "clock"
  | .other 5 => some "SysvarInstruction"
  | .ripemd160 | .keccak256 | .sha256 => some "systemProgram"
  | _ => none

mutual

/-- `expr.recurse(data, check_expression)` -/
def checkExpression : Expression → List Op
  | .unary _ e => checkExpression e
  | .binary _ left right => checkExpression left ++ checkExpression right
  | .nary (.builtin _ kind) args =>
    ((Builtin.account kind).map (Op.add · plain)).toList ++ checkExpressions args
  | .nary _ args => checkExpressions args
  | _ => []

def checkExpressions : List Expression → List Op
  | [] => []
  | e :: es => checkExpression e ++ checkExpressions es

end

namespace Program

variable (p : Program)

/-- `data.functions[..]` behind a graph -/
def mergeOps (contractNo cfgNo : Nat) : List Op :=
  match (p.cfg contractNo cfgNo).functionNo with
  | .solidityFunction astNo | .yulFunction astNo => [.merge astNo]
  | .none => []

/-- `transfer_accounts` in the function `self` -/
def transferOps (self : Nat × Option Nat) (contractNo functionNo : Nat) : List Op :=
  [.transfer contractNo functionNo,
    .enqueue (contractNo, ((p.contract contractNo).allFunctions.lookup functionNo).join),
    .enqueue self]

/-- The accounts of a new contract when the call does not give them -/
def newContractOps (self : Nat × Option Nat) (contractNo : Nat) : Option Nat → List Op
  | some constructorNo => p.transferOps self contractNo constructorNo
  | none =>
    [.add ((p.contract contractNo).id ++ "_dataAccount")
      { isSigner := false, isWriter := true, generated := true }]

def constructorAccounts (self : Nat × Option Nat) (contractNo : Nat) (constructorNo : Option Nat) :
    ExternalCallAccounts → List Op
  | .present accounts => checkExpression accounts
  | _ => p.newContractOps self contractNo constructorNo

def isNumberLiteral : Expression → Option Int
  | .numberLiteral _ value => some value
  | _ => none

/-- `check_instruction` in the function with the number `self` -/
def checkInstruction (contractNo cfgNo : Nat) : Instr → List Op
  | .expressions exprs => checkExpressions exprs
  | .call call args =>
    (match call with
      | .static callee =>
        [.enqueue (contractNo, some callee), .enqueue (contractNo, some cfgNo)] ++
          p.mergeOps contractNo callee
      | .builtin astFuncNo =>
        if (p.functions astFuncNo).name = "create_program_address" then [Op.system] else []
      | _ => []) ++ checkExpressions args
  | .constructor newNo constructorNo before address seeds accounts =>
    checkExpressions before ++
      (address.elim [] fun address =>
        (if (isNumberLiteral address).isSome then [Op.programId (p.contract newNo).id] else []) ++
          checkExpression address) ++
      (seeds.elim [] checkExpression) ++
      p.constructorAccounts (contractNo, some cfgNo) newNo constructorNo accounts ++ [Op.system]
  | .externalCall inSource address accounts payload value gas contractFunctionNo =>
    if !inSource then []
    else
      let known := (address.bind isNumberLiteral).bind p.accountFromNumber
      let shouldAddProgramId := (address.bind isNumberLiteral).isSome && known.isNone
      (address.elim [] fun address =>
        checkExpression address ++ (known.map (Op.add · plain)).toList) ++
      checkExpressions [payload, value, gas] ++ [Op.system] ++
      (match accounts with
        | .present accounts => checkExpression accounts
        | _ => []) ++
      (contractFunctionNo.elim [] fun (calleeContract, functionNo) =>
        (if shouldAddProgramId then [Op.programId (p.contract calleeContract).id] else []) ++
          match accounts with
          | .absentArgument => p.transferOps (contractNo, some cfgNo) calleeContract functionNo
          | _ => [])

end Program

/-! ## Functions -/

def Cfg.block (cfg : Cfg) (b : Nat) : Block := cfg.blocks.getD b ⟨[], []⟩

/-- The blocks in the order of the traversal -/
def Cfg.order (cfg : Cfg) : List Nat :=
  if cfg.blocks.isEmpty then []
  else
    Bfs.run (fun b => (cfg.block b).successors)
      (1 + ∑ b ∈ Finset.range cfg.blocks.length, (cfg.block b).successors.length) [0] [0]

namespace Program

variable (p : Program)

/-- `check_function` -/
def checkFunction (contractNo cfgNo : Nat) : List Op :=
  (p.cfg contractNo cfgNo).order.flatMap fun b =>
    ((p.cfg contractNo cfgNo).block b).instr.flatMap (p.checkInstruction contractNo cfgNo)

end Program

/-! ## The collection -/

namespace RecurseData

variable (p : Program)

def exec (d : RecurseData) : Op → RecurseData
  | .add name account => d.addAccount name account
  | .merge functionNo => d.addAccounts (d.accounts functionNo).entries
  | .transfer contractNo functionNo =>
    (d.accounts functionNo).entries.foldl (fun d e =>
      if e.1 = "dataAccount" then
        let idlName := (p.contract contractNo).id ++ "_dataAccount"
        if ((d.accounts d.astNo).get idlName).isSome then d else d.addAccount idlName e.2
      else d.addAccount e.1 e.2) d
  | .enqueue x => d.enqueue x

def execAll (d : RecurseData) (ops : List Op) : RecurseData := ops.foldl (exec p) d

/-- One round of the loop over the queue. A graph that belongs to no function leaves `ast_no`
as it was. -/
def visit (d : RecurseData) : Nat × Option Nat → RecurseData
  | (_, none) => d
  | (contractNo, some cfgNo) =>
    let d :=
      match (p.cfg contractNo cfgNo).functionNo with
      | .solidityFunction astNo | .yulFunction astNo => { d with astNo := astNo }
      | .none => d
    d.execAll p (p.checkFunction contractNo cfgNo)

def pass (d : RecurseData) (queue : List (Nat × Option Nat)) : RecurseData :=
  queue.foldl (visit p) d

/-- The loop, from the queue to visit and the number of accounts after the last pass -/
def loop : Nat → List (Nat × Option Nat) → Nat → RecurseData → Option RecurseData
  | 0, _, _, _ => none
  | fuel + 1, queue, oldSize, d =>
    let d := d.pass p queue
    if oldSize = d.accountsAdded ∧ queue.length = d.nextQueue.length then some d
    else loop fuel d.nextQueue d.accountsAdded { d with nextQueue := [] }

end RecurseData

namespace Program

variable (p : Program)

/-- What happens to a function's accounts before the first pass: the data account comes first,
and a constructor with a payer gets the system program. -/
def prepare (functionNo : Nat) (m : AccountMap) : AccountMap :=
  let f := p.functions functionNo
  if f.isPublic && !(f.ty == .fallback || f.ty == .receive || f.ty == .modifier) then
    let m := m.moveFirst "dataAccount"
    if f.ty == .constructor && f.hasPayerAnnotation then m.insert "systemProgram" plain else m
  else m

def initial (contractNo : Nat) (accounts : AccountTable) : RecurseData where
  nextQueue := []
  accountsAdded := 0
  astNo := 0
  accounts := fun no =>
    if ((p.contract contractNo).allFunctions.map (·.1)).contains no then p.prepare no (accounts no)
    else accounts no

/-- The functions of the contract; a graph stands in the queue once. -/
def firstQueue (contractNo : Nat) : List (Nat × Option Nat) :=
  ((p.contract contractNo).allFunctions.map fun e => (contractNo, e.2)).eraseDups

/-- `collect_accounts_from_contract` -/
def collectAccountsFromContract (contractNo : Nat) (accounts : AccountTable) (fuel : Nat) :
    Option RecurseData :=
  (p.initial contractNo accounts).loop p fuel (p.firstQueue contractNo) 0

end Program

end Solang.Codegen.Accounts
