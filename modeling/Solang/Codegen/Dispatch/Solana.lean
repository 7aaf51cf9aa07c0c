import Solang.Codegen.Dispatch.Polkadot
import Solang.Sema.DataAccount

/-!
# The Solana dispatcher

`codegen/dispatch/solana.rs` and `codegen/solana_deploy.rs`: the code that a
program runs for one instruction. It has no loops, so it is the tree of its
paths (`Code`): a block stands where it is branched to. The code of `abi_decode`,
of `abi_encode` and of the creation of the account is one `Instruction` each.
-/

namespace Solang.Codegen.Solana

open Sema (FunctionTy Bodies)
open Encoding (AbiType)

inductive Instruction where
  | instr (i : Instr)
  | abiDecode (res : List Nat) (buffer : Expression) (types : List AbiType) (size : Expression)
  | abiEncode (data dataLen : Nat) (args : List Expression)
  /-- The block `create_account` with a payer: the expressions of the annotations, the check
  of the space and the call of the system program -/
  | createAccount

mutual

inductive Code where
  | instr (i : Instruction) (next : Code)
  | branchCond (cond : Expression) (ifTrue ifFalse : Code)
  | switch (cond : Expression) (cases : Cases)
  | returnCode (code : ReturnCode)
  | returnData (data dataLen : Expression)

inductive Cases where
  | default (code : Code)
  | case (value : Expression) (code : Code) (rest : Cases)

end

def Code.add (i : Instr) (next : Code) : Code := .instr (.instr i) next

def Code.addAll : List Instr → Code → Code
  | [], next => next
  | i :: is, next => .add i (Code.addAll is next)

/-- What the dispatcher reads of the `ControlFlowGraph` of a function. `functionNo` is there
for a Solidity function, `modifier` for the function behind a dispatch of modifiers. For a
constructor, `arguments` are the variables of its symbol table and `payer` says whether it has
the annotation. -/
structure FunctionCfg extends Polkadot.FunctionCfg where
  functionNo : Option Nat
  modifier : Option Nat
  arguments : List (Option Nat)
  payer : Bool

/-- The function that a graph belongs to -/
def FunctionCfg.astNo (cfg : FunctionCfg) : Option Nat := cfg.functionNo.or cfg.modifier

/-- A function or the fallback, as opposed to a constructor -/
def FunctionCfg.isEntry (cfg : FunctionCfg) : Bool :=
  cfg.isPublic && (cfg.ty == .function || cfg.ty == .fallback)

/-- A contract after its functions have been compiled. What is dispatched is a function of the
namespace, and the storage initializer is not public. -/
structure Contract where
  ns : Bodies
  contractNo : Nat
  allCfg : List FunctionCfg
  initializer : Nat
  selector : Nat
  programId : Option (List UInt8)
  fixedLayoutSize : Nat
  selector_lt : selector < 2 ^ 32
  dispatched : ∀ cfg ∈ allCfg, cfg.isEntry = true → cfg.astNo.isSome = true
  fallback_function : ∀ cfg ∈ allCfg, cfg.isPublic = true → cfg.ty = .fallback →
    cfg.functionNo.isSome = true
  initializer_private : ∀ cfg, allCfg[initializer]? = some cfg → cfg.isPublic = false

namespace Contract

variable (c : Contract)

/-- The variables of the dispatcher: the first ones of the `Vartable` -/
def argsdataVar : Nat := 0
def argslenVar : Nat := 1

/-- The first of the variables of a case; each case has variables of its own, and no case
reads those of another. -/
def temp : Nat := 2

def solParams (ty : Ty) (member : Nat) : Expression :=
  .unary (.load ty)
    (.unary (.structMember (.ref ty) member) (.functionArg (.struct .solParameters) 0))

def argslen : Expression := .variable (.uint 64) argslenVar

def uint32 (n : Nat) : Expression := .numberLiteral (.uint 32) n

def uint64 (n : Nat) : Expression := .numberLiteral (.uint 64) n

/-- The input behind the selector and its length -/
def arguments : Expression :=
  .binary .advancePointer (.variable .bufferPointer argsdataVar) (uint32 8)

def argumentsLen : Expression :=
  .unary (.trunc (.uint 32)) (.binary (.subtract (.uint 64) false) argslen (uint64 8))

def checkMagic (magicValue var : Nat) (ok : Code) : Code :=
  .add (.loadStorage var (.uint 32) (uint32 0))
    (.branchCond (.binary .equal (.variable (.uint 32) var) (uint32 magicValue)) ok
      (.returnCode .invalidDataError))

/-- `ns.functions[no].solana_accounts` has the data account. The accounts that a user declares
have other names. -/
def hasDataAccount (no : Nat) : Bool :=
  (c.ns.checkMutability .solana (c.ns.functions no)).2.isSome

def checkDataAccount (no : Option Nat) (ok : Code) : Code :=
  if no.any c.hasDataAccount then checkMagic c.selector temp ok else ok

/-! ## Functions -/

def vars (v n : Nat) : List Nat := (List.range n).map (v + ·)

def returnNothing : Code :=
  .returnData (.unary (.allocDynamicBytes .dynamicBytes none) (uint32 0)) (uint64 0)

/-- The code behind the call of a function with the results `res` -/
def returnResults (cfg : FunctionCfg) (res : List Nat) (v : Nat) : Code :=
  if cfg.returns.isEmpty then returnNothing
  else
    .instr (.abiEncode v (v + 1) (cfg.returns.zipWith (fun ty r => .variable ty r) res))
      (.returnData (.variable .dynamicBytes v)
        (.unary (.zeroExt (.uint 64)) (.variable (.uint 32) (v + 1))))

/-- `add_function_dispatch_case` -/
def functionCase (cfgNo : Nat) (cfg : FunctionCfg) : Code :=
  let decoded := vars (temp + 1) cfg.params.length
  let res := vars (temp + 1 + cfg.params.length) cfg.returns.length
  c.checkDataAccount cfg.astNo
    (.instr (.abiDecode decoded arguments (cfg.params.map (·.abiTy)) argumentsLen)
      (.add (.call res cfg.returns (.static cfgNo)
          (cfg.params.zipWith (fun p v => .variable p.ty v) decoded))
        (returnResults cfg res (temp + 1 + cfg.params.length + cfg.returns.length))))

/-! ## Constructors -/

/-- `tx.accounts[0].data.length` -/
def accountLength : Expression :=
  .nary (.builtin [.uint 32] .arrayLength)
    [.unary (.load (.slice (.bytes 1)))
      (.unary (.structMember (.ref (.slice (.bytes 1))) 2)
        (.binary (.subscript (.struct .accountInfo)
            (.array (.struct .accountInfo) [.dynamic]))
          (.nary (.builtin [.array (.struct .accountInfo) [.dynamic]] (.other 0)) [])
          (uint32 0)))]

/-- `address(this)` -/
def programAddress : Expression :=
  .unary (.load (.address false)) (.nary (.builtin [.ref (.address false)] (.other 1)) [])

def bigEndian (bytes : List UInt8) : Nat := Encoding.littleEndian bytes.reverse

/-- The block `account_ok`: the magic word at offset 0 and the offset of the heap at 12 -/
def accountOk (ok : Code) : Code :=
  .add (.setStorage (.uint 32) (uint64 c.selector) (uint64 0))
    (.add (.setStorage (.uint 32) (uint64 ((c.fixedLayoutSize + 7) / 8 * 8)) (uint64 12)) ok)

/-- The block `create_account`: the arguments are copied into the variables that the
annotations know. -/
def createAccount (cfg : FunctionCfg) (args : List Expression) (ok : Code) : Code :=
  Code.addAll
    ((cfg.arguments.zip args).filterMap fun (arg, e) => arg.map fun var => Instr.set var e)
    (if cfg.payer then .instr .createAccount (c.accountOk ok)
    else .returnCode .accountDataTooSmall)

/-- The block `account_exists` -/
def accountExists (v : Nat) (ok : Code) : Code :=
  .branchCond (.binary (.moreEqual false) (.variable (.uint 32) v) (uint32 c.fixedLayoutSize))
    (c.accountOk ok) (.returnCode .accountDataTooSmall)

/-- `solana_deploy`; `base58` is the text of the program id. -/
def solanaDeploy (base58 : List UInt8 → String) (cfg : FunctionCfg) (args : List Expression)
    (v : Nat) (ok : Code) : Code :=
  let idOk : Code :=
    .add (.set v accountLength)
      (.branchCond (.binary .equal (.variable (.uint 32) v) (uint32 0))
        (c.createAccount cfg args ok) (c.accountExists v ok))
  match c.programId with
  | none => idOk
  | some id =>
    .branchCond (.binary .equal (.numberLiteral (.address false) (bigEndian id)) programAddress)
      idOk
      (.add (.print (Polkadot.stringToExpr ("program_id should be " ++ base58 id)))
        (.returnCode .invalidProgramId))

/-- `add_constructor_dispatch_case` -/
def constructorCase (base58 : List UInt8 → String) (cfgNo : Nat) (cfg : FunctionCfg) : Code :=
  let decoded := vars (temp + 1) cfg.params.length
  let args := cfg.params.zipWith (fun p v => Expression.variable p.ty v) decoded
  let deploy :=
    c.solanaDeploy base58 cfg args (temp + 1 + cfg.params.length)
      (.add (.call [] [] (.static c.initializer) [])
        (.add (.call [] [] (.static cfgNo) args) (.returnCode .success)))
  checkMagic 0 temp
    (if cfg.params.isEmpty then deploy
    else .instr (.abiDecode decoded arguments (cfg.params.map (·.abiTy)) argumentsLen) deploy)

/-! ## The dispatch -/

/-- The cases of the functions from number `cfgNo` on -/
def cases (base58 : List UInt8 → String) (noFunctionMatched : Code) :
    Nat → List FunctionCfg → Cases
  | _, [] => .default noFunctionMatched
  | cfgNo, cfg :: rest =>
    let literal := uint64 (Encoding.littleEndian cfg.selector)
    if !cfg.isPublic then cases base58 noFunctionMatched (cfgNo + 1) rest
    else
      match cfg.ty with
      | .function =>
        .case literal (c.functionCase cfgNo cfg) (cases base58 noFunctionMatched (cfgNo + 1) rest)
      | .constructor =>
        .case literal (c.constructorCase base58 cfgNo cfg)
          (cases base58 noFunctionMatched (cfgNo + 1) rest)
      | _ => cases base58 noFunctionMatched (cfgNo + 1) rest

/-- The number of the first public fallback among the functions -/
def fallbackNo : Option Nat :=
  c.allCfg.findIdx? fun cfg => cfg.isPublic && cfg.ty == .fallback

/-- The block `no_function_matched` -/
def noFunctionMatched : Code :=
  match c.fallbackNo with
  | none => .returnCode .functionSelectorInvalid
  | some cfgNo =>
    c.checkDataAccount (c.allCfg[cfgNo]?.bind (·.functionNo))
      (.add (.call [] [] (.static cfgNo) []) (.returnCode .success))

def functionDispatch (base58 : List UInt8 → String) : Code :=
  .add (.set argsdataVar (solParams .bufferPointer 2))
    (.add (.set argslenVar (solParams (.uint 64) 3))
      (.branchCond (.binary (.moreEqual false) argslen (uint64 8))
        (.switch
          (.nary (.builtin [.uint 64] .readFromBuffer)
            [.variable .bufferPointer argsdataVar, uint64 0])
          (c.cases base58 c.noFunctionMatched 0 c.allCfg))
        c.noFunctionMatched))

end Contract

end Solang.Codegen.Solana
