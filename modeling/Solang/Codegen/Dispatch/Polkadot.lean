import Solang.Codegen.Cfg
import Solang.Codegen.Encoding.Decode
import Solang.Sema.Contracts

/-!
# The Polkadot dispatcher

`codegen/dispatch/polkadot.rs`: the code behind the exported `call` and
`deploy`. The code `abi_decode` and `abi_encode` insert is one `Instruction`
each: it has one way in, and it leaves by aborting or behind its last
instruction.
-/

namespace Solang.Codegen.Polkadot

open Encoding (AbiType Target)
open Sema (FunctionTy)

/-- `abiTy` is `ty` with the declarations it names inlined. -/
structure Parameter where
  ty : Ty
  abiTy : AbiType

/-- What the dispatcher reads of the `ControlFlowGraph` of a function. -/
structure FunctionCfg where
  name : String
  ty : FunctionTy
  isPublic : Bool
  nonpayable : Bool
  selector : List UInt8
  params : List Parameter
  returns : List Ty

inductive Instruction where
  | instr (i : Instr)
  | abiDecode (res : List Nat) (buffer : Expression) (types : List AbiType) (size : Expression)
  | abiEncode (data dataLen : Nat) (args : List Expression)

/-! ## The control flow graph under construction -/

/-- The blocks, the block that instructions go to, and the next variable of the `Vartable`. -/
structure Builder where
  blocks : List (List Instruction)
  current : Nat
  nextId : Nat

namespace Builder

def newBasicBlock (b : Builder) : Nat × Builder :=
  (b.blocks.length, { b with blocks := b.blocks ++ [[]] })

def setBasicBlock (b : Builder) (n : Nat) : Builder := { b with current := n }

def addInstruction (b : Builder) (i : Instruction) : Builder :=
  { b with blocks := b.blocks.modify b.current (· ++ [i]) }

def add (b : Builder) (i : Instr) : Builder := b.addInstruction (.instr i)

/-- `n` variables of `vartab.temp_anonymous` or `temp_name` -/
def temps (b : Builder) (n : Nat) : List Nat × Builder :=
  ((List.range n).map (b.nextId + ·), { b with nextId := b.nextId + n })

end Builder

/-- `string_to_expr` of `error_msg_with_loc` at a location in generated code -/
def stringToExpr (s : String) : Expression :=
  let value := s.toUTF8.toList
  .nary .formatString [.bytesLiteral (.bytes (value.length % 256)) value]

def logRuntimeError (reportError : Bool) (reason : String) (b : Builder) : Builder :=
  if reportError then b.add (.print (stringToExpr (reason ++ ",\n"))) else b

/-! ## The dispatch -/

/-- The parts of `Dispatch` that do not change while the code is built. -/
structure Dispatch where
  ns : Encoding.Namespace
  logRuntimeErrors : Bool
  allCfg : List FunctionCfg
  ty : FunctionTy

namespace Dispatch

/-- The variables of `Dispatch::new`: the first ones of the `Vartable`. -/
def inputLenVar : Nat := 0
def valueVar : Nat := 1
def inputPtrVar : Nat := 2

def valueType (d : Dispatch) : Ty := .uint (8 * d.ns.valueLength)

def selectorTy (d : Dispatch) : Ty := .uint (8 * d.ns.target.selectorLength)

def selectorLen (d : Dispatch) : Expression := .numberLiteral (.uint 32) d.ns.target.selectorLength

def inputLen : Expression := .variable (.uint 32) inputLenVar

def inputPtr (d : Dispatch) : Expression :=
  .binary .advancePointer (.variable .bufferPointer inputPtrVar) d.selectorLen

/-- Whether value was transferred. -/
def gotValue (d : Dispatch) : Expression :=
  .binary (.more false) (.variable d.valueType valueVar) (.numberLiteral d.valueType 0)

/-- The block `start_dispatch` of `Dispatch::new` is the second one. -/
def start : Nat := 1

def new (d : Dispatch) : Builder where
  blocks :=
    [[.instr (.set inputLenVar (.functionArg (.uint 32) 1)),
      .instr (.set valueVar (.functionArg d.valueType 2)),
      .instr (.set inputPtrVar (.functionArg .bufferPointer 0))],
     []]
  current := 0
  nextId := 3

/-- The empty data the dispatcher returns for functions without return values. -/
def returnNothing : Instr :=
  let dataLen := .numberLiteral (.uint 32) 0
  .returnData (.unary (.allocDynamicBytes .dynamicBytes none) dataLen) dataLen

def selectorInvalid : Instr := .returnCode .functionSelectorInvalid

def abortIfValueTransfer (d : Dispatch) (cfg : FunctionCfg) (b : Builder) : Builder :=
  if !cfg.nonpayable then b
  else
    let (trueBlock, b) := b.newBasicBlock
    let (falseBlock, b) := b.newBasicBlock
    let b := b.add (.branchCond d.gotValue trueBlock falseBlock)
    let b := b.setBasicBlock trueBlock
    let functionName := (cfg.name.splitOn "::").getLastD ""
    let b := logRuntimeError d.logRuntimeErrors
      ("runtime_error: non payable " ++ cfg.ty.asStr ++ " " ++ functionName ++ " received value") b
    let b := b.add (.assertFailure none)
    b.setBasicBlock falseBlock

/-- The arguments of the call and the code that decodes them. -/
def decodeArguments (d : Dispatch) (cfg : FunctionCfg) (b : Builder) : List Expression × Builder :=
  if cfg.params.isEmpty then ([], b)
  else
    let argLen := .binary (.subtract (.uint 32) false) inputLen d.selectorLen
    let (res, b) := b.temps cfg.params.length
    (cfg.params.zipWith (fun p v => .variable p.ty v) res,
      b.addInstruction
        (.abiDecode res d.inputPtr (cfg.params.map (·.abiTy)) (.unary (.trunc (.uint 32)) argLen)))

/-- The block of the case and the code with it. -/
def dispatchCase (d : Dispatch) (funcNo : Nat) (cfg : FunctionCfg) (b : Builder) :
    Nat × Builder :=
  let (caseBb, b) := b.newBasicBlock
  let b := b.setBasicBlock caseBb
  let b := d.abortIfValueTransfer cfg b
  let (args, b) := d.decodeArguments cfg b
  let (returns, b) := b.temps cfg.returns.length
  let returnsExpr := cfg.returns.zipWith (fun ty v => Expression.variable ty v) returns
  let b := b.add (.call returns cfg.returns (.static funcNo) args)
  if cfg.returns.isEmpty then (caseBb, b.add returnNothing)
  else
    let data := b.nextId
    let dataLen := b.nextId + 1
    let b := (b.temps 2).2
    let b := b.addInstruction (.abiEncode data dataLen returnsExpr)
    (caseBb, b.add (.returnData (.variable .dynamicBytes data) (.variable (.uint 32) dataLen)))

/-- `BigInt::from_bytes_le` of the selector -/
def selectorLiteral (d : Dispatch) (cfg : FunctionCfg) : Expression :=
  .numberLiteral d.selectorTy (Encoding.littleEndian cfg.selector)

/-- The cases of the functions from number `funcNo` on. -/
def dispatchCases (d : Dispatch) : Nat → List FunctionCfg → Builder →
    List (Expression × Nat) × Builder
  | _, [], b => ([], b)
  | funcNo, cfg :: rest, b =>
    if cfg.ty = d.ty ∧ cfg.isPublic then
      let (bb, b) := d.dispatchCase funcNo cfg b
      let (cases, b) := d.dispatchCases (funcNo + 1) rest b
      ((d.selectorLiteral cfg, bb) :: cases, b)
    else d.dispatchCases (funcNo + 1) rest b

/-- The last public function of a kind, among the functions from number `no` on. -/
def lastPublic (ty : FunctionTy) : Nat → List FunctionCfg → Option Nat → Option Nat
  | _, [], found => found
  | no, cfg :: rest, found =>
    lastPublic ty (no + 1) rest (if cfg.ty = ty ∧ cfg.isPublic then some no else found)

def fallbackCfg (d : Dispatch) : Option Nat := lastPublic .fallback 0 d.allCfg none

def receiveCfg (d : Dispatch) : Option Nat := lastPublic .receive 0 d.allCfg none

/-- The call of `fallback` or `receive`, when there is such a function. -/
def callOrInvalid (cfgNo : Option Nat) (b : Builder) : Builder :=
  match cfgNo with
  | some cfgNo => (b.add (.call [] [] (.static cfgNo) [])).add returnNothing
  | none => b.add selectorInvalid

def fallbackOrReceive (d : Dispatch) (b : Builder) : Builder :=
  if (d.fallbackCfg.isNone ∧ d.receiveCfg.isNone) ∨ d.ty = .constructor then
    b.add selectorInvalid
  else
    let (fallbackBlock, b) := b.newBasicBlock
    let (receiveBlock, b) := b.newBasicBlock
    let b := b.add (.branchCond d.gotValue receiveBlock fallbackBlock)
    let b := callOrInvalid d.fallbackCfg (b.setBasicBlock fallbackBlock)
    callOrInvalid d.receiveCfg (b.setBasicBlock receiveBlock)

def build (d : Dispatch) : List (List Instruction) :=
  let b := d.new
  let (default, b) := b.newBasicBlock
  let b := b.add (.branchCond (.binary (.less false) inputLen d.selectorLen) default start)
  let (cases, b) := d.dispatchCases 0 d.allCfg b
  let b := b.setBasicBlock start
  let selectorVar := b.nextId
  let b := (b.temps 1).2
  let b := b.add (.set selectorVar
    (.nary (.builtin [d.selectorTy] .readFromBuffer)
      [.functionArg .bufferPointer 0, .numberLiteral d.selectorTy 0]))
  let selector := .variable d.selectorTy selectorVar
  let b := b.add (.store (.functionArg d.selectorTy 3) selector)
  let b := b.add (.switch selector cases default)
  (d.fallbackOrReceive (b.setBasicBlock default)).blocks

end Dispatch

inductive DispatchType where
  | deploy
  | call
  deriving DecidableEq, Repr

/-- The functions this dispatcher has cases for. -/
def DispatchType.functionTy : DispatchType → FunctionTy
  | deploy => .constructor
  | call => .function

/-- `function_dispatch`: the code of `deploy` and the code of `call` -/
def functionDispatch (ns : Encoding.Namespace) (logRuntimeErrors : Bool)
    (allCfg : List FunctionCfg) : List (List (List Instruction)) :=
  [DispatchType.deploy, .call].map fun k =>
    Dispatch.build ⟨ns, logRuntimeErrors, allCfg, k.functionTy⟩

end Solang.Codegen.Polkadot

/-!
## Runs of the Polkadot dispatcher

One run is a call of the contract with some input and some value. The functions
of the contract and the code of `abi_encode` are arbitrary (`Machine`): the
run is observed through the functions it enters and the way it ends.
-/

namespace Solang.Codegen.Polkadot

open Encoding (Buffer littleEndian)

/-- A `pointer` is an offset into the input. -/
inductive Word where
  | number (n : Nat)
  | bool (b : Bool)
  | pointer (offset : Nat)
  | bytes (data : List UInt8)
  | decoded (v : Encoding.Value)

/-- The outcome `none` of a function or of encoding ends the run; a function that returns
gives its results by their number. -/
structure Machine where
  ns : Encoding.Namespace
  input : Buffer
  value : Nat
  callee : Nat → List Word → Option (Nat → Word)
  encode : List Word → Option (Word × Word)

inductive Ending where
  | aborted
  | calleeFailed
  | returnedData (data dataLen : Word)
  | returnedCode (code : ReturnCode)

inductive Position where
  | at (block instr : Nat)
  | done (e : Ending)

/-- `selector` is the cell behind the last argument of the dispatcher; `entered` has the
functions called and their arguments. -/
structure State where
  pos : Position
  vars : Nat → Option Word
  selector : Option Word
  entered : List (Nat × List Word)

namespace State

def next (s : State) : State :=
  match s.pos with
  | .at b k => { s with pos := .at b (k + 1) }
  | .done _ => s

def goto (s : State) (b : Nat) : State := { s with pos := .at b 0 }

def stop (s : State) (e : Ending) : State := { s with pos := .done e }

def set (s : State) (v : Nat) (w : Word) : State :=
  { s with vars := Function.update s.vars v (some w) }

def setAll (s : State) (vs : List Nat) (ws : List Word) : State :=
  (vs.zip ws).foldl (fun s p => s.set p.1 p.2) s

end State

def byteSize : Ty → Nat
  | .uint bits => bits / 8
  | _ => 0

/-- The bytes of the input behind the selector. -/
def Machine.arguments (m : Machine) (offset size : Nat) (h : size < 2 ^ 32) : Buffer where
  length := size
  length_lt := h
  byte i := m.input.byte (offset + i)

/-- The arguments of the dispatcher; the last one is a pointer to the selector, which is
only stored to. -/
def Machine.arg (m : Machine) : Nat → Option Word
  | 0 => some (.pointer 0)
  | 1 => some (.number m.input.length)
  | 2 => some (.number m.value)
  | _ => none

/-- The expressions of the dispatcher; `none` when the checked arithmetic aborts. -/
def eval (m : Machine) (vars : Nat → Option Word) : Expression → Option Word
  | .numberLiteral _ value => some (.number value.toNat)
  | .functionArg _ argNo => m.arg argNo
  | .variable _ varNo => vars varNo
  | .unary (.trunc ty) e =>
    match eval m vars e with
    | some (.number n) => some (.number (n % 2 ^ (8 * byteSize ty)))
    | _ => none
  | .unary (.allocDynamicBytes _ none) size =>
    match eval m vars size with
    | some (.number n) => some (.bytes (List.replicate n 0))
    | _ => none
  | .binary op left right =>
    match op, eval m vars left, eval m vars right with
    | .less false, some (.number a), some (.number b) => some (.bool (a < b))
    | .more false, some (.number a), some (.number b) => some (.bool (a > b))
    | .subtract _ false, some (.number a), some (.number b) =>
      if b ≤ a then some (.number (a - b)) else none
    | .advancePointer, some (.pointer a), some (.number b) => some (.pointer (a + b))
    | _, _, _ => none
  | .nary (.builtin [ty] .readFromBuffer) [pointer, offset] =>
    match eval m vars pointer, eval m vars offset with
    | some (.pointer a), some (.number b) =>
      some (.number (littleEndian (m.input.slice (a + b) (byteSize ty))))
    | _, _ => none
  | _ => none

def evalAll (m : Machine) (vars : Nat → Option Word) (es : List Expression) :
    Option (List Word) := es.mapM (eval m vars)

/-- The code of `abi_decode`: the decoded values, `none` when it aborts. -/
def decode (m : Machine) (types : List Encoding.AbiType) : Option Word → Option Word →
    Option (List Word)
  | some (.pointer offset), some (.number size) =>
    if h : size < 2 ^ 32 then
      (Encoding.abiDecode m.ns types (m.arguments offset size h)).result.map fun r =>
        r.1.map .decoded
    else none
  | _, _ => none

/-- The block a `Switch` continues with. -/
def switchTarget (m : Machine) (vars : Nat → Option Word) (n : Nat) :
    List (Expression × Nat) → Nat → Nat
  | [], default => default
  | (e, block) :: rest, default =>
    match eval m vars e with
    | some (.number k) => if k = n then block else switchTarget m vars n rest default
    | _ => switchTarget m vars n rest default

def execInstr (m : Machine) (s : State) : Instr → Option State
  | .set res e =>
    match eval m s.vars e with
    | some w => some (s.set res w).next
    | none => some (s.stop .aborted)
  | .print _ => some s.next
  | .store (.functionArg _ 3) data =>
    match eval m s.vars data with
    | some w => some { s with selector := some w }.next
    | none => some (s.stop .aborted)
  | .branchCond cond trueBlock falseBlock =>
    match eval m s.vars cond with
    | some (.bool b) => some (s.goto (if b then trueBlock else falseBlock))
    | _ => none
  | .switch cond cases default =>
    match eval m s.vars cond with
    | some (.number n) => some (s.goto (switchTarget m s.vars n cases default))
    | _ => none
  | .call res _ (.static cfgNo) args =>
    match evalAll m s.vars args with
    | none => none
    | some ws =>
      let s := { s with entered := s.entered ++ [(cfgNo, ws)] }
      match m.callee cfgNo ws with
      | some results => some (s.setAll res ((List.range res.length).map results)).next
      | none => some (s.stop .calleeFailed)
  | .returnData data dataLen =>
    match eval m s.vars data, eval m s.vars dataLen with
    | some x, some n => some (s.stop (.returnedData x n))
    | _, _ => none
  | .returnCode code => some (s.stop (.returnedCode code))
  | .assertFailure none => some (s.stop .aborted)
  | _ => none

def exec (m : Machine) (s : State) : Instruction → Option State
  | .instr i => execInstr m s i
  | .abiDecode res buffer types size =>
    match decode m types (eval m s.vars buffer) (eval m s.vars size) with
    | some ws => some (s.setAll res ws).next
    | none => some (s.stop .aborted)
  | .abiEncode data dataLen args =>
    match evalAll m s.vars args with
    | none => none
    | some ws =>
      match m.encode ws with
      | some (x, n) => some ((s.set data x).set dataLen n).next
      | none => some (s.stop .aborted)

/-- One instruction; `none` when the run is over. -/
def step (code : List (List Instruction)) (m : Machine) (s : State) : Option State :=
  match s.pos with
  | .done _ => none
  | .at b k => ((code[b]?).bind (·[k]?)).bind (exec m s)

/-- The state in which the dispatcher is entered. -/
def initial : State where
  pos := .at 0 0
  vars _ := none
  selector := none
  entered := []

/-! ### Rules for runs -/

variable {code : List (List Instruction)} {m : Machine}

theorem step_at {s : State} {b k : Nat} {is : List Instruction} {i : Instruction}
    (hs : s.pos = .at b k) (hb : code[b]? = some is) (hk : is[k]? = some i) :
    step code m s = exec m s i := by
  simp [step, hs, hb, hk]

/-- The run from `s` ends in a state that meets `Q`. -/
def Ends (code : List (List Instruction)) (m : Machine) (s : State) (Q : State → Prop) : Prop :=
  ∃ n r e, Runs.StepsN (step code m) n s r ∧ r.pos = .done e ∧ Q r

theorem Ends.step {s r : State} {Q : State → Prop} (hs : step code m s = some r)
    (h : Ends code m r Q) : Ends code m s Q := by
  obtain ⟨n, t, e, hn, ht⟩ := h
  exact ⟨n + 1, t, e, .step hs hn, ht⟩

theorem Ends.done {s : State} {e : Ending} {Q : State → Prop} (hs : s.pos = .done e) (h : Q s) :
    Ends code m s Q := ⟨0, s, e, .refl s, hs, h⟩

namespace State

variable {s : State}

theorem setAll_cons (v : Nat) (vs : List Nat) (w : Word) (ws : List Word) :
    s.setAll (v :: vs) (w :: ws) = (s.set v w).setAll vs ws := rfl

theorem setAll_pos (vs : List Nat) (ws : List Word) : (s.setAll vs ws).pos = s.pos := by
  induction vs generalizing s ws with
  | nil => rfl
  | cons v vs ih =>
    cases ws with
    | nil => rfl
    | cons w ws => rw [setAll_cons, ih, set]

theorem setAll_entered (vs : List Nat) (ws : List Word) :
    (s.setAll vs ws).entered = s.entered := by
  induction vs generalizing s ws with
  | nil => rfl
  | cons v vs ih =>
    cases ws with
    | nil => rfl
    | cons w ws => rw [setAll_cons, ih, set]

theorem setAll_vars_of_notMem {v : Nat} {vs : List Nat} (ws : List Word) (h : v ∉ vs) :
    (s.setAll vs ws).vars v = s.vars v := by
  induction vs generalizing s ws with
  | nil => rfl
  | cons u vs ih =>
    rw [List.mem_cons, not_or] at h
    cases ws with
    | nil => rfl
    | cons w ws =>
      rw [setAll_cons, ih ws h.2, set]
      exact Function.update_of_ne h.1 _ _

/-- Distinct variables hold what was assigned to them. -/
theorem mapM_setAll {vs : List Nat} {ws : List Word} (hnd : vs.Nodup)
    (hlen : vs.length = ws.length) : vs.mapM (s.setAll vs ws).vars = some ws := by
  induction vs generalizing s ws with
  | nil =>
    cases ws with
    | nil => rfl
    | cons w ws => cases hlen
  | cons v vs ih =>
    cases ws with
    | nil => cases hlen
    | cons w ws =>
      rw [List.nodup_cons] at hnd
      have hv : (s.setAll (v :: vs) (w :: ws)).vars v = some w := by
        rw [setAll_cons, setAll_vars_of_notMem ws hnd.1]
        exact Function.update_self _ _ _
      rw [List.mapM_cons, hv, setAll_cons, ih hnd.2 (Nat.succ.inj hlen)]
      rfl

end State

theorem evalAll_variables {α : Type} (vars : Nat → Option Word) (ty : α → Ty) (l : List α)
    (vs : List Nat) (hlen : l.length = vs.length) :
    evalAll m vars (l.zipWith (fun x v => .variable (ty x) v) vs) = vs.mapM vars := by
  induction l generalizing vs with
  | nil =>
    cases vs with
    | nil => rfl
    | cons v vs => cases hlen
  | cons x l ih =>
    cases vs with
    | nil => cases hlen
    | cons v vs =>
      have h := ih vs (Nat.succ.inj hlen)
      rw [evalAll] at h ⊢
      rw [List.zipWith_cons_cons, List.mapM_cons, List.mapM_cons, h]
      rfl

section Instructions

variable {s : State} {b k : Nat} {is : List Instruction} {Q : State → Prop}

/-- A call enters the function, and the run ends there or goes on with the results. -/
theorem Ends.call {res : List Nat} {tys : List Ty} {no : Nat} {args : List Expression}
    {ws : List Word} (hs : s.pos = .at b k) (hb : code[b]? = some is)
    (hk : is[k]? = some (.instr (.call res tys (.static no) args)))
    (hargs : evalAll m s.vars args = some ws)
    (hfail : ∀ r, r.entered = s.entered ++ [(no, ws)] → Q r)
    (hret : ∀ r xs, r.pos = .at b (k + 1) → r.entered = s.entered ++ [(no, ws)] →
      res.mapM r.vars = some xs → Ends code m r Q)
    (hnd : res.Nodup) : Ends code m s Q := by
  cases hc : m.callee no ws with
  | none =>
    refine .step (r := { s with entered := s.entered ++ [(no, ws)] }.stop .calleeFailed) ?_
      (.done rfl (hfail _ rfl))
    rw [step_at hs hb hk]
    simp [exec, execInstr, hargs, hc]
  | some results =>
    let t : State := { s with entered := s.entered ++ [(no, ws)] }
    let xs := (List.range res.length).map results
    have hpos : (t.setAll res xs).pos = .at b k := (State.setAll_pos res xs).trans hs
    have hnext : (t.setAll res xs).next = { t.setAll res xs with pos := .at b (k + 1) } := by
      rw [State.next, hpos]
    refine .step (r := (t.setAll res xs).next) ?_ (hret _ xs ?_ ?_ ?_)
    · rw [step_at hs hb hk]
      simp [exec, execInstr, hargs, hc, t, xs]
    · rw [hnext]
    · rw [hnext]
      exact State.setAll_entered res xs
    · rw [hnext]
      exact State.mapM_setAll hnd (by simp [xs])

theorem Ends.returnNothing (hs : s.pos = .at b k) (hb : code[b]? = some is)
    (hk : is[k]? = some (.instr Dispatch.returnNothing))
    (h : ∀ r, r.entered = s.entered → Q r) : Ends code m s Q := by
  refine .step (r := s.stop (.returnedData (.bytes []) (.number 0))) ?_ (.done rfl (h _ rfl))
  rw [step_at hs hb hk]
  simp [exec, execInstr, Dispatch.returnNothing, eval]

end Instructions

end Solang.Codegen.Polkadot
