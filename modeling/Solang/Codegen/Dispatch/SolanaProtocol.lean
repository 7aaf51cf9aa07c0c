import Solang.Codegen.Dispatch.Solana

/-!
# The deployment protocol on Solana

A run is a sequence of instructions that a program processes on one data account.
The first four bytes of the account are its magic word: 0 before the contract is
deployed, the selector of the contract afterwards. An instruction that fails
leaves the account as it was.
-/

namespace Solang.Codegen.Solana

open Encoding (littleEndian AbiType)

/-! ## Running one instruction -/

/-- The data account, byte by byte -/
abbrev Account := Nat → UInt8

namespace Account

def load (a : Account) (size offset : Nat) : Nat :=
  littleEndian ((List.range size).map fun i => a (offset + i))

/-- The `size` low bytes of `value` are stored at `offset`. -/
def store (a : Account) (size offset value : Nat) : Account := fun i =>
  if offset ≤ i ∧ i < offset + size then UInt8.ofNat (value / 256 ^ (i - offset)) else a i

def magic (a : Account) : Nat := a.load 4 0

end Account

def byteSize : Ty → Nat
  | .uint bits => bits / 8
  | _ => 0

/-- What an instruction comes with. Expressions about the input and the accounts have the
values that `eval` gives them; decoding, encoding, the functions of the contract and the
system program are arbitrary too. The outcome `none` ends the instruction with an error. -/
structure Machine where
  eval : (Nat → Nat) → Expression → Option Nat
  decode : List AbiType → Option (List Nat)
  encode : List Nat → Option (Nat × Nat)
  callee : Nat → List Nat → Account → Option (List Nat × Account)
  create : (Nat → Nat) → Account → Option Account

/-- A function of the contract was called while the account had this magic word. -/
structure Entry where
  cfgNo : Nat
  magic : Nat
  deriving DecidableEq

structure State where
  vars : Nat → Nat
  account : Account
  entered : List Entry

namespace State

def set (s : State) (v w : Nat) : State := { s with vars := Function.update s.vars v w }

def setAll (s : State) (vs ws : List Nat) : State :=
  (vs.zip ws).foldl (fun s p => s.set p.1 p.2) s

def enter (s : State) (cfgNo : Nat) : State :=
  { s with entered := s.entered ++ [⟨cfgNo, s.account.magic⟩] }

end State

def evalExpr (m : Machine) (vars : Nat → Nat) : Expression → Option Nat
  | .numberLiteral _ value => some value.toNat
  | .variable _ varNo => some (vars varNo)
  | .binary .equal left right =>
    match evalExpr m vars left, evalExpr m vars right with
    | some a, some b => some (if a = b then 1 else 0)
    | _, _ => none
  | .binary (.moreEqual false) left right =>
    match evalExpr m vars left, evalExpr m vars right with
    | some a, some b => some (if b ≤ a then 1 else 0)
    | _, _ => none
  | e => m.eval vars e

/-- The state behind an instruction that does not end the run, and whether it was an error -/
def execInstruction (m : Machine) (s : State) : Instruction → State × Bool
  | .instr (.set res e) =>
    match evalExpr m s.vars e with
    | some w => (s.set res w, true)
    | none => (s, false)
  | .instr (.loadStorage res ty storage) =>
    match evalExpr m s.vars storage with
    | some offset => (s.set res (s.account.load (byteSize ty) offset), true)
    | none => (s, false)
  | .instr (.setStorage ty value storage) =>
    match evalExpr m s.vars value, evalExpr m s.vars storage with
    | some w, some offset =>
      ({ s with account := s.account.store (byteSize ty) offset w }, true)
    | _, _ => (s, false)
  | .instr (.call res _ (.static cfgNo) args) =>
    match args.mapM (evalExpr m s.vars) with
    | none => (s, false)
    | some ws =>
      match m.callee cfgNo ws s.account with
      | some (rs, account) => ({ s.enter cfgNo with account := account }.setAll res rs, true)
      | none => (s.enter cfgNo, false)
  | .instr (.print _) => (s, true)
  | .instr _ => (s, false)
  | .abiDecode res _ types _ =>
    match m.decode types with
    | some ws => (s.setAll res ws, true)
    | none => (s, false)
  | .abiEncode data dataLen args =>
    match (args.mapM (evalExpr m s.vars)).bind m.encode with
    | some (x, n) => ((s.set data x).set dataLen n, true)
    | none => (s, false)
  | .createAccount =>
    match m.create s.vars s.account with
    | some account => ({ s with account := account }, true)
    | none => (s, false)

mutual

/-- The state at the end and whether the instruction succeeds -/
def Code.exec (m : Machine) (s : State) : Code → State × Bool
  | .instr i next =>
    if (execInstruction m s i).2 then next.exec m (execInstruction m s i).1
    else ((execInstruction m s i).1, false)
  | .branchCond cond ifTrue ifFalse =>
    match evalExpr m s.vars cond with
    | some 0 => ifFalse.exec m s
    | some _ => ifTrue.exec m s
    | none => (s, false)
  | .switch cond cases =>
    match evalExpr m s.vars cond with
    | some w => cases.exec m s w
    | none => (s, false)
  | .returnCode code => (s, code == .success)
  | .returnData _ _ => (s, true)

def Cases.exec (m : Machine) (s : State) (w : Nat) : Cases → State × Bool
  | .default code => code.exec m s
  | .case value code rest =>
    match evalExpr m s.vars value with
    | some v => if v = w then code.exec m s else rest.exec m s w
    | none => (s, false)

end

/-! ## Runs -/

structure Outcome where
  entered : List Entry
  succeeded : Bool

namespace Contract

variable (c : Contract) (base58 : List UInt8 → String)

/-- One instruction on the account -/
def process (m : Machine) (a : Account) : Outcome × Account :=
  let (s, succeeded) := (c.functionDispatch base58).exec m ⟨fun _ => 0, a, []⟩
  (⟨s.entered, succeeded⟩, if succeeded then s.account else a)

def run : List Machine → Account → List Outcome
  | [], _ => []
  | m :: ms, a => (c.process base58 m a).1 :: run ms (c.process base58 m a).2

def isConstructor (e : Entry) : Bool := (c.allCfg[e.cfgNo]?).any (·.ty == .constructor)

/-- The instruction was a successful call of a constructor. -/
def deploys (o : Outcome) : Bool := o.succeeded && o.entered.any c.isConstructor

/-- A function or fallback that gets to storage is entered only on an account that has been
deployed. -/
def EntryOk (e : Entry) : Prop :=
  ∀ cfg no, c.allCfg[e.cfgNo]? = some cfg → cfg.isEntry = true → cfg.astNo = some no →
    c.ns.Touches c.contractNo no → e.magic = c.selector

/-- At most one constructor succeeds, and every entry is fine. -/
def Protocol (os : List Outcome) : Prop :=
  os.countP c.deploys ≤ 1 ∧ ∀ o ∈ os, ∀ e ∈ o.entered, c.EntryOk e

/-- Every function and fallback that gets to storage has an access of its own where
`check_mutability` comes by. -/
def AllRecorded : Prop :=
  ∀ cfg ∈ c.allCfg, cfg.isEntry = true → ∀ no, cfg.astNo = some no →
    c.ns.Touches c.contractNo no → c.ns.Recorded (c.ns.functions no)

end Contract

/-- The functions of the contract do not overwrite the magic word. -/
def Machine.KeepsMagic (m : Machine) : Prop :=
  ∀ cfgNo ws a rs a', m.callee cfgNo ws a = some (rs, a') → a'.magic = a.magic

/-! ## Rules for code -/

theorem Account.magic_store (a : Account) {v : Nat} (hv : v < 2 ^ 32) :
    (a.store 4 0 v).magic = v := by
  have hbyte : ∀ i < 4, a.store 4 0 v i = UInt8.ofNat (v / 256 ^ i) := by
    intro i hi
    unfold store
    rw [if_pos (by omega)]
    rfl
  unfold magic load
  simp only [List.range, List.range.loop, List.map_cons, List.map_nil, Nat.zero_add, littleEndian,
    hbyte 0 (by omega), hbyte 1 (by omega), hbyte 2 (by omega), hbyte 3 (by omega),
    UInt8.toNat_ofNat']
  omega

theorem Account.magic_store_of_le (a : Account) {size offset v : Nat} (h : 4 ≤ offset) :
    (a.store size offset v).magic = a.magic := by
  have hbyte : ∀ i < 4, a.store size offset v i = a i := by
    intro i hi
    unfold store
    rw [if_neg (by omega)]
  unfold magic load
  congr 1
  refine List.map_congr_left fun i hi => ?_
  rw [Nat.zero_add]
  exact hbyte i (List.mem_range.mp hi)

/-- The two states differ in their variables only. -/
def Same (s s' : State) : Prop := s'.account = s.account ∧ s'.entered = s.entered

theorem Same.refl (s : State) : Same s s := ⟨rfl, rfl⟩

theorem Same.trans {s t u : State} (h : Same s t) (h' : Same t u) : Same s u :=
  ⟨h'.1.trans h.1, h'.2.trans h.2⟩

theorem same_setAll (s : State) (vs ws : List Nat) : Same s (s.setAll vs ws) := by
  unfold State.setAll
  generalize vs.zip ws = ps
  induction ps generalizing s with
  | nil => exact .refl s
  | cons p ps ih =>
    have hset : Same s (s.set p.1 p.2) := ⟨rfl, rfl⟩
    exact hset.trans (ih _)

section Rules

variable {m : Machine} {s : State} {Q : State × Bool → Prop}

/-- The instructions that touch nothing but variables -/
def Instruction.isQuiet : Instruction → Bool
  | .instr (.set _ _) | .instr (.loadStorage _ _ _) | .instr (.print _) | .abiDecode _ _ _ _
  | .abiEncode _ _ _ => true
  | _ => false

variable {i : Instruction} {next ok : Code}

theorem same_of_isQuiet (h : i.isQuiet = true) :
    Same s (execInstruction m s i).1 := by
  cases i with
  | instr i =>
    cases i with
    | set res e =>
      simp only [execInstruction]
      split <;> exact ⟨rfl, rfl⟩
    | loadStorage res ty storage =>
      simp only [execInstruction]
      split <;> exact ⟨rfl, rfl⟩
    | print e => exact .refl s
    | _ => simp [Instruction.isQuiet] at h
  | abiDecode res buffer types size =>
    simp only [execInstruction]
    split
    · exact same_setAll _ _ _
    · exact .refl s
  | abiEncode data dataLen args =>
    simp only [execInstruction]
    split <;> exact ⟨rfl, rfl⟩
  | createAccount => simp [Instruction.isQuiet] at h

theorem exec_instr {r : State × Bool} (hr : execInstruction m s i = r)
    (h : Q (if r.2 then next.exec m r.1 else (r.1, false))) :
    Q ((Code.instr i next).exec m s) := by
  unfold Code.exec
  rw [hr]
  exact h

theorem exec_quiet (hi : i.isQuiet = true) (hfail : ∀ s', Same s s' → Q (s', false))
    (hnext : ∀ s', Same s s' → Q (next.exec m s')) :
    Q ((Code.instr i next).exec m s) := by
  have hsame : Same s (execInstruction m s i).1 := same_of_isQuiet hi
  unfold Code.exec
  split
  · exact hnext _ hsame
  · exact hfail _ hsame

theorem exec_addAll {is : List Instr} (hi : ∀ i ∈ is, (Instruction.instr i).isQuiet = true)
    (hfail : ∀ s', Same s s' → Q (s', false)) (hnext : ∀ s', Same s s' → Q (next.exec m s')) :
    Q ((Code.addAll is next).exec m s) := by
  induction is generalizing s with
  | nil => exact hnext s (.refl s)
  | cons i is ih =>
    refine exec_quiet (hi i (by simp)) hfail fun s' hs' => ?_
    exact ih (fun j hj => hi j (by simp [hj])) (fun t ht => hfail t (hs'.trans ht))
      fun t ht => hnext t (hs'.trans ht)

theorem exec_branchCond {cond : Expression} {ifTrue ifFalse : Code} (hfail : Q (s, false))
    (htrue : Q (ifTrue.exec m s)) (hfalse : Q (ifFalse.exec m s)) :
    Q ((Code.branchCond cond ifTrue ifFalse).exec m s) := by
  unfold Code.exec
  split
  · exact hfalse
  · exact htrue
  · exact hfail

/-- Code behind `check_magic` runs with the magic word that was asked for. -/
theorem exec_checkMagic {magicValue var : Nat} (hfail : ∀ s', Same s s' → Q (s', false))
    (hok : s.account.magic = magicValue → ∀ s', Same s s' → Q (ok.exec m s')) :
    Q ((Contract.checkMagic magicValue var ok).exec m s) := by
  have hload : (execInstruction m s
      (.instr (.loadStorage var (.uint 32) (Contract.uint32 0)))) =
        (s.set var s.account.magic, true) := rfl
  unfold Contract.checkMagic Code.add Code.exec
  rw [hload]
  simp only [if_true]
  have hcond : evalExpr m (s.set var s.account.magic).vars
      (.binary .equal (.variable (.uint 32) var) (Contract.uint32 magicValue)) =
        some (if s.account.magic = magicValue then 1 else 0) := by
    simp [evalExpr, Contract.uint32, State.set]
  unfold Code.exec
  rw [hcond]
  have hset : Same s (s.set var s.account.magic) := ⟨rfl, rfl⟩
  by_cases h : s.account.magic = magicValue
  · rw [if_pos h]
    exact hok h _ hset
  · rw [if_neg h]
    exact hfail _ hset

theorem exec_call {res : List Nat} {tys : List Ty} {cfgNo : Nat} {args : List Expression}
    (hkeep : m.KeepsMagic) (hargs : Q (s, false)) (hfail : Q (s.enter cfgNo, false))
    (hnext : ∀ s', s'.entered = (s.enter cfgNo).entered → s'.account.magic = s.account.magic →
      Q (next.exec m s')) :
    Q ((Code.add (.call res tys (.static cfgNo) args) next).exec m s) := by
  cases hws : args.mapM (evalExpr m s.vars) with
  | none => exact exec_instr (r := (s, false)) (by simp only [execInstruction, hws]) hargs
  | some ws =>
    cases hc : m.callee cfgNo ws s.account with
    | none =>
      exact exec_instr (r := (s.enter cfgNo, false)) (by simp only [execInstruction, hws, hc]) hfail
    | some r =>
      obtain ⟨rs, a'⟩ := r
      refine exec_instr (r := ({ s.enter cfgNo with account := a' }.setAll res rs, true))
        (by simp only [execInstruction, hws, hc]) ?_
      obtain ⟨hacc, hent⟩ := same_setAll { s.enter cfgNo with account := a' } res rs
      refine hnext _ hent ?_
      rw [hacc]
      exact hkeep _ _ _ _ _ hc

theorem exec_setStorage {v offset : Nat} :
    (Code.add (.setStorage (.uint 32) (Contract.uint64 v) (Contract.uint64 offset)) next).exec m s
      = next.exec m { s with account := s.account.store 4 offset v } := rfl

theorem exec_createAccount (hfail : Q (s, false))
    (hnext : ∀ s', s'.entered = s.entered → Q (next.exec m s')) :
    Q ((Code.instr .createAccount next).exec m s) := by
  cases hc : m.create s.vars s.account with
  | none => exact exec_instr (r := (s, false)) (by simp only [execInstruction, hc]) hfail
  | some account =>
    exact exec_instr (r := ({ s with account := account }, true))
      (by simp only [execInstruction, hc]) (hnext _ rfl)

theorem exec_accountOk {c : Contract}
    (hok : ∀ s', s'.entered = s.entered → s'.account.magic = c.selector → Q (ok.exec m s')) :
    Q ((c.accountOk ok).exec m s) := by
  unfold Contract.accountOk
  rw [exec_setStorage, exec_setStorage]
  refine hok _ rfl ?_
  show ((s.account.store 4 0 c.selector).store 4 12 _).magic = c.selector
  rw [Account.magic_store_of_le _ (by decide), Account.magic_store _ c.selector_lt]

/-- Code behind `solana_deploy` runs on an account that has the magic word. -/
theorem exec_solanaDeploy {c : Contract} {base58 : List UInt8 → String} {cfg : FunctionCfg}
    {args : List Expression} {v : Nat} (hfail : ∀ s', s'.entered = s.entered → Q (s', false))
    (hok : ∀ s', s'.entered = s.entered → s'.account.magic = c.selector → Q (ok.exec m s')) :
    Q ((c.solanaDeploy base58 cfg args v ok).exec m s) := by
  have haccountOk : ∀ t : State, t.entered = s.entered → Q ((c.accountOk ok).exec m t) := by
    intro t ht
    exact exec_accountOk fun u hu hmagic => hok u (hu.trans ht) hmagic
  have hcreate : ∀ t : State, t.entered = s.entered →
      Q ((c.createAccount cfg args ok).exec m t) := by
    intro t ht
    refine exec_addAll ?_ (fun u hu => hfail u (hu.2.trans ht)) fun u hu => ?_
    · intro i hi
      obtain ⟨⟨arg, e⟩, _, hi⟩ := List.mem_filterMap.mp hi
      obtain ⟨var, _, rfl⟩ := Option.map_eq_some_iff.mp hi
      rfl
    · have hu' : u.entered = s.entered := hu.2.trans ht
      split
      · exact exec_createAccount (hfail u hu') fun w hw => haccountOk w (hw.trans hu')
      · exact hfail u hu'
  have hidOk : Q ((Code.add (.set v Contract.accountLength)
      (.branchCond (.binary .equal (.variable (.uint 32) v) (Contract.uint32 0))
        (c.createAccount cfg args ok) (c.accountExists v ok))).exec m s) := by
    refine exec_quiet rfl (fun u hu => hfail u hu.2) fun u hu => ?_
    refine exec_branchCond (hfail u hu.2) (hcreate u hu.2) ?_
    exact exec_branchCond (hfail u hu.2) (haccountOk u hu.2) (hfail u hu.2)
  unfold Contract.solanaDeploy
  cases c.programId with
  | none => exact hidOk
  | some id =>
    refine exec_branchCond (hfail s rfl) hidOk ?_
    exact exec_quiet rfl (fun u hu => hfail u hu.2) fun u hu => hfail u hu.2

end Rules

/-! ## One instruction -/

/-- What an instruction that started on the account `a` may have done -/
structure Fine (c : Contract) (a : Account) (r : State × Bool) : Prop where
  entries : ∀ e ∈ r.1.entered, c.EntryOk e
  ends : r.2 = true →
    (r.1.entered.any c.isConstructor = false ∧ r.1.account.magic = a.magic) ∨
    (a.magic = 0 ∧ r.1.account.magic = c.selector)

section Dispatch

variable {c : Contract} {m : Machine} {s : State} {a : Account}

theorem fine_of_failed {s' : State} (h : ∀ e ∈ s'.entered, c.EntryOk e) :
    Fine c a (s', false) := ⟨h, by simp⟩

theorem fine_of_nothing {s' : State} (hs : s.entered = []) (h : s'.entered = s.entered) :
    Fine c a (s', false) := by
  refine fine_of_failed ?_
  rw [h, hs]
  simp

theorem entryOk_of_not_isEntry {e : Entry}
    (h : ∀ cfg, c.allCfg[e.cfgNo]? = some cfg → cfg.isEntry = false) : c.EntryOk e := by
  intro cfg no hcfg hentry _ _
  rw [h cfg hcfg] at hentry
  cases hentry

variable {cfg : FunctionCfg} {cfgNo : Nat}

/-- Where the check is left out, the call cannot get to storage. -/
theorem entryOk_of_checked {magic : Nat} (hrec : c.AllRecorded) (hcfg : c.allCfg[cfgNo]? = some cfg)
    (h : cfg.astNo.any c.hasDataAccount = true → magic = c.selector) :
    c.EntryOk ⟨cfgNo, magic⟩ := by
  intro cfg' no hcfg' hentry hno htouch
  rw [hcfg] at hcfg'
  cases hcfg'
  apply h
  have hmem : cfg ∈ c.allCfg := List.mem_of_getElem? hcfg
  have hrecorded := hrec cfg hmem hentry no hno htouch
  rw [hno]
  exact Sema.Bodies.isSome_of_recorded hrecorded

theorem exec_checkDataAccount {Q : State × Bool → Prop} {no : Option Nat} {ok : Code}
    (hfail : ∀ s', Same s s' → Q (s', false))
    (hok : (no.any c.hasDataAccount = true → s.account.magic = c.selector) →
      ∀ s', Same s s' → Q (ok.exec m s')) :
    Q ((c.checkDataAccount no ok).exec m s) := by
  unfold Contract.checkDataAccount
  by_cases h : no.any c.hasDataAccount = true
  · rw [if_pos h]
    exact exec_checkMagic hfail fun hmagic => hok fun _ => hmagic
  · rw [if_neg h]
    exact hok (fun h' => absurd h' h) s (.refl s)

/-- A call of a function or fallback that ends the instruction if it returns -/
theorem fine_call {res : List Nat} {tys : List Ty} {args : List Expression} {next : Code}
    (hrec : c.AllRecorded) (hkeep : m.KeepsMagic) (hcfg : c.allCfg[cfgNo]? = some cfg)
    (hty : cfg.ty ≠ .constructor) (hs : s.entered = []) (ha : s.account = a)
    (hmagic : cfg.astNo.any c.hasDataAccount = true → s.account.magic = c.selector)
    (hnext : ∀ t, ∃ t', Same t t' ∧ ∃ b, next.exec m t = (t', b)) :
    Fine c a ((Code.add (.call res tys (.static cfgNo) args) next).exec m s) := by
  have hentered : ∀ t : State, t.entered = (s.enter cfgNo).entered →
      t.entered = [⟨cfgNo, s.account.magic⟩] := by
    intro t ht
    rw [ht]
    show s.entered ++ [_] = _
    rw [hs]
    rfl
  have hentries : ∀ t : State, t.entered = (s.enter cfgNo).entered →
      ∀ e ∈ t.entered, c.EntryOk e := by
    intro t ht e he
    rw [hentered t ht, List.mem_singleton] at he
    rw [he]
    exact entryOk_of_checked hrec hcfg hmagic
  refine exec_call hkeep (fine_of_nothing hs rfl) (fine_of_failed (hentries _ rfl)) ?_
  intro t ht hacc
  obtain ⟨t', hsame, b, hexec⟩ := hnext t
  rw [hexec]
  have ht' : t'.entered = (s.enter cfgNo).entered := hsame.2.trans ht
  refine ⟨hentries t' ht', fun _ => .inl ⟨?_, ?_⟩⟩
  · rw [hentered t' ht']
    simp [Contract.isConstructor, hcfg, hty]
  · show t'.account.magic = a.magic
    rw [hsame.1, hacc, ha]

theorem returnResults_same (cfg : FunctionCfg) (res : List Nat) (v : Nat) (t : State) :
    ∃ t', Same t t' ∧ ∃ b, (Contract.returnResults cfg res v).exec m t = (t', b) := by
  unfold Contract.returnResults
  split
  · exact ⟨t, .refl t, true, rfl⟩
  · refine exec_quiet (Q := fun r => ∃ t', Same t t' ∧ ∃ b, r = (t', b)) rfl ?_ ?_
    · intro t' ht'
      exact ⟨t', ht', false, rfl⟩
    · intro t' ht'
      exact ⟨t', ht', true, rfl⟩

theorem fine_functionCase (hrec : c.AllRecorded) (hkeep : m.KeepsMagic)
    (hcfg : c.allCfg[cfgNo]? = some cfg) (hty : cfg.ty = .function) (hs : s.entered = [])
    (ha : s.account = a) :
    Fine c a ((c.functionCase cfgNo cfg).exec m s) := by
  unfold Contract.functionCase
  refine exec_checkDataAccount (fun t ht => fine_of_nothing hs ht.2) fun hmagic t ht => ?_
  refine exec_quiet rfl (fun u hu => fine_of_nothing hs (ht.trans hu).2) fun u hu => ?_
  have hsame := ht.trans hu
  refine fine_call hrec hkeep hcfg (by simp [hty]) (hsame.2.trans hs) (hsame.1.trans ha) ?_
    (returnResults_same _ _ _)
  rw [hsame.1]
  exact hmagic

theorem fine_noFunctionMatched (hrec : c.AllRecorded) (hkeep : m.KeepsMagic)
    (hs : s.entered = []) (ha : s.account = a) : Fine c a (c.noFunctionMatched.exec m s) := by
  unfold Contract.noFunctionMatched
  cases hf : c.fallbackNo with
  | none => exact fine_of_nothing hs rfl
  | some cfgNo =>
    obtain ⟨hlt, hp, -⟩ := List.findIdx?_eq_some_iff_getElem.mp hf
    obtain ⟨hpublic, hty⟩ : c.allCfg[cfgNo].isPublic = true ∧ c.allCfg[cfgNo].ty = .fallback := by
      simpa using hp
    have hcfg : c.allCfg[cfgNo]? = some c.allCfg[cfgNo] := List.getElem?_eq_getElem hlt
    have hast : (c.allCfg[cfgNo]?.bind (·.functionNo)) = c.allCfg[cfgNo].astNo := by
      have hno := c.fallback_function _ (List.getElem_mem hlt) hpublic hty
      obtain ⟨no, hno⟩ := Option.isSome_iff_exists.mp hno
      rw [hcfg]
      simp [FunctionCfg.astNo, hno]
    dsimp only
    rw [hast]
    refine exec_checkDataAccount (fun t ht => fine_of_nothing hs ht.2) fun hmagic t ht => ?_
    refine fine_call hrec hkeep hcfg (by simp [hty]) (ht.2.trans hs) (ht.1.trans ha) ?_
      fun u => ⟨u, .refl u, true, rfl⟩
    rw [ht.1]
    exact hmagic

theorem fine_constructorCase {base58 : List UInt8 → String} (hkeep : m.KeepsMagic)
    (hcfg : c.allCfg[cfgNo]? = some cfg) (hty : cfg.ty = .constructor) (hs : s.entered = [])
    (ha : s.account = a) :
    Fine c a ((c.constructorCase base58 cfgNo cfg).exec m s) := by
  have hinit : ∀ magic, c.EntryOk ⟨c.initializer, magic⟩ := by
    intro magic
    refine entryOk_of_not_isEntry fun cfg' hcfg' => ?_
    simp [FunctionCfg.isEntry, c.initializer_private cfg' hcfg']
  have hself : ∀ magic, c.EntryOk ⟨cfgNo, magic⟩ := by
    intro magic
    refine entryOk_of_not_isEntry fun cfg' hcfg' => ?_
    rw [hcfg] at hcfg'
    cases hcfg'
    simp [FunctionCfg.isEntry, hty]
  unfold Contract.constructorCase
  refine exec_checkMagic (fun t ht => fine_of_nothing hs ht.2) fun hzero t ht => ?_
  have hdeploy : ∀ u : State, u.entered = [] → ∀ v args, Fine c a
      ((c.solanaDeploy base58 cfg args v (.add (.call [] [] (.static c.initializer) [])
        (.add (.call [] [] (.static cfgNo) args) (.returnCode .success)))).exec m u) := by
    intro u hu v args
    refine exec_solanaDeploy (fun w hw => fine_of_nothing hu hw) fun w hw hmagic => ?_
    -- the storage initializer
    have hw' : (w.enter c.initializer).entered = [⟨c.initializer, w.account.magic⟩] := by
      show w.entered ++ [_] = _
      rw [hw, hu]
      rfl
    refine exec_call hkeep (fine_of_nothing hu hw) (fine_of_failed ?_) fun x hx hxm => ?_
    · rw [hw']
      simpa using hinit _
    -- the constructor
    rw [hw'] at hx
    have hx' : (x.enter cfgNo).entered =
        [⟨c.initializer, w.account.magic⟩, ⟨cfgNo, x.account.magic⟩] := by
      show x.entered ++ [_] = _
      rw [hx]
      rfl
    have hentries : ∀ e ∈ (x.enter cfgNo).entered, c.EntryOk e := by
      rw [hx']
      simpa using ⟨hinit _, hself _⟩
    refine exec_call hkeep (fine_of_failed ?_) (fine_of_failed hentries) fun y hy hym => ?_
    · rw [hx]
      simpa using hinit _
    · refine ⟨?_, fun _ => .inr ⟨?_, ?_⟩⟩
      · show ∀ e ∈ y.entered, c.EntryOk e
        rw [hy]
        exact hentries
      · rw [← ha]
        exact hzero
      · show y.account.magic = c.selector
        rw [hym, hxm, hmagic]
  have ht' : t.entered = [] := ht.2.trans hs
  split
  · exact hdeploy t ht' _ _
  · exact exec_quiet rfl (fun u hu => fine_of_nothing ht' hu.2) fun u hu =>
      hdeploy u (hu.2.trans ht') _ _

theorem fine_cases {base58 : List UInt8 → String} (hrec : c.AllRecorded) (hkeep : m.KeepsMagic)
    (hs : s.entered = []) (ha : s.account = a) (w : Nat) (rest : List FunctionCfg) (cfgNo : Nat)
    (hrest : ∀ i cfg, rest[i]? = some cfg → c.allCfg[cfgNo + i]? = some cfg) :
    Fine c a ((c.cases base58 c.noFunctionMatched cfgNo rest).exec m s w) := by
  induction rest generalizing cfgNo with
  | nil => exact fine_noFunctionMatched hrec hkeep hs ha
  | cons cfg rest ih =>
    have hcfg : c.allCfg[cfgNo]? = some cfg := hrest 0 cfg rfl
    have hnext : Fine c a ((c.cases base58 c.noFunctionMatched (cfgNo + 1) rest).exec m s w) := by
      refine ih (cfgNo + 1) fun i cfg' hi => ?_
      rw [Nat.add_assoc, Nat.add_comm 1 i]
      exact hrest (i + 1) cfg' hi
    -- a case that is there is taken or passed
    have hcase : ∀ code, Fine c a (code.exec m s) → Fine c a
        ((Cases.case (Contract.uint64 (littleEndian cfg.selector)) code
          (c.cases base58 c.noFunctionMatched (cfgNo + 1) rest)).exec m s w) := by
      intro code hcode
      unfold Cases.exec
      simp only [Contract.uint64, evalExpr]
      split
      · exact hcode
      · exact hnext
    unfold Contract.cases
    dsimp only
    split
    · exact hnext
    · cases hty : cfg.ty with
      | function => exact hcase _ (fine_functionCase hrec hkeep hcfg hty hs ha)
      | constructor => exact hcase _ (fine_constructorCase hkeep hcfg hty hs ha)
      | _ => exact hnext

theorem fine_functionDispatch (base58 : List UInt8 → String) (hrec : c.AllRecorded)
    (hkeep : m.KeepsMagic) (hs : s.entered = []) (ha : s.account = a) :
    Fine c a ((c.functionDispatch base58).exec m s) := by
  unfold Contract.functionDispatch
  refine exec_quiet rfl (fun t ht => fine_of_nothing hs ht.2) fun t ht => ?_
  refine exec_quiet rfl (fun u hu => fine_of_nothing hs (ht.trans hu).2) fun u hu => ?_
  have hsame := ht.trans hu
  have hu' : u.entered = [] := hsame.2.trans hs
  have hnone := fine_noFunctionMatched hrec hkeep hu' (hsame.1.trans ha)
  refine exec_branchCond (fine_of_nothing hs hsame.2) ?_ hnone
  unfold Code.exec
  split
  · refine fine_cases hrec hkeep hu' (hsame.1.trans ha) _ _ 0 fun i cfg hi => ?_
    rw [Nat.zero_add]
    exact hi
  · exact fine_of_nothing hs hsame.2

end Dispatch

/-! ## Whole runs -/

namespace Contract

variable {c : Contract} {base58 : List UInt8 → String}

/-- What one instruction does to the magic word -/
theorem process_spec (base58 : List UInt8 → String) (hrec : c.AllRecorded) {m : Machine}
    (hkeep : m.KeepsMagic) (a : Account) :
    (∀ e ∈ (c.process base58 m a).1.entered, c.EntryOk e) ∧
    (c.deploys (c.process base58 m a).1 = true →
      a.magic = 0 ∧ (c.process base58 m a).2.magic = c.selector) ∧
    (c.deploys (c.process base58 m a).1 = false →
      (c.process base58 m a).2.magic = a.magic ∨
        a.magic = 0 ∧ (c.process base58 m a).2.magic = c.selector) := by
  have hfine : Fine c a ((c.functionDispatch base58).exec m ⟨fun _ => 0, a, []⟩) :=
    fine_functionDispatch base58 hrec hkeep rfl rfl
  unfold process deploys
  generalize (c.functionDispatch base58).exec m ⟨fun _ => 0, a, []⟩ = r at hfine
  obtain ⟨s, succeeded⟩ := r
  refine ⟨hfine.entries, ?_, ?_⟩
  · intro h
    obtain ⟨hsucc, hctor⟩ := (Bool.and_eq_true _ _).mp h
    dsimp only at hsucc hctor
    obtain ⟨hnone, -⟩ | hdeploy := hfine.ends hsucc
    · rw [hctor] at hnone
      cases hnone
    · dsimp only
      rw [if_pos hsucc]
      exact hdeploy
  · intro _
    dsimp only
    split
    next hsucc => exact (hfine.ends hsucc).imp (·.2) id
    next => exact .inl rfl

/-- The account is not deployed twice: the magic word goes from 0 to the selector and stays. -/
theorem countP_deploys_run (hsel : c.selector ≠ 0) (hrec : c.AllRecorded) (ms : List Machine)
    (hkeep : ∀ m ∈ ms, m.KeepsMagic) (a : Account) :
    (a.magic = c.selector → (c.run base58 ms a).countP c.deploys = 0) ∧
    (a.magic = 0 → (c.run base58 ms a).countP c.deploys ≤ 1) := by
  induction ms generalizing a with
  | nil => simp [run]
  | cons m ms ih =>
    obtain ⟨-, hdeploys, hother⟩ := process_spec base58 hrec (hkeep m (by simp)) a
    obtain ⟨ihdeployed, ihzero⟩ :=
      ih (fun m' hm' => hkeep m' (by simp [hm'])) (c.process base58 m a).2
    unfold run
    rw [List.countP_cons]
    cases hd : c.deploys (c.process base58 m a).1 with
    | true =>
      obtain ⟨hzero, hmagic⟩ := hdeploys hd
      rw [ihdeployed hmagic]
      exact ⟨fun h => absurd (h.symm.trans hzero) hsel, fun _ => le_refl _⟩
    | false =>
      obtain hsame | ⟨hzero, hmagic⟩ := hother hd
      · rw [hsame] at ihdeployed ihzero
        exact ⟨ihdeployed, ihzero⟩
      · rw [ihdeployed hmagic]
        exact ⟨fun h => absurd (h.symm.trans hzero) hsel, fun _ => Nat.zero_le _⟩

theorem entryOk_run (hrec : c.AllRecorded) (ms : List Machine)
    (hkeep : ∀ m ∈ ms, m.KeepsMagic) (a : Account) :
    ∀ o ∈ c.run base58 ms a, ∀ e ∈ o.entered, c.EntryOk e := by
  induction ms generalizing a with
  | nil => simp [run]
  | cons m ms ih =>
    intro o ho
    obtain rfl | ho := List.mem_cons.mp ho
    · exact (process_spec base58 hrec (hkeep m (by simp)) a).1
    · exact ih (fun m' hm' => hkeep m' (by simp [hm'])) _ o ho

/-- The deployment protocol holds in every run of a contract whose functions have the data
account recorded and do not overwrite the magic word. -/
theorem protocol_run (c : Contract) (base58 : List UInt8 → String) (hsel : c.selector ≠ 0)
    (hrec : c.AllRecorded) (ms : List Machine) (hkeep : ∀ m ∈ ms, m.KeepsMagic) (a : Account)
    (ha : a.magic = 0) : c.Protocol (c.run base58 ms a) :=
  ⟨(countP_deploys_run hsel hrec ms hkeep a).2 ha, entryOk_run hrec ms hkeep a⟩

/-! ### A counter -/

/-- `count++` -/
def sampleIncrement : Sema.Expression := .incDec .other (.storageVariable (.storageRef false) 0)

def sampleBody (id : String) (visibility : Sema.Visibility) (body : List Sema.Statement) :
    Sema.FunctionBody :=
  { Sema.Bodies.sampleDeclaration id visibility .nonpayable with
    modifiers := []
    body := body
    hasPayerAnnotation := false
    hasSeedAnnotation := false }

def sampleCfg (ty : Sema.FunctionTy) (isPublic : Bool) (selector : List UInt8)
    (functionNo : Option Nat) : FunctionCfg :=
  { name := ""
    ty := ty
    isPublic := isPublic
    nonpayable := true
    selector := selector
    params := []
    returns := []
    functionNo := functionNo
    modifier := none
    arguments := []
    payer := false }

/-- `contract counter { uint64 count; function inc() internal { count++; }`
`function f() public { body } }` -/
def sample (body : List Sema.Statement) : Contract where
  ns :=
    { functions := fun no =>
        if no = 0 then sampleBody "f" .pub body
        else sampleBody "inc" .internal [.expression sampleIncrement]
      virtualFunction := fun _ _ => 0 }
  contractNo := 0
  allCfg :=
    [sampleCfg .function true [1, 0, 0, 0, 0, 0, 0, 0] (some 0),
      sampleCfg .function false [] (some 1), sampleCfg .function false [] none,
      sampleCfg .constructor true [2, 0, 0, 0, 0, 0, 0, 0] none]
  initializer := 2
  selector := 77
  programId := none
  fixedLayoutSize := 24
  selector_lt := by decide
  dispatched := by decide
  fallback_function := by decide
  initializer_private := by
    intro cfg h
    cases h
    rfl

/-- An instruction whose input is this selector, on a data account of 24 bytes. A function of
the contract counts at offset 16. -/
def sampleMachine (selector : Nat) : Machine where
  eval _ e :=
    match e with
    | .unary (.load .bufferPointer) _ => some 0
    | .unary (.load (.uint 64)) _ => some 8
    | .nary (.builtin _ .readFromBuffer) _ => some selector
    | .nary (.builtin _ .arrayLength) _ => some 24
    | _ => none
  decode _ := some []
  encode _ := none
  callee _ _ a := some ([], a.store 8 16 (a.load 8 16 + 1))
  create _ _ := none

theorem keepsMagic_sampleMachine (selector : Nat) : (sampleMachine selector).KeepsMagic := by
  intro cfgNo ws a rs a' h
  cases h
  exact Account.magic_store_of_le a (by decide)

/-- `f` calls `inc()`. -/
def sampleCalling : List Sema.Statement :=
  [.expression (.internalFunctionCall .other .nonpayable (.internalFunction 1 none) [])]

/-- `f` gets to storage through `inc` and is entered on an account that is not deployed. -/
theorem not_protocol_sample :
    (sample sampleCalling).selector ≠ 0 ∧ Account.magic (fun _ => 0) = 0 ∧
      (sampleMachine 1).KeepsMagic ∧
      ¬ (sample sampleCalling).Protocol
        ((sample sampleCalling).run (fun _ => "") [sampleMachine 1] fun _ => 0) := by
  refine ⟨by decide, by decide, keepsMagic_sampleMachine 1, fun h => ?_⟩
  have hentered : ((sample sampleCalling).process (fun _ => "") (sampleMachine 1)
      fun _ => 0).1.entered = [⟨0, 0⟩] := by decide
  have hentry := h.2 _ (List.mem_cons_self ..) ⟨0, 0⟩ (by rw [hentered]; simp)
  have htouches : (sample sampleCalling).ns.Touches 0 0 := by
    refine ⟨1, .single ⟨.stmt _, List.mem_singleton.mpr rfl, 1, none, ?_, rfl⟩, .stmt _,
      List.mem_singleton.mpr rfl, .expr sampleIncrement, ?_, rfl⟩
    · refine .tail (b := .expr (.internalFunctionCall .other .nonpayable
        (.internalFunction 1 none) [])) (.single ?_) ?_
      · simp [Sema.Node.children, Sema.Node.opens]
      · simp [Sema.Node.children, Sema.Node.opens, Sema.Node.exprs, Sema.Expression.opens]
    · refine .single ?_
      simp [Sema.Node.children, Sema.Node.opens]
  exact absurd (hentry _ 0 rfl rfl rfl htouches) (by decide)

/-- `f` increments the counter itself. -/
def sampleCounting : List Sema.Statement := [.expression sampleIncrement]

theorem allRecorded_sampleCounting : (sample sampleCounting).AllRecorded := by
  intro cfg hcfg hentry no hno _
  have hno0 : no = 0 := by
    simp only [sample, List.mem_cons, List.not_mem_nil, or_false] at hcfg
    obtain rfl | rfl | rfl | rfl := hcfg
    · cases hno
      rfl
    · cases hentry
    · cases hentry
    · cases hentry
  subst hno0
  refine ⟨rfl, .inr ⟨.stmt _, List.mem_singleton.mpr rfl, .write,
    .expr (.storageVariable (.storageRef false) 0), ?_, rfl⟩⟩
  have hexpr : Sema.Seen (.stmt (.expression sampleIncrement)) .read (.expr sampleIncrement) :=
    .walked .root (List.mem_singleton.mpr rfl)
  exact .target hexpr (List.mem_singleton.mpr rfl)

/-- The contract is deployed, `f` is called, and a second deployment fails. -/
theorem protocol_sample :
    ((sample sampleCounting).run (fun _ => "")
        [sampleMachine 2, sampleMachine 1, sampleMachine 2] fun _ => 0).map (·.succeeded) =
      [true, true, false] ∧
    (sample sampleCounting).Protocol ((sample sampleCounting).run (fun _ => "")
      [sampleMachine 2, sampleMachine 1, sampleMachine 2] fun _ => 0) := by
  refine ⟨by decide, protocol_run _ _ (by decide) allRecorded_sampleCounting _ ?_ _ (by decide)⟩
  intro m hm
  simp only [List.mem_cons, List.not_mem_nil, or_false] at hm
  obtain rfl | rfl | rfl := hm <;> exact keepsMagic_sampleMachine _

end Contract

end Solang.Codegen.Solana
