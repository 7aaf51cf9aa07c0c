import Solang.Codegen.Expression
import Solang.Lib.Runs

/-!
# Control flow graphs

`Instr`, `BasicBlock` and `ControlFlowGraph` of `codegen/cfg.rs`, the edges
`successors` reads off a block's last instruction, and paths along them.
-/

namespace Solang.Codegen

/-- `IndexMap` and `HashMap`: entries with distinct keys. -/
abbrev IndexMap (κ ν : Type) := AList (fun _ : κ => ν)

inductive ExternalCallAccounts where
  | present (expr : Expression)
  | noAccount
  | absentArgument

inductive InternalCallTy where
  | static (cfgNo : Nat)
  | dynamic (expr : Expression)
  | builtin (astFuncNo : Nat)
  | hostFunction (name : String)

inductive ReturnCode where
  | success
  | functionSelectorInvalid
  | abiEncodingInvalid
  | invalidDataError
  | accountDataTooSmall
  | invalidProgramId
  deriving DecidableEq

inductive Instr where
  | set (res : Nat) (expr : Expression)
  | call (res : List Nat) (returnTys : List Ty) (call : InternalCallTy) (args : List Expression)
  | return (value : List Expression)
  | branch (block : Nat)
  | branchCond (cond : Expression) (trueBlock falseBlock : Nat)
  | store (dest data : Expression)
  | assertFailure (encodedArgs : Option Expression)
  | print (expr : Expression)
  | loadStorage (res : Nat) (ty : Ty) (storage : Expression)
  | clearStorage (ty : Ty) (storage : Expression)
  | setStorage (ty : Ty) (value storage : Expression)
  | setStorageBytes (value storage offset : Expression)
  | pushStorage (res : Nat) (ty : Ty) (value : Option Expression) (storage : Expression)
  | popStorage (res : Option Nat) (ty : Ty) (storage : Expression)
  | pushMemory (res : Nat) (ty : Ty) (array : Nat) (value : Expression)
  | popMemory (res : Nat) (ty : Ty) (array : Nat)
  | constructor (success : Option Nat) (res contractNo : Nat) (constructorNo : Option Nat)
      (encodedArgs : Expression) (value : Option Expression) (gas : Expression)
      (salt address seeds : Option Expression) (accounts : ExternalCallAccounts)
  | externalCall (success : Option Nat) (address : Option Expression)
      (accounts : ExternalCallAccounts) (seeds : Option Expression)
      (payload value gas : Expression) (flags : Option Expression)
  | valueTransfer (success : Option Nat) (address value : Expression)
  | selfDestruct (recipient : Expression)
  | emitEvent (eventNo : Nat) (data : Expression) (topics : List Expression)
  | writeBuffer (buf offset value : Expression)
  | memCopy (source destination bytes : Expression)
  | switch (cond : Expression) (cases : List (Expression × Nat)) (default : Nat)
  | nop
  | returnData (data dataLen : Expression)
  | returnCode (code : ReturnCode)
  | unimplemented (reachable : Bool)
  | accountAccess (varNo : Nat) (name : String)

namespace Instr

/-- The variables an instruction assigns, numbered as `set_var` numbers them. -/
def results : Instr → List Nat
  | set res _ | loadStorage res _ _ | pushStorage res _ _ _ | pushMemory res _ _ _
  | popMemory res _ _ | accountAccess res _ => [res]
  | call res _ _ _ => res
  | popStorage res _ _ | externalCall res _ _ _ _ _ _ _ | valueTransfer res _ _ => res.toList
  | constructor success res _ _ _ _ _ _ _ _ _ => res :: success.toList
  | _ => []

/-- The edges out of a block that ends in this instruction; `none` for an
instruction `successors` does not accept as the last one. -/
def targets : Instr → Option (List Nat)
  | branch block => some [block]
  | branchCond _ trueBlock falseBlock => some [trueBlock, falseBlock]
  | switch _ cases default => some (default :: cases.map (·.2))
  | assertFailure _ | selfDestruct _ | returnCode _ | returnData _ _ | .return _
  | unimplemented false => some []
  | _ => none

end Instr

/-- `reaching_definitions::Def`. -/
structure Def where
  blockNo : Nat
  instrNo : Nat
  assignmentNo : Nat
  deriving DecidableEq, Repr

/-- `reaching_definitions::Transfer`. -/
inductive Transfer where
  | gen (d : Def) (varNo : Nat)
  | mod (varNo : Nat)
  | copy (varNo src : Nat)
  | kill (varNo : Nat)
  deriving DecidableEq, Repr

/-- The definitions of each variable, with whether the object was modified in
place since. -/
abbrev VarDefs := IndexMap Nat (IndexMap Def Bool)

structure BasicBlock where
  instr : List Instr
  phis : List Nat := []
  defs : VarDefs := ∅
  loopReachingVariables : List Nat := []
  transfers : List (List Transfer) := []

/-- `successors`; a block whose last instruction is no terminator has none
(the source asserts that this does not happen). -/
def BasicBlock.successors (b : BasicBlock) : List Nat :=
  (b.instr.getLast?.bind Instr.targets).getD []

structure ControlFlowGraph where
  blocks : List BasicBlock

namespace ControlFlowGraph

def block (cfg : ControlFlowGraph) (n : Nat) : BasicBlock :=
  cfg.blocks.getD n ⟨[], [], ∅, [], []⟩

variable {cfg : ControlFlowGraph} {b : Nat}

theorem block_of_lt (h : b < cfg.blocks.length) :
    cfg.block b = cfg.blocks[b] := by
  simp [block, List.getD_eq_getElem?_getD, h]

theorem block_of_le (h : cfg.blocks.length ≤ b) :
    cfg.block b = ⟨[], [], ∅, [], []⟩ := by
  simp [block, List.getD_eq_getElem?_getD, h]

theorem block_set (h : b < cfg.blocks.length) (e : Nat) (new : BasicBlock) :
    (⟨cfg.blocks.set b new⟩ : ControlFlowGraph).block e = if e = b then new else cfg.block e := by
  by_cases he : e = b
  · subst he
    simp [block, List.getD_eq_getElem?_getD, h]
  · rw [if_neg he]
    simp [block, List.getD_eq_getElem?_getD, List.getElem?_set_ne (Ne.symm he)]

theorem block_instr (cfg : ControlFlowGraph) (b : Nat) :
    (cfg.block b).instr = (cfg.blocks.map (·.instr)).getD b [] := by
  simp only [block, List.getD_eq_getElem?_getD, List.getElem?_map]
  cases cfg.blocks[b]? <;> rfl

/-- `cfg.blocks[d.block_no].instr[d.instr_no] = i` -/
def setInstr (cfg : ControlFlowGraph) (d : Def) (i : Instr) : ControlFlowGraph :=
  ⟨cfg.blocks.modify d.blockNo fun block => { block with instr := block.instr.set d.instrNo i }⟩

theorem instr_setInstr (cfg : ControlFlowGraph) (d : Def) (i : Instr) (b n : Nat) :
    ((cfg.setInstr d i).block b).instr[n]? =
      if b = d.blockNo ∧ n = d.instrNo then (cfg.block b).instr[n]?.map fun _ => i
      else (cfg.block b).instr[n]? := by
  unfold setInstr block
  simp only [List.getD_eq_getElem?_getD, List.getElem?_modify]
  by_cases hb : b = d.blockNo
  · subst hb
    cases hblock : cfg.blocks[d.blockNo]? with
    | none => simp
    | some block =>
      by_cases hn : n = d.instrNo
      · subst hn
        simp [List.getElem?_set_self']
        rfl
      · simp [hn, Ne.symm hn]
  · simp [hb, Ne.symm hb]

/-- `e` can be executed right after `b`. -/
def Edge (cfg : ControlFlowGraph) (b e : Nat) : Prop := e ∈ (cfg.block b).successors

/-- The assertions of `successors` and the indexing of `cfg.blocks` succeed:
there is an entry block, every block ends in its only terminator, and every
edge leads to a block. -/
structure WellFormed (cfg : ControlFlowGraph) : Prop where
  entry : 0 < cfg.blocks.length
  last : ∀ b < cfg.blocks.length, ((cfg.block b).instr.getLast?.bind Instr.targets).isSome
  only : ∀ b < cfg.blocks.length, ∀ i ∈ (cfg.block b).instr.dropLast, i.targets = none
  edge : ∀ b < cfg.blocks.length, ∀ e ∈ (cfg.block b).successors, e < cfg.blocks.length

/-- `Path cfg b bs`: execution can run through the blocks `bs` from the entry
and then enter `b`. -/
inductive Path (cfg : ControlFlowGraph) : Nat → List Nat → Prop where
  | entry : Path cfg 0 []
  | step {b e : Nat} {bs : List Nat} : Path cfg b bs → cfg.Edge b e → Path cfg e (bs ++ [b])

theorem Path.lt (wf : cfg.WellFormed) {bs : List Nat} (h : Path cfg b bs) : b < cfg.blocks.length := by
  induction h with
  | entry => exact wf.entry
  | step _ he ih => exact wf.edge _ ih _ he

end ControlFlowGraph

end Solang.Codegen

/-!
## Runs of a control flow graph

A run visits the instructions of the blocks one after the other. It is
observed through its trace: the instructions visited, other than assignments
to temporaries of the lowering, the outcome of each condition, and how the run
ended. The outcome of a condition is an arbitrary function of the trace so
far, so that a result for all of them covers every meaning of the instructions.
-/

namespace Solang.Codegen

inductive Event where
  | visit (i : Instr)
  | decide (outcome : Bool)
  | returned
  | halted

abbrev Trace := List Event

/-- The outcomes of conditions, and the first variable that is a temporary. -/
structure Oracle where
  choose : Trace → Bool
  lim : Nat

namespace Oracle

/-- Assignments to temporaries are not observed. -/
def visible (o : Oracle) : Instr → Bool
  | .set res _ => res < o.lim
  | _ => true

def visit (o : Oracle) (i : Instr) (t : Trace) : Trace :=
  if o.visible i then t ++ [.visit i] else t

def visitAll (o : Oracle) (is : List Instr) (t : Trace) : Trace :=
  is.foldl (fun t i => o.visit i t) t

/-- The trace after a condition was decided. -/
def decided (o : Oracle) (t : Trace) : Trace := t ++ [.decide (o.choose t)]

end Oracle

inductive Position where
  | at (block instr : Nat)
  | done
  deriving DecidableEq

def endEvent : Instr → Event
  | .return _ => .returned
  | _ => .halted

/-- One instruction; `none` when the run is over or there is no instruction.
The lowering of statements makes no `Switch`, which is not followed. -/
def step (cfg : ControlFlowGraph) (o : Oracle) : Position × Trace → Option (Position × Trace)
  | (.done, _) => none
  | (.at b k, t) =>
    match (cfg.block b).instr[k]? with
    | none => none
    | some (.branch block) => some (.at block 0, t)
    | some (.branchCond _ trueBlock falseBlock) =>
      some (.at (if o.choose t then trueBlock else falseBlock) 0, o.decided t)
    | some i =>
      match i.targets with
      | none => some (.at b (k + 1), o.visit i t)
      | some [] => some (.done, t ++ [endEvent i])
      | some (_ :: _) => none

/-! ### Steps -/

variable {cfg : ControlFlowGraph} {o : Oracle}

theorem step_straight {b k : Nat} {t : Trace} {i : Instr} (hk : (cfg.block b).instr[k]? = some i)
    (hi : i.targets = none) : step cfg o (.at b k, t) = some (.at b (k + 1), o.visit i t) := by
  rw [step, hk]
  cases i <;> first | rfl | simp_all [Instr.targets]

variable {q r : Position × Trace}

/-- What a step can do. -/
theorem step_cases (h : step cfg o q = some r) :
    ∃ b k i, q.1 = .at b k ∧ (cfg.block b).instr[k]? = some i ∧
      ((∃ e, i = .branch e ∧ r = (.at e 0, q.2)) ∨
        (∃ c e f, i = .branchCond c e f ∧
          r = (.at (if o.choose q.2 then e else f) 0, o.decided q.2)) ∨
        (i.targets = none ∧ r = (.at b (k + 1), o.visit i q.2)) ∨
        (i.targets = some [] ∧ r = (.done, q.2 ++ [endEvent i]))) := by
  obtain ⟨p, t⟩ := q
  cases p with
  | done => cases h
  | «at» b k =>
    simp only [step] at h
    cases hi : (cfg.block b).instr[k]? with
    | none => simp [hi] at h
    | some i =>
      refine ⟨b, k, i, rfl, hi, ?_⟩
      rw [hi] at h
      cases i with
      | unimplemented r => cases r <;> simp_all [Instr.targets]
      | _ => simp_all [Instr.targets]

theorem length_le_of_step (h : step cfg o q = some r) :
    q.2.length ≤ r.2.length := by
  obtain ⟨b, k, i, -, -, ⟨e, -, rfl⟩ | ⟨c, e, f, -, rfl⟩ | ⟨-, rfl⟩ | ⟨-, rfl⟩⟩ := step_cases h
  · simp
  · simp [Oracle.decided]
  · simp only [Oracle.visit]
    split <;> simp
  · simp

theorem length_le_of_stepsN {n : Nat} (h : Runs.StepsN (step cfg o) n q r) :
    q.2.length ≤ r.2.length := by
  induction h with
  | refl => exact Nat.le_refl _
  | step hs _ ih => exact (length_le_of_step hs).trans ih

/-- A run depends only on the outcomes of the conditions it decides. -/
theorem stepsN_congr {u : Oracle} {n : Nat} (h : Runs.StepsN (step cfg o) n q r)
    (hl : u.lim = o.lim) (hc : ∀ t, t.length < r.2.length → u.choose t = o.choose t) :
    Runs.StepsN (step cfg u) n q r := by
  induction h with
  | refl => exact .refl _
  | @step n q q' r hs hr ih =>
    refine .step ?_ (ih hc)
    have hle := length_le_of_stepsN hr
    obtain ⟨b, k, i, hq, hi, hcase⟩ := step_cases hs
    obtain ⟨p, t⟩ := q
    obtain rfl : p = .at b k := hq
    rw [← hs, step, step, hi]
    obtain ⟨e, rfl, rfl⟩ | ⟨c, e, f, rfl, rfl⟩ | ⟨ht, rfl⟩ | ⟨ht, rfl⟩ := hcase
    · rfl
    · have hch := hc t (by simp [Oracle.decided] at hle; omega)
      simp [Oracle.decided, hch]
    · have hv : u.visit i t = o.visit i t := by
        cases i <;> simp [Oracle.visit, Oracle.visible, hl]
      cases i <;> simp_all [Instr.targets]
    · cases i <;> simp_all [Instr.targets]

/-- The instructions at the start of a block are visited one by one. -/
theorem stepsN_straight {b k : Nat} {t : Trace} (hk : k ≤ (cfg.block b).instr.length)
    (hi : ∀ i ∈ (cfg.block b).instr.take k, i.targets = none) :
    Runs.StepsN (step cfg o) k (.at b 0, t)
      (.at b k, o.visitAll ((cfg.block b).instr.take k) t) := by
  induction k with
  | zero => exact .refl _
  | succ k ih =>
    have htake := List.take_succ_eq_append_getElem (i := k) hk
    rw [htake] at hi
    have h := ih (by omega) fun i hm => hi i (List.mem_append_left _ hm)
    have hs := step_straight (o := o) (t := o.visitAll ((cfg.block b).instr.take k) t)
      (List.getElem?_eq_getElem hk)
      (hi _ (List.mem_append_right _ (List.mem_singleton_self _)))
    rw [htake, Oracle.visitAll, List.foldl_append]
    exact h.trans (.step hs (.refl _))

end Solang.Codegen
