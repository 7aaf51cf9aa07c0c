import Solang.Codegen.Cfg
import Solang.Lib.Worklist

/-!
# Reaching definitions

`codegen/reaching_definitions.rs`: the transfers of each instruction, how they
act on the definitions of the variables, and the worklist that propagates the
definitions along the edges. `find` takes the order in which the hash set of
pending blocks is drained as a parameter.
-/

namespace Solang.Codegen

namespace IndexMap

variable {κ ν : Type} [DecidableEq κ]

/-- Every value replaced by its image, as a loop over `values_mut` does. -/
def mapValues (f : ν → ν) (m : IndexMap κ ν) : IndexMap κ ν where
  entries := m.entries.map fun e => ⟨e.1, f e.2⟩
  nodupKeys := by
    have h := m.nodupKeys
    unfold List.NodupKeys List.keys at h ⊢
    simpa [Function.comp_def] using h

/-- `PartialEq` of maps: as many entries, and each found in the other one. -/
def beq (eqv : ν → ν → Bool) (a b : IndexMap κ ν) : Bool :=
  a.entries.length == b.entries.length &&
    a.entries.all fun e =>
      match b.lookup e.1 with
      | some w => eqv e.2 w
      | none => false

end IndexMap

namespace ReachingDefinitions

/-! ## Transfers -/

/-- The closure `set_var`: kill every assigned variable, then define each one. -/
def setVar (blockNo instrNo : Nat) (varNos : List Nat) : List Transfer :=
  varNos.reverse.map .kill ++
    varNos.zipIdx.map fun p => .gen ⟨blockNo, instrNo, p.2⟩ p.1

def arrayVar : Expression → Option Nat
  | .variable _ varNo => some varNo
  | .binary (.subscript _ _) expr _ => arrayVar expr
  | .unary (.structMember _ _) expr => arrayVar expr
  | _ => none

/-- The transfers of the instruction at `instrNo` of block `blockNo`. -/
def instrTransfer (blockNo instrNo : Nat) : Instr → List Transfer
  | .set res (.variable _ src) => [.kill res, .copy res src]
  | .set res _ => setVar blockNo instrNo [res]
  | .call res _ _ _ => setVar blockNo instrNo res
  | .loadStorage res _ _ | .popStorage (some res) _ _ => setVar blockNo instrNo [res]
  | .pushMemory res _ array _ => setVar blockNo instrNo [res] ++ [.mod array]
  | .popMemory _ _ array => [.mod array]
  | .externalCall (some res) _ _ _ _ _ _ _ | .constructor none res _ _ _ _ _ _ _ _ _
  | .valueTransfer (some res) _ _ => setVar blockNo instrNo [res]
  | .clearStorage _ dest | .setStorageBytes _ dest _ | .setStorage _ _ dest | .store dest _ =>
    (arrayVar dest).toList.map .mod
  | .constructor (some success) res _ _ _ _ _ _ _ _ _ => setVar blockNo instrNo [res, success]
  | _ => []

def instrTransfers (blockNo : Nat) (block : BasicBlock) : List (List Transfer) :=
  block.instr.zipIdx.map fun p => instrTransfer blockNo p.2 p.1

def applyTransfer (vars : VarDefs) : Transfer → VarDefs
  | .kill varNo => vars.erase varNo
  | .mod varNo =>
    match vars.lookup varNo with
    | some entry => vars.insert varNo (IndexMap.mapValues (fun _ => true) entry)
    | none => vars
  | .copy varNo src =>
    match vars.lookup src with
    | some defs => vars.insert varNo defs
    | none => vars
  | .gen d varNo =>
    match vars.lookup varNo with
    | some entry => vars.insert varNo (entry.insert d false)
    | none => vars.insert varNo ((∅ : IndexMap Def Bool).insert d false)

def applyTransfers (transfers : List Transfer) (vars : VarDefs) : VarDefs :=
  transfers.foldl applyTransfer vars

/-- The definitions at the end of a block. -/
def leave (block : BasicBlock) (vars : VarDefs) : VarDefs :=
  block.transfers.foldl (fun vars transfers => applyTransfers transfers vars) vars

/-! ## Merging along an edge -/

/-- Merge one incoming definition; the flag is the source's `changed`. -/
def mergeDef (r : IndexMap Def Bool × Bool) (incoming : Sigma fun _ : Def => Bool) :
    IndexMap Def Bool × Bool :=
  match r.1.lookup incoming.1 with
  | some e => if !e && incoming.2 then (r.1.insert incoming.1 true, true) else r
  | none => (r.1.insert incoming.1 incoming.2, true)

def mergeDefs (entry incoming : IndexMap Def Bool) : IndexMap Def Bool × Bool :=
  incoming.entries.foldl mergeDef (entry, false)

/-- A definition of `varNo` from a block executed later reaches `edge`. -/
def markLoop (edge varNo : Nat) (r : BasicBlock × Bool) (d : Def) : BasicBlock × Bool :=
  if d.blockNo ≥ edge then
    ({ r.1 with loopReachingVariables := r.1.loopReachingVariables.insert varNo },
      r.2 || !r.1.loopReachingVariables.contains varNo)
  else r

def mergeVar (edge : Nat) (r : BasicBlock × Bool)
    (incoming : Sigma fun _ : Nat => IndexMap Def Bool) : BasicBlock × Bool :=
  let merged :=
    match r.1.defs.lookup incoming.1 with
    | some entry =>
      let m := mergeDefs entry incoming.2
      ({ r.1 with defs := r.1.defs.insert incoming.1 m.1 }, r.2 || m.2)
    | none => ({ r.1 with defs := r.1.defs.insert incoming.1 incoming.2 }, true)
  incoming.2.entries.foldl (fun r e => markLoop edge incoming.1 r e.1) merged

/-- Merge the set `vars` into the block `edge`, unless it holds exactly that. -/
def mergeInto (edge : Nat) (vars : VarDefs) (block : BasicBlock) : BasicBlock × Bool :=
  if IndexMap.beq (IndexMap.beq (· == ·)) block.defs vars then (block, false)
  else vars.entries.foldl (mergeVar edge) (block, false)

/-! ## The worklist -/

def mergeEdge (vars : VarDefs) (r : ControlFlowGraph × List Nat) (edge : Nat) :
    ControlFlowGraph × List Nat :=
  let m := mergeInto edge vars (r.1.block edge)
  (⟨r.1.blocks.set edge m.1⟩, if m.2 then edge :: r.2 else r.2)

/-- The body of the loop: propagate the definitions that leave `blockNo`, and
queue the blocks that changed. -/
def visit (blockNo : Nat) (cfg : ControlFlowGraph) : ControlFlowGraph × List Nat :=
  let vars := leave (cfg.block blockNo) (cfg.block blockNo).defs
  (cfg.block blockNo).successors.foldl (mergeEdge vars) (cfg, [])

/-- The per-instruction transfers, calculated before the loop. -/
def withTransfers (cfg : ControlFlowGraph) : ControlFlowGraph :=
  ⟨cfg.blocks.zipIdx.map fun p => { p.1 with transfers := instrTransfers p.2 p.1 }⟩

def find (pick : Nat → List Nat → Nat) (fuel : Nat) (cfg : ControlFlowGraph) :
    Option ControlFlowGraph :=
  Worklist.run pick visit fuel [0] (withTransfers cfg)

end ReachingDefinitions

end Solang.Codegen
