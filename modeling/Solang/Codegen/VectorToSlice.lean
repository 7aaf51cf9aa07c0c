import Solang.Codegen.Accounts.Collection
import Solang.Codegen.ReachingPaths

/-!
# Vectors that become slices

`codegen/vector_to_slice.rs`. A definition that allocates a vector with constant contents becomes a
slice of the constant, unless an instruction writes to an object of that definition. Which objects
an instruction writes to is read off the reaching definitions.
-/

namespace Solang.Codegen.VectorToSlice

open ReachingDefinitions (instrTransfers)
open Accounts (ASTFunction)

/-! ## Definitions that are written to -/

/-- The reaching definitions at an instruction, and the definitions written to so far. -/
structure State where
  vars : VarDefs
  writable : List Def

/-- `writable.extend(entry.keys())` for the entry of `varNo` -/
def State.write (s : State) (varNo : Nat) : State :=
  match s.vars.lookup varNo with
  | some entry => { s with writable := entry.keys ++ s.writable }
  | none => s

/-- Only an operand that is a variable is looked at. -/
def State.writeOperand (s : State) : Expression → State
  | .variable _ varNo => s.write varNo
  | _ => s

def applyTransfer (s : State) : Transfer → State
  | .mod varNo =>
    { s.write varNo with vars := ReachingDefinitions.applyTransfer s.vars (.mod varNo) }
  | transfer => { s with vars := ReachingDefinitions.applyTransfer s.vars transfer }

def applyTransfers (transfers : List Transfer) (s : State) : State :=
  transfers.foldl applyTransfer s

/-- One instruction of `find_writable_vectors` -/
def findWritable (s : State) : Instr × List Transfer → State
  | (.set res (.variable _ varNo), transfers) =>
    match s.vars.lookup varNo with
    | some defs =>
      let s := applyTransfers transfers s
      { s with vars := s.vars.insert res defs }
    | none => applyTransfers transfers s
  | (.return args, transfers) | (.call _ _ _ args, transfers) =>
    applyTransfers transfers (args.foldl State.writeOperand s)
  | (.pushMemory _ _ _ value, transfers) => applyTransfers transfers (s.writeOperand value)
  | (.store _ data, transfers) => applyTransfers transfers (s.writeOperand data)
  | (.memCopy _ buf _, transfers) | (.writeBuffer buf _ _, transfers) =>
    applyTransfers transfers (s.writeOperand buf)
  | (_, transfers) => applyTransfers transfers s

def findWritableVectors (block : BasicBlock) (s : State) : State :=
  (block.instr.zip block.transfers).foldl findWritable s

/-- The definitions that the instructions of the blocks write to -/
def writable (cfg : ControlFlowGraph) : List Def :=
  cfg.blocks.foldl (fun writable block => (findWritableVectors block ⟨block.defs, writable⟩).writable) []

/-! ## The update -/

def isAllocation : Instr → Bool
  | .set _ (.unary (.allocDynamicBytes _ _) _) => true
  | _ => false

/-- The allocations that are not written to -/
def candidates (writable : List Def) (cfg : ControlFlowGraph) : List Def :=
  cfg.blocks.zipIdx.flatMap fun block =>
    block.1.instr.zipIdx.filterMap fun instr =>
      let cur : Def := ⟨block.2, instr.2, 0⟩
      if isAllocation instr.1 ∧ cur ∉ writable then some cur else none

/-- Where one definition of a phi is not updated, none of them is. -/
def checkPhi (defs : VarDefs) (toBeUpdated : List Def) (phi : Nat) : List Def :=
  match defs.lookup phi with
  | some entry =>
    if entry.keys.any (· ∉ toBeUpdated) then toBeUpdated.filter (· ∉ entry.keys) else toBeUpdated
  | none => toBeUpdated

def checkPhis (cfg : ControlFlowGraph) (toBeUpdated : List Def) : List Def :=
  cfg.blocks.foldl (fun toBeUpdated block => block.phis.foldl (checkPhi block.defs) toBeUpdated) toBeUpdated

/-- Whether each variable of each function is a slice: the field `slice` in the symbol tables of
the namespace -/
abbrev SymbolTables := List (IndexMap Nat Bool)

/-- `ns.functions[function_no].symtable.vars.get_mut(&res)`, set to be a slice -/
def markSlice (functionNo : ASTFunction) (res : Nat) (ns : SymbolTables) : SymbolTables :=
  match functionNo with
  | .solidityFunction no =>
    ns.modify no fun vars => if res ∈ vars then vars.insert res true else vars
  | _ => ns

def slice : Ty := .slice (.bytes 1)

/-- Only an allocation with an initializer becomes a slice. -/
def updateDef (functionNo : ASTFunction) (r : ControlFlowGraph × SymbolTables) (d : Def) :
    ControlFlowGraph × SymbolTables :=
  match (r.1.block d.blockNo).instr[d.instrNo]? with
  | some (.set res (.unary (.allocDynamicBytes _ (some bs)) len)) =>
    (r.1.setInstr d (.set res (.unary (.allocDynamicBytes slice (some bs)) len)),
      markSlice functionNo res r.2)
  | _ => r

/-- The definitions that are updated are all in one set; the order is that of the program. -/
def updateVectorsToSlice (writable : List Def) (functionNo : ASTFunction) (cfg : ControlFlowGraph)
    (ns : SymbolTables) : ControlFlowGraph × SymbolTables :=
  (checkPhis cfg (candidates writable cfg)).foldl (updateDef functionNo) (cfg, ns)

def vectorToSlice (functionNo : ASTFunction) (cfg : ControlFlowGraph) (ns : SymbolTables) :
    ControlFlowGraph × SymbolTables :=
  updateVectorsToSlice (writable cfg) functionNo cfg ns

/-- The pass turned the definition `d` into a slice. -/
def TurnsIntoSlice (functionNo : ASTFunction) (cfg : ControlFlowGraph) (ns : SymbolTables) (d : Def) : Prop :=
  ∃ res ty bs len, d.assignmentNo = 0 ∧ ty ≠ slice ∧
    (cfg.block d.blockNo).instr[d.instrNo]? = some (.set res (.unary (.allocDynamicBytes ty (some bs)) len)) ∧
    ((vectorToSlice functionNo cfg ns).1.block d.blockNo).instr[d.instrNo]? =
      some (.set res (.unary (.allocDynamicBytes slice (some bs)) len))

/-! ## What is updated -/

variable {cfg : ControlFlowGraph} {functionNo : ASTFunction}

theorem mem_candidates {writable : List Def} {d : Def} (h : d ∈ candidates writable cfg) :
    d.assignmentNo = 0 ∧ d ∉ writable := by
  unfold candidates at h
  obtain ⟨block, -, h⟩ := List.mem_flatMap.mp h
  obtain ⟨instr, -, h⟩ := List.mem_filterMap.mp h
  obtain ⟨⟨-, hw⟩, hd⟩ := Option.ite_none_right_eq_some.mp h
  cases hd
  exact ⟨rfl, hw⟩

theorem checkPhi_subset (defs : VarDefs) (toBeUpdated : List Def) (phi : Nat) :
    checkPhi defs toBeUpdated phi ⊆ toBeUpdated := by
  unfold checkPhi
  split
  · split
    · exact List.filter_subset_self _
    · exact List.Subset.refl _
  · exact List.Subset.refl _

theorem subset_foldl {α β : Type} {f : List α → β → List α} (hf : ∀ s b, f s b ⊆ s) (bs : List β)
    (s : List α) : bs.foldl f s ⊆ s := by
  induction bs generalizing s with
  | nil => exact List.Subset.refl _
  | cons b bs ih => exact List.Subset.trans (ih (f s b)) (hf s b)

theorem checkPhis_subset (cfg : ControlFlowGraph) (toBeUpdated : List Def) :
    checkPhis cfg toBeUpdated ⊆ toBeUpdated := by
  unfold checkPhis
  exact subset_foldl (fun s block => subset_foldl (checkPhi_subset block.defs) block.phis s) cfg.blocks _

/-- An instruction that changes is the definition of an object that is updated. -/
theorem mem_of_instr_ne {ds : List Def} {r : ControlFlowGraph × SymbolTables} {b n : Nat}
    (h : ((ds.foldl (updateDef functionNo) r).1.block b).instr[n]? ≠ (r.1.block b).instr[n]?) :
    ∃ d ∈ ds, d.blockNo = b ∧ d.instrNo = n := by
  induction ds generalizing r with
  | nil => exact absurd rfl h
  | cons d ds ih =>
    by_cases hd : d.blockNo = b ∧ d.instrNo = n
    · exact ⟨d, .head _, hd⟩
    have hsame : ((updateDef functionNo r d).1.block b).instr[n]? = (r.1.block b).instr[n]? := by
      unfold updateDef
      split
      · rw [ControlFlowGraph.instr_setInstr, if_neg fun ⟨hb, hn⟩ => hd ⟨hb.symm, hn.symm⟩]
      · rfl
    rw [List.foldl_cons, ← hsame] at h
    obtain ⟨d', hm, hd'⟩ := ih h
    exact ⟨d', .tail _ hm, hd'⟩

/-- A definition that is written to stays as it is. -/
theorem not_mem_writable_of_turnsIntoSlice {ns : SymbolTables} {d : Def}
    (h : TurnsIntoSlice functionNo cfg ns d) : d ∉ writable cfg := by
  obtain ⟨res, ty, bs, len, h0, hty, hbefore, hafter⟩ := h
  have hne : ((vectorToSlice functionNo cfg ns).1.block d.blockNo).instr[d.instrNo]? ≠
      (cfg.block d.blockNo).instr[d.instrNo]? := by
    rw [hbefore, hafter]
    intro he
    cases he
    exact hty rfl
  obtain ⟨d', hm, hb, hn⟩ := mem_of_instr_ne hne
  obtain ⟨h0', hw⟩ := mem_candidates (checkPhis_subset _ _ hm)
  obtain rfl : d' = d := by
    cases d
    cases d'
    simp_all
  exact hw

end Solang.Codegen.VectorToSlice

/-!
## Slices are only read

In a run every variable may hold an object that a definition of the graph allocated with constant
contents. Objects move with assignments, and instructions write to them or pass them to where a
vector is required. The definitions that the pass finds to be written to are complete as long as
objects are named by variables: not by a cast, an address or a member of a literal.
-/

namespace Solang.Codegen.VectorToSlice

open ReachingDefinitions ControlFlowGraph

/-! ### Objects in a run -/

/-- The variable whose object the value of an expression is, or points into. A cast between `bytes`
and `string` is the same object. -/
def base : Expression → Option Nat
  | .variable _ varNo => some varNo
  | .unary (.cast _) e | .unary (.zeroExt _) e | .unary (.signExt _) e | .unary (.trunc _) e
  | .unary .vectorData e | .unary (.structMember _ _) e => base e
  | .binary .advancePointer e _ | .binary (.subscript _ _) e _ => base e
  | _ => none

/-- The expressions whose values become part of a struct or an array in memory -/
def members : Expression → List Expression
  | .unary _ e => members e
  | .binary _ left right => members left ++ members right
  | .nary op args =>
    (match op with | .structLiteral _ | .arrayLiteral _ _ => args | _ => []) ++ args.flatMap members
  | _ => []

def accountsOperands : ExternalCallAccounts → List Expression
  | .present e => [e]
  | _ => []

/-- The expressions that an instruction evaluates -/
def operands : Instr → List Expression
  | .set _ e | .print e | .loadStorage _ _ e | .clearStorage _ e | .popStorage _ _ e | .pushMemory _ _ _ e
  | .branchCond e _ _ | .selfDestruct e => [e]
  | .call _ _ (.dynamic e) args => e :: args
  | .call _ _ _ args => args
  | .return value => value
  | .store e f | .setStorage _ e f | .valueTransfer _ e f | .returnData e f => [e, f]
  | .setStorageBytes e f g | .writeBuffer e f g | .memCopy e f g => [e, f, g]
  | .assertFailure e => e.toList
  | .pushStorage _ _ value storage => value.toList ++ [storage]
  | .constructor _ _ _ _ args value gas salt address seeds accounts =>
    [args, gas] ++ value.toList ++ salt.toList ++ address.toList ++ seeds.toList ++ accountsOperands accounts
  | .externalCall _ address accounts seeds payload value gas flags =>
    address.toList ++ accountsOperands accounts ++ seeds.toList ++ [payload, value, gas] ++ flags.toList
  | .emitEvent _ data topics => data :: topics
  | .switch cond cases _ => cond :: cases.map (·.1)
  | .branch _ | .popMemory _ _ _ | .nop | .returnCode _ | .unimplemented _ | .accountAccess _ _ => []

/-- The addresses at which an instruction writes to memory -/
def written : Instr → List Expression
  | .store dest _ => [dest]
  | .memCopy _ destination _ => [destination]
  | .writeBuffer buf _ _ => [buf]
  | .pushMemory _ ty array _ | .popMemory _ ty array => [.variable ty array]
  | _ => []

/-- The operands that must be vectors: "call and return do not take slices", and neither do the
objects in memory. -/
def vectors : Instr → List Expression
  | .return value => value
  | .call _ _ _ args => args
  | .store _ data => [data]
  | .pushMemory _ _ _ value => [value]
  | _ => []

/-- A definition that allocates an object with constant contents; no other one becomes a slice. -/
def isConstant : Instr → Bool
  | .set _ (.unary (.allocDynamicBytes _ (some _)) _) => true
  | _ => false

/-- The definition of the object that each variable holds, if a definition of the graph allocated
it with constant contents. An object that comes back out of memory or from a call was passed there
as a vector. -/
abbrev Held := Nat → Option Def

def objectOf (held : Held) (e : Expression) : Option Def := (base e).bind held

def after (blockNo instrNo : Nat) (i : Instr) (held : Held) : Held := fun v =>
  match i with
  | .set res e =>
    if v = res then if isConstant i then some ⟨blockNo, instrNo, 0⟩ else objectOf held e else held v
  | i => if v ∈ i.results then none else held v

/-- The instruction modifies an object of the definition `d`, or passes it on as a vector. -/
def Writes (held : Held) (i : Instr) (d : Def) : Prop :=
  ∃ e ∈ written i ++ vectors i ++ (operands i).flatMap members, objectOf held e = some d

/-- `Run cfg ok bs b n held`: after the blocks `bs`, execution is at instruction `n` of block `b`,
and every instruction executed met `ok`. -/
inductive Run (cfg : ControlFlowGraph) (ok : Held → Instr → Prop) : List Nat → Nat → Nat → Held → Prop where
  | entry : Run cfg ok [] 0 0 fun _ => none
  | next {bs : List Nat} {b n : Nat} {held : Held} {i : Instr} : Run cfg ok bs b n held →
      (cfg.block b).instr[n]? = some i → ok held i → Run cfg ok bs b (n + 1) (after b n i held)
  | edge {bs : List Nat} {b e : Nat} {held : Held} : Run cfg ok bs b (cfg.block b).instr.length held →
      cfg.Edge b e → Run cfg ok (bs ++ [b]) e 0 held

/-! ### Instructions that name objects by variables -/

def IsVariable (e : Expression) : Prop := ∃ ty v, e = .variable ty v

structure Direct (held : Held) (i : Instr) : Prop where
  /-- An object is assigned from another variable. -/
  copied : ∀ res e, i = .set res e → objectOf held e ≠ none → ∃ ty v, e = .variable ty v ∧ v ≠ res
  /-- An object that is copied into, written to or required to be a vector is named by a variable. -/
  named : ∀ e ∈ vectors i, objectOf held e ≠ none → IsVariable e
  buffer : ∀ e ∈ written i, (∀ dest data, i ≠ .store dest data) → objectOf held e ≠ none → IsVariable e
  /-- The destination of a `Store` is a variable, or an element or a member of it. -/
  stored : ∀ dest data, i = .store dest data → objectOf held dest ≠ none → arrayVar dest = base dest
  /-- No object becomes part of a struct or an array. -/
  literal : ∀ e ∈ (operands i).flatMap members, objectOf held e = none
  /-- The result of a push does not overwrite the array. -/
  pushed : ∀ res ty array value, i = .pushMemory res ty array value → held array ≠ none → array ≠ res

/-! ### Objects and origins -/

section Origins

variable {b n : Nat} {i : Instr} {held orig : Held}

/-- The object of a variable comes from the origin of the variable. -/
def Sourced (held : Held) (orig : Nat → Option Def) : Prop := ∀ v d, held v = some d → orig v = some d

theorem assignmentNo_of_notMem {v : Nat} {vs : List Nat} (h : v ∉ vs) : assignmentNo v vs = none := by
  cases hk : assignmentNo v vs with
  | none => rfl
  | some k => exact absurd (List.fst_mem_of_mem_zipIdx (mem_of_assignmentNo hk)) h

theorem origin_of_notMem {v : Nat} (hv : v ∉ i.results) : origin b n i held v = held v := by
  unfold origin
  split
  · rename_i res ty src
    rw [if_neg (by simpa [Instr.results] using hv)]
  · split
    · rw [assigned, assignmentNo_of_notMem hv]
    · rfl

theorem origin_of_constant {res : Nat} {e : Expression} (ha : isConstant (.set res e)) :
    origin b n (.set res e) held res = some ⟨b, n, 0⟩ := by
  cases e with
  | unary op e => simp [origin, tracked, assigned, assignmentNo, Instr.results]
  | _ => cases ha

theorem sourced_after (hd : Direct held i) : Sourced (after b n i held) (origin b n i held) := by
  intro v d hv
  unfold after at hv
  split at hv
  · rename_i res e
    by_cases hres : v = res
    · subst hres
      rw [if_pos rfl] at hv
      split at hv
      · rename_i ha
        rw [origin_of_constant ha, hv]
      · obtain ⟨ty, src, rfl, hsrc⟩ := hd.copied v e rfl (by simp [hv])
        simpa [origin, hsrc, objectOf, base] using hv
    · rw [if_neg hres] at hv
      rw [origin_of_notMem (by simpa [Instr.results] using hres), hv]
  · split at hv
    · cases hv
    · rename_i hres
      rw [origin_of_notMem hres, hv]

theorem origin_mono (h : Sourced held orig) : Sourced (origin b n i held) (origin b n i orig) := by
  intro v d hv
  unfold origin at hv ⊢
  split at hv
  · split at hv
    · rename_i hres
      rw [if_pos hres]
      split at hv
      · cases hv
      · rename_i hsrc
        rw [if_neg hsrc]
        exact h _ d hv
    · rename_i hres
      rw [if_neg hres]
      exact h v d hv
  · split at hv
    · rename_i ht
      rw [if_pos ht]
      unfold assigned at hv ⊢
      split at hv
      · exact hv
      · exact h v d hv
    · rename_i ht
      rw [if_neg ht]
      split at hv
      · cases hv
      · rename_i hres
        rw [if_neg hres]
        exact h v d hv

end Origins

/-! ### What the pass finds -/

section Marks

variable {s : State} {v : Nat} {d : Def}

@[simp] theorem write_vars (s : State) (v : Nat) : (s.write v).vars = s.vars := by
  unfold State.write
  split <;> rfl

@[simp] theorem writeOperand_vars (s : State) (e : Expression) : (s.writeOperand e).vars = s.vars := by
  unfold State.writeOperand
  split
  · exact write_vars s _
  · rfl

@[simp] theorem writeOperands_vars (args : List Expression) (s : State) :
    (args.foldl State.writeOperand s).vars = s.vars := by
  induction args generalizing s with
  | nil => rfl
  | cons e args ih => rw [List.foldl_cons, ih, writeOperand_vars]

@[simp] theorem applyTransfers_vars (ts : List Transfer) (s : State) :
    (applyTransfers ts s).vars = ReachingDefinitions.applyTransfers ts s.vars := by
  unfold applyTransfers ReachingDefinitions.applyTransfers
  induction ts generalizing s with
  | nil => rfl
  | cons t ts ih =>
    rw [List.foldl_cons, List.foldl_cons, ih]
    cases t <;> rfl

/-- `s'` has found at least what `s` has. -/
def Grows (s s' : State) : Prop := s.writable ⊆ s'.writable

theorem Grows.trans {s s' s'' : State} (h : Grows s s') (h' : Grows s' s'') : Grows s s'' :=
  List.Subset.trans h h'

theorem Grows.foldl {α : Type} {f : State → α → State} (hf : ∀ s a, Grows s (f s a)) (as : List α)
    (s : State) : Grows s (as.foldl f s) := by
  induction as generalizing s with
  | nil => exact List.Subset.refl _
  | cons a as ih => exact (hf s a).trans (ih _)

theorem grows_write (s : State) (v : Nat) : Grows s (s.write v) := by
  unfold State.write
  split
  · exact List.subset_append_right _ _
  · exact List.Subset.refl _

theorem grows_writeOperand (s : State) (e : Expression) : Grows s (s.writeOperand e) := by
  unfold State.writeOperand
  split
  · exact grows_write s _
  · exact List.Subset.refl _

theorem grows_applyTransfers (ts : List Transfer) (s : State) : Grows s (applyTransfers ts s) := by
  refine Grows.foldl (fun s t => ?_) ts s
  cases t with
  | mod v => exact grows_write s v
  | _ => exact List.Subset.refl _

theorem grows_findWritable (s : State) (p : Instr × List Transfer) : Grows s (findWritable s p) := by
  unfold findWritable
  split
  · split
    · exact grows_applyTransfers _ s
    · exact grows_applyTransfers _ s
  · exact (Grows.foldl grows_writeOperand _ s).trans (grows_applyTransfers _ _)
  · exact (Grows.foldl grows_writeOperand _ s).trans (grows_applyTransfers _ _)
  · exact (grows_writeOperand s _).trans (grows_applyTransfers _ _)
  · exact (grows_writeOperand s _).trans (grows_applyTransfers _ _)
  · exact (grows_writeOperand s _).trans (grows_applyTransfers _ _)
  · exact (grows_writeOperand s _).trans (grows_applyTransfers _ _)
  · exact grows_applyTransfers _ s

theorem mem_write (h : Holds s.vars ⟨v, .reaches d⟩) : d ∈ (s.write v).writable := by
  obtain ⟨entry, hl, hd⟩ := h
  unfold State.write
  rw [hl]
  exact List.mem_append_left _ (AList.mem_keys.mp hd)

theorem mem_writeOperands {args : List Expression} {ty : Ty} (he : .variable ty v ∈ args)
    (h : Holds s.vars ⟨v, .reaches d⟩) : d ∈ (args.foldl State.writeOperand s).writable := by
  obtain ⟨before, rest, rfl⟩ := List.append_of_mem he
  rw [List.foldl_append, List.foldl_cons]
  refine Grows.foldl grows_writeOperand rest _ (mem_write ?_)
  rwa [writeOperands_vars]

/-- The objects of a variable that is modified after the transfers `ts` -/
theorem mem_applyTransfers_mod (ts us : List Transfer)
    (h : Holds (ReachingDefinitions.applyTransfers ts s.vars) ⟨v, .reaches d⟩) :
    d ∈ (applyTransfers (ts ++ .mod v :: us) s).writable := by
  unfold applyTransfers
  rw [List.foldl_append, List.foldl_cons]
  refine grows_applyTransfers us _ (mem_write (s := ts.foldl applyTransfer s) ?_)
  rwa [← applyTransfers_vars] at h

end Marks

/-! ### One instruction -/

section Step

variable {s : State} {b n : Nat} {i : Instr} {held : Held} {d : Def}

theorem findWritable_vars (hi : ∀ res ty src, i ≠ .set res (.variable ty src)) (ts : List Transfer) :
    (findWritable s (i, ts)).vars = ReachingDefinitions.applyTransfers ts s.vars := by
  unfold findWritable
  split
  · rename_i heq
    cases heq
    exact absurd rfl (hi _ _ _)
  all_goals
    rename_i heq
    cases heq
    simp only [applyTransfers_vars, writeOperands_vars, writeOperand_vars]

theorem covers_findWritable (hc : Covers s.vars held) (hd : Direct held i) :
    Covers (findWritable s (i, instrTransfer b n i)).vars (after b n i held) := by
  by_cases hi : ∃ res ty src, i = .set res (.variable ty src)
  · obtain ⟨res, ty, src, rfl⟩ := hi
    intro v d hv
    have hsteps : findWritable s
        (.set res (.variable ty src), instrTransfer b n (.set res (.variable ty src))) =
        match s.vars.lookup src with
        | some defs =>
          let s := applyTransfers [.kill res, .copy res src] s
          { s with vars := s.vars.insert res defs }
        | none => applyTransfers [.kill res, .copy res src] s := rfl
    rw [hsteps]
    simp only [after, isConstant, Bool.false_eq_true, if_false, objectOf, base, Option.bind_some] at hv
    cases hl : s.vars.lookup src with
    | some defs =>
      rw [holds_insert]
      by_cases hres : v = res
      · rw [if_pos hres] at hv
        obtain ⟨defs', hl', hd'⟩ := hc src d hv
        cases hl.symm.trans hl'
        rw [if_pos hres]
        exact hd'
      · rw [if_neg hres] at hv
        rw [if_neg hres, applyTransfers_vars, holds_assignCopy]
        exact .inr ⟨hres, hc v d hv⟩
    | none =>
      rw [applyTransfers_vars, holds_assignCopy]
      by_cases hres : v = res
      · rw [if_pos hres] at hv
        obtain ⟨defs', hl', -⟩ := hc src d hv
        cases hl.symm.trans hl'
      · rw [if_neg hres] at hv
        exact .inr ⟨hres, hc v d hv⟩
  · rw [findWritable_vars fun res ty src h => hi ⟨res, ty, src, h⟩]
    intro v d hv
    exact covers_origin hc v d (sourced_after hd v d hv)

theorem mem_of_written (hc : Covers s.vars held) (hd : Direct held i) {e : Expression} (he : e ∈ written i)
    (ho : objectOf held e = some d) : d ∈ (findWritable s (i, instrTransfer b n i)).writable := by
  have hvariable : (∀ dest data, i ≠ .store dest data) → ∃ ty v, e = .variable ty v ∧ held v = some d := by
    intro hi
    obtain ⟨ty, v, rfl⟩ := hd.buffer e he hi (by simp [ho])
    exact ⟨ty, v, rfl, ho⟩
  cases i with
  | store dest data =>
    cases List.mem_singleton.mp he
    have hvar := hd.stored e data rfl (by simp [ho])
    obtain ⟨v, hv, hheld⟩ := Option.bind_eq_some_iff.mp ho
    rw [hv] at hvar
    simp only [findWritable, instrTransfer, hvar, Option.toList_some, List.map_cons, List.map_nil]
    refine mem_applyTransfers_mod [] [] ?_
    rw [writeOperand_vars]
    exact hc v d hheld
  | memCopy source destination bytes =>
    cases List.mem_singleton.mp he
    obtain ⟨ty, v, rfl, hv⟩ := hvariable (by simp)
    exact grows_applyTransfers _ _ (mem_write (hc v d hv))
  | writeBuffer buf offset value =>
    cases List.mem_singleton.mp he
    obtain ⟨ty, v, rfl, hv⟩ := hvariable (by simp)
    exact grows_applyTransfers _ _ (mem_write (hc v d hv))
  | pushMemory res ty array value =>
    cases List.mem_singleton.mp he
    have hres : array ∉ [res] := by
      rw [List.mem_singleton]
      exact hd.pushed res ty array value rfl (by simp_all [objectOf, base])
    refine mem_applyTransfers_mod (setVar b n [res]) [] (reaches_setVar_of_notMem hres ?_)
    rw [writeOperand_vars]
    exact hc array d ho
  | popMemory res ty array =>
    cases List.mem_singleton.mp he
    exact mem_applyTransfers_mod [] [] (hc array d ho)
  | _ => cases he

theorem mem_of_vectors (hc : Covers s.vars held) (hd : Direct held i) {e : Expression} (he : e ∈ vectors i)
    (ho : objectOf held e = some d) : d ∈ (findWritable s (i, instrTransfer b n i)).writable := by
  obtain ⟨ty, v, rfl⟩ := hd.named e he (by simp [ho])
  have hv := hc v d ho
  cases i with
  | «return» args => exact grows_applyTransfers _ _ (mem_writeOperands he hv)
  | call res tys callTy args => exact grows_applyTransfers _ _ (mem_writeOperands he hv)
  | store dest data | pushMemory res ty array data =>
    cases List.mem_singleton.mp he
    exact grows_applyTransfers _ _ (mem_write hv)
  | _ => cases he

/-- A definition that the instruction writes to is found. -/
theorem mem_of_writes (hc : Covers s.vars held) (hd : Direct held i) (hw : Writes held i d) :
    d ∈ (findWritable s (i, instrTransfer b n i)).writable := by
  obtain ⟨e, he, ho⟩ := hw
  rcases List.mem_append.mp he with he | he
  · rcases List.mem_append.mp he with he | he
    · exact mem_of_written hc hd he ho
    · exact mem_of_vectors hc hd he ho
  · rw [hd.literal e he] at ho
    cases ho

end Step

/-! ### A run -/

/-- The origins at instruction `n` of block `b`, after the blocks `bs` -/
def originAt (cfg : ControlFlowGraph) (bs : List Nat) (b n : Nat) : Nat → Option Def :=
  ((cfg.block b).instr.zipIdx.take n).foldl (fun o p => origin b p.2 p.1 o) (originAlong cfg bs)

/-- What the pass knows at instruction `n` of block `b` -/
def stateAt (cfg : ControlFlowGraph) (b n : Nat) (writable : List Def) : State :=
  (((cfg.block b).instr.zip (cfg.block b).transfers).take n).foldl findWritable ⟨(cfg.block b).defs, writable⟩

section Runs

variable {cfg cfg' : ControlFlowGraph} {bs : List Nat} {b n M : Nat} {held : Held} {i : Instr}

theorem originAt_succ (hi : (cfg.block b).instr[n]? = some i) :
    originAt cfg bs b (n + 1) = origin b n i (originAt cfg bs b n) := by
  unfold originAt
  rw [List.take_add_one, List.getElem?_zipIdx, hi]
  simp

theorem originAt_length : originAt cfg bs b (cfg.block b).instr.length = originAlong cfg (bs ++ [b]) := by
  unfold originAt originAlong along
  rw [List.take_of_length_le (by simp), List.foldl_append]
  rfl

/-- `find` leaves the instructions as they are, next to their transfers. -/
theorem zip_of_inv (hinv : Inv (withTransfers cfg) M [] cfg') (hb : b < cfg.blocks.length)
    (hi : (cfg.block b).instr[n]? = some i) :
    ((cfg'.block b).instr.zip (cfg'.block b).transfers)[n]? = some (i, instrTransfer b n i) := by
  rw [hinv.code.instr, hinv.code.transfers, block_withTransfers hb]
  simp [List.getElem?_zip_eq_some, instrTransfers, List.getElem?_zipIdx, hi]

theorem stateAt_succ (hinv : Inv (withTransfers cfg) M [] cfg') (hb : b < cfg.blocks.length)
    (hi : (cfg.block b).instr[n]? = some i) (writable : List Def) :
    stateAt cfg' b (n + 1) writable = findWritable (stateAt cfg' b n writable) (i, instrTransfer b n i) := by
  unfold stateAt
  rw [List.take_add_one, zip_of_inv hinv hb hi]
  simp

/-- What the pass knows of the objects that the variables hold -/
structure Known (cfg cfg' : ControlFlowGraph) (bs : List Nat) (b n : Nat) (held : Held) : Prop where
  path : Path cfg b bs
  sourced : Sourced held (originAt cfg bs b n)
  covers : Tracks cfg bs → ∀ writable, Covers (stateAt cfg' b n writable).vars held

theorem known_of_run (hwf : cfg.WellFormed) (hinv : Inv (withTransfers cfg) M [] cfg')
    (h : Run cfg Direct bs b n held) : Known cfg cfg' bs b n held := by
  induction h with
  | entry => exact ⟨.entry, nofun, fun _ _ => nofun⟩
  | next _ hi hd ih =>
    refine ⟨ih.path, ?_, fun ht writable => ?_⟩
    · rw [originAt_succ hi]
      exact fun v d hv => origin_mono ih.sourced v d (sourced_after hd v d hv)
    · rw [stateAt_succ hinv (ih.path.lt hwf) hi]
      exact covers_findWritable (ih.covers ht writable) hd
  | edge _ he ih =>
    have hsourced := ih.sourced
    rw [originAt_length] at hsourced
    have hpath := ih.path.step he
    refine ⟨hpath, hsourced, fun ht writable v d hv => ?_⟩
    exact covers_of_path hwf hinv hpath ht v d (hsourced v d hv)

theorem mem_writable (hinv : Inv (withTransfers cfg) M [] cfg') (hb : b < cfg.blocks.length)
    (hi : (cfg.block b).instr[n]? = some i) {d : Def}
    (h : ∀ w, d ∈ (findWritable (stateAt cfg' b n w) (i, instrTransfer b n i)).writable) :
    d ∈ writable cfg' := by
  have hblock : ∀ w, d ∈ (findWritableVectors (cfg'.block b) ⟨(cfg'.block b).defs, w⟩).writable := by
    intro w
    unfold findWritableVectors
    rw [← List.take_append_drop (n + 1) ((cfg'.block b).instr.zip (cfg'.block b).transfers),
      List.foldl_append]
    refine Grows.foldl grows_findWritable _ _ ?_
    have hw := h w
    rw [← stateAt_succ hinv hb hi] at hw
    exact hw
  have hb' : b < cfg'.blocks.length := by
    rw [hinv.code.length, length_withTransfers]
    exact hb
  rw [block_of_lt hb'] at hblock
  obtain ⟨before, rest, hsplit⟩ := List.append_of_mem (List.getElem_mem hb')
  unfold writable
  rw [hsplit, List.foldl_append, List.foldl_cons]
  generalize before.foldl _ [] = w
  have hd := hblock w
  generalize (findWritableVectors cfg'.blocks[b] _).writable = found at hd
  clear hsplit
  induction rest generalizing found with
  | nil => exact hd
  | cons block rest ih => exact ih _ (Grows.foldl grows_findWritable _ ⟨block.defs, found⟩ hd)

end Runs

/-! ### Results -/

/-- Where every instruction names the objects it copies and writes to by variables, and every block
on the way leaves some variable with a known origin, no instruction writes to an object whose
definition became a slice, and none passes it on as a vector. -/
theorem slice_is_not_written {cfg : ControlFlowGraph} (hwf : cfg.WellFormed) (hfresh : Fresh cfg) :
    ∃ bound, ∀ fuel, bound ≤ fuel → ∀ pick, Worklist.Fair pick →
      ∃ cfg', find pick fuel cfg = some cfg' ∧
        ∀ functionNo ns d, TurnsIntoSlice functionNo cfg' ns d →
          ∀ bs b n held i, Run cfg Direct bs b n held → Tracks cfg bs →
            (cfg.block b).instr[n]? = some i → Direct held i → ¬ Writes held i d := by
  obtain ⟨bound, hbound⟩ := find_total hwf hfresh
  refine ⟨bound, fun fuel hfuel pick hpick => ?_⟩
  obtain ⟨cfg', M, hfind, hinv⟩ := hbound fuel hfuel pick hpick
  refine ⟨cfg', hfind, fun functionNo ns d hslice bs b n held i hrun ht hi hd hw => ?_⟩
  have hknown := known_of_run hwf hinv hrun
  refine not_mem_writable_of_turnsIntoSlice hslice ?_
  exact mem_writable hinv (hknown.path.lt hwf) hi fun w => mem_of_writes (hknown.covers ht w) hd hw

namespace Sample

/-- `string a = "ab"; string b = a; print(b);` -/
def printed : ControlFlowGraph :=
  ⟨[{ instr :=
        [.set 1 (.unary (.allocDynamicBytes .string (some [97, 98])) (.numberLiteral (.uint 32) 2)),
          .set 2 (.variable .string 1), .branch 1] },
    { instr := [.print (.variable .string 2), .return []] }]⟩

def printedFound : ControlFlowGraph := (visit 1 (visit 0 (withTransfers printed)).1).1

theorem find_printed (n : Nat) : find Worklist.first (n + 2) printed = some printedFound := by
  change Worklist.run Worklist.first visit n [] printedFound = some printedFound
  cases n <;> rfl

theorem wellFormed_printed : printed.WellFormed := ⟨by decide, by decide, by decide, by decide⟩

theorem fresh_printed : Fresh printed := by simp [Fresh, printed]

/-- `a` and `b` hold the object at the end. -/
def printedHeld : Held :=
  after 0 2 (.branch 1) (after 0 1 (.set 2 (.variable .string 1)) (after 0 0
    (.set 1 (.unary (.allocDynamicBytes .string (some [97, 98])) (.numberLiteral (.uint 32) 2))) fun _ => none))

theorem direct_print : Direct printedHeld (.print (.variable .string 2)) := by
  constructor <;> simp [vectors, written, operands, members]

theorem run_printed : Run printed Direct [0] 1 0 printedHeld := by
  have h1 : Run printed Direct [] 0 1 _ := .next .entry rfl (by constructor <;>
    simp [vectors, written, operands, members, objectOf])
  have h2 : Run printed Direct [] 0 2 _ := h1.next rfl (by constructor <;>
    simp [vectors, written, operands, members])
  have h3 : Run printed Direct [] 0 3 _ := h2.next rfl (by constructor <;>
    simp [vectors, written, operands])
  exact .edge h3 (show 1 ∈ (printed.block 0).successors by decide)

theorem slice_is_not_written_printed :
    ∃ cfg', TurnsIntoSlice .none cfg' [] ⟨0, 0, 0⟩ ∧ printedHeld 2 = some ⟨0, 0, 0⟩ ∧
      ¬ Writes printedHeld (.print (.variable .string 2)) ⟨0, 0, 0⟩ := by
  obtain ⟨bound, h⟩ := slice_is_not_written wellFormed_printed fresh_printed
  obtain ⟨cfg', hfind, hsound⟩ := h (bound + 2) (by omega) Worklist.first Worklist.fair_first
  cases hfind.symm.trans (find_printed bound)
  have hslice : TurnsIntoSlice .none printedFound [] ⟨0, 0, 0⟩ :=
    ⟨1, .string, [97, 98], _, rfl, by decide, rfl, rfl⟩
  refine ⟨_, hslice, by decide, hsound .none [] _ hslice [0] 1 0 _ _ run_printed ?_ rfl direct_print⟩
  intro k h0 hk
  simp at hk
  omega

/-- `bytes b = hex"00000000"; b.writeBytes(x, 0);`, without the check of the bounds. The destination
of the copy is an address in `b`. -/
def writeBytes : ControlFlowGraph :=
  ⟨[{ instr :=
        [.set 1 (.functionArg .dynamicBytes 0),
          .set 2 (.unary (.allocDynamicBytes .dynamicBytes (some [0, 0, 0, 0])) (.numberLiteral (.uint 32) 4)),
          .memCopy (.variable .dynamicBytes 1)
            (.binary .advancePointer (.variable .dynamicBytes 2) (.numberLiteral (.uint 32) 0))
            (.nary (.builtin [.uint 32] .arrayLength) [.variable .dynamicBytes 1]),
          .return []] }]⟩

def writeBytesFound : ControlFlowGraph := (visit 0 (withTransfers writeBytes)).1

theorem slice_is_written : ¬ ∀ cfg : ControlFlowGraph, cfg.WellFormed → Fresh cfg →
    ∀ pick, Worklist.Fair pick → ∀ fuel cfg', find pick fuel cfg = some cfg' →
      ∀ functionNo ns d, TurnsIntoSlice functionNo cfg' ns d →
        ∀ bs b n held i, Run cfg (fun _ _ => True) bs b n held →
          (cfg.block b).instr[n]? = some i → ¬ Writes held i d := by
  intro h
  have hslice : TurnsIntoSlice .none writeBytesFound [] ⟨0, 1, 0⟩ :=
    ⟨2, .dynamicBytes, [0, 0, 0, 0], _, rfl, by decide, rfl, rfl⟩
  have h1 : Run writeBytes (fun _ _ => True) [] 0 1 _ := .next .entry rfl trivial
  have h2 : Run writeBytes (fun _ _ => True) [] 0 2 _ := h1.next rfl trivial
  refine h writeBytes ⟨by decide, by decide, by decide, by decide⟩ (by simp [Fresh, writeBytes])
    Worklist.first Worklist.fair_first 1 writeBytesFound rfl .none [] _ hslice [] 0 2 _ _ h2 rfl ?_
  exact ⟨_, List.mem_append_left _ (.head _), rfl⟩

end Sample

end Solang.Codegen.VectorToSlice
