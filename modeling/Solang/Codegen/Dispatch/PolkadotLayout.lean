import Solang.Codegen.Dispatch.Polkadot

/-!
# The code of the Polkadot dispatcher

`build_eq` says where the blocks of the dispatcher stand: the entry, the switch
and the default come first, then the cases in the order of the functions, then
the calls of `fallback` and `receive`.
-/

namespace Solang.Codegen.Polkadot

namespace Builder

theorem modify_append (l r : List (List Instruction)) (k : Nat)
    (f : List Instruction → List Instruction) :
    (l ++ r).modify (l.length + k) f = l ++ r.modify k f := by
  apply List.ext_getElem?
  intro i
  by_cases h : i < l.length
  · rw [List.getElem?_modify_ne _ _ (by omega), List.getElem?_append_left h,
      List.getElem?_append_left h]
  · rw [List.getElem?_append_right (by omega), List.getElem?_modify, List.getElem?_modify,
      List.getElem?_append_right (by omega)]
    by_cases hk : l.length + k = i
    · simp [← hk]
    · have : k ≠ i - l.length := by omega
      simp [hk, this]

theorem addInstruction_append {l r : List (List Instruction)} {k v : Nat} {i : Instruction} :
    (⟨l ++ r, l.length + k, v⟩ : Builder).addInstruction i
      = ⟨l ++ r.modify k (· ++ [i]), l.length + k, v⟩ := by
  rw [addInstruction, modify_append]

theorem add_append {l r : List (List Instruction)} {k v : Nat} {i : Instr} :
    (⟨l ++ r, l.length + k, v⟩ : Builder).add i
      = ⟨l ++ r.modify k (· ++ [.instr i]), l.length + k, v⟩ := addInstruction_append

end Builder

namespace Dispatch
variable (d : Dispatch)

/-- `n` variables from `v` on. -/
def vars (v n : Nat) : List Nat := (List.range n).map (v + ·)

theorem nodup_vars (v n : Nat) : (vars v n).Nodup :=
  List.nodup_range.map fun _ _ h => Nat.add_left_cancel h

theorem length_vars (v n : Nat) : (vars v n).length = n := by
  simp [vars]

def logCode (cfg : FunctionCfg) : List Instruction :=
  if d.logRuntimeErrors then
    [.instr (.print (stringToExpr ("runtime_error: non payable " ++ cfg.ty.asStr ++ " "
      ++ (cfg.name.splitOn "::").getLastD "" ++ " received value" ++ ",\n")))]
  else []

def argExprs (cfg : FunctionCfg) (v : Nat) : List Expression :=
  cfg.params.zipWith (fun p x => .variable p.ty x) (vars v cfg.params.length)

def decodeCode (cfg : FunctionCfg) (v : Nat) : List Instruction :=
  if cfg.params.isEmpty then []
  else [.abiDecode (vars v cfg.params.length) d.inputPtr (cfg.params.map (·.abiTy))
    (.unary (.trunc (.uint 32)) (.binary (.subtract (.uint 32) false) inputLen d.selectorLen))]

def returnCode (cfg : FunctionCfg) (v : Nat) : List Instruction :=
  if cfg.returns.isEmpty then [.instr returnNothing]
  else [.abiEncode (v + cfg.returns.length) (v + cfg.returns.length + 1) (cfg.returns.zipWith (fun ty x => Expression.variable ty x) (vars v cfg.returns.length)),
    .instr (.returnData (.variable .dynamicBytes (v + cfg.returns.length)) (.variable (.uint 32) (v + cfg.returns.length + 1)))]

/-- The code of a case behind the check of the value, with variables from `v` on. -/
def bodyCode (funcNo : Nat) (cfg : FunctionCfg) (v : Nat) : List Instruction :=
  let w := v + cfg.params.length
  d.decodeCode cfg v
    ++ .instr (.call (vars w cfg.returns.length) cfg.returns (.static funcNo) (argExprs cfg v))
    :: returnCode cfg w

theorem dispatchCase_fst (funcNo : Nat) (cfg : FunctionCfg) (b : Builder) :
    (d.dispatchCase funcNo cfg b).1 = b.blocks.length := by
  simp only [dispatchCase, Builder.newBasicBlock]
  split <;> rfl

/-- The blocks a case puts before the block of its call. -/
def valueCode (cfg : FunctionCfg) (n : Nat) : List (List Instruction) :=
  if cfg.nonpayable then
    [[.instr (.branchCond d.gotValue (n + 1) (n + 2))],
      d.logCode cfg ++ [.instr (.assertFailure none)]]
  else []

theorem add_last {l : List (List Instruction)} {is : List Instruction} {v : Nat}
    {i : Instruction} :
    (⟨l ++ [is], l.length, v⟩ : Builder).addInstruction i = ⟨l ++ [is ++ [i]], l.length, v⟩ :=
  Builder.addInstruction_append (k := 0)

theorem abortIfValueTransfer_eq (cfg : FunctionCfg) (l : List (List Instruction)) (v : Nat) :
    d.abortIfValueTransfer cfg ⟨l ++ [[]], l.length, v⟩
      = ⟨l ++ d.valueCode cfg l.length ++ [[]], (l ++ d.valueCode cfg l.length).length, v⟩ := by
  cases h : cfg.nonpayable with
  | false => simp [abortIfValueTransfer, valueCode, h]
  | true =>
    have h1 := Builder.add_append (l := l) (r := [[], [], []]) (k := 0) (v := v)
      (i := .branchCond d.gotValue (l.length + 1) (l.length + 2))
    rw [Nat.add_zero] at h1
    cases hl : d.logRuntimeErrors with
    | false =>
    simp [abortIfValueTransfer, h, valueCode, Builder.newBasicBlock, Builder.setBasicBlock, h1, logRuntimeError, hl, Builder.add_append, logCode]
    | true =>
    simp [abortIfValueTransfer, h, valueCode, Builder.newBasicBlock, Builder.setBasicBlock, h1, logRuntimeError, hl, Builder.add_append, logCode]

theorem decodeArguments_eq (cfg : FunctionCfg) (l : List (List Instruction)) (v : Nat) :
    d.decodeArguments cfg ⟨l ++ [[]], l.length, v⟩
      = (argExprs cfg v, ⟨l ++ [d.decodeCode cfg v], l.length, v + cfg.params.length⟩) := by
  rw [decodeArguments, argExprs, decodeCode]
  cases h : cfg.params.isEmpty with
  | true =>
    rw [List.isEmpty_iff] at h
    simp [h]
  | false => simp [Builder.temps, add_last, vars]

/-- A case leaves the code so far as it is and puts its blocks behind it. -/
theorem dispatchCase_blocks (funcNo : Nat) (cfg : FunctionCfg) (b : Builder) :
    (d.dispatchCase funcNo cfg b).2.blocks
      = b.blocks ++ d.valueCode cfg b.blocks.length ++ [d.bodyCode funcNo cfg b.nextId] := by
  obtain ⟨l, c, v⟩ := b
  simp only [dispatchCase, Builder.newBasicBlock, Builder.setBasicBlock, abortIfValueTransfer_eq,
    decodeArguments_eq, Builder.temps, Builder.add, add_last, bodyCode, returnCode]
  cases cfg.returns.isEmpty <;> simp [vars]

theorem le_dispatchCase_nextId (funcNo : Nat) (cfg : FunctionCfg) (b : Builder) :
    b.nextId ≤ (d.dispatchCase funcNo cfg b).2.nextId := by
  obtain ⟨l, c, v⟩ := b
  simp only [dispatchCase, Builder.newBasicBlock, Builder.setBasicBlock, abortIfValueTransfer_eq,
    decodeArguments_eq, Builder.temps, Builder.add, add_last]
  cases cfg.returns.isEmpty <;> simp <;> omega

/-- The blocks `seg` stand in the code from number `pos` on. -/
def Seg (code : List (List Instruction)) (pos : Nat) (seg : List (List Instruction)) : Prop :=
  ∀ j, j < seg.length → code[pos + j]? = seg[j]?

/-- The case of the function `funcNo` stands at the block `bb`. -/
def CaseAt (code : List (List Instruction)) (bb funcNo : Nat) (cfg : FunctionCfg) : Prop :=
  ∃ v, Seg code bb (d.valueCode cfg bb ++ [d.bodyCode funcNo cfg v])

/-- The dispatcher has a case for this function. -/
def HasCase (cfg : FunctionCfg) : Prop := cfg.ty = d.ty ∧ cfg.isPublic = true

theorem dispatchCases_prefix (no : Nat) (l : List FunctionCfg) (b : Builder) :
    ∃ new, (d.dispatchCases no l b).2.blocks = b.blocks ++ new := by
  induction l generalizing no b with
  | nil => exact ⟨[], (List.append_nil _).symm⟩
  | cons cfg l ih =>
    rw [dispatchCases]
    by_cases h : cfg.ty = d.ty ∧ cfg.isPublic
    · rw [if_pos h]
      obtain ⟨new, hnew⟩ := ih (no + 1) (d.dispatchCase no cfg b).2
      refine ⟨d.valueCode cfg b.blocks.length ++ ([d.bodyCode no cfg b.nextId] ++ new), ?_⟩
      show (d.dispatchCases (no + 1) l (d.dispatchCase no cfg b).2).2.blocks = _
      rw [hnew, dispatchCase_blocks, List.append_assoc, List.append_assoc]
    · rw [if_neg h]
      exact ih (no + 1) b

theorem le_dispatchCases_nextId (no : Nat) (l : List FunctionCfg) (b : Builder) :
    b.nextId ≤ (d.dispatchCases no l b).2.nextId := by
  induction l generalizing no b with
  | nil => exact Nat.le_refl _
  | cons cfg l ih =>
    rw [dispatchCases]
    by_cases h : cfg.ty = d.ty ∧ cfg.isPublic
    · rw [if_pos h]
      exact (d.le_dispatchCase_nextId no cfg b).trans (ih _ _)
    · rw [if_neg h]
      exact ih _ _

theorem eval_selectorLiteral (m : Machine) (vars : Nat → Option Word) (cfg : FunctionCfg) :
    eval m vars (d.selectorLiteral cfg) = some (.number (Encoding.littleEndian cfg.selector)) := by
  simp [selectorLiteral, eval]

/-- The switch over the cases goes to the case of a function with that selector, or to the
default when there is none. -/
theorem switchTarget_dispatchCases (m : Machine) (vars : Nat → Option Word) (n default : Nat)
    (code : List (List Instruction)) (no : Nat) (l : List FunctionCfg) (b : Builder)
    (hcode : ∀ i, b.blocks.length ≤ i → i < (d.dispatchCases no l b).2.blocks.length →
      code[i]? = (d.dispatchCases no l b).2.blocks[i]?) :
    (∃ j cfg, l[j]? = some cfg ∧ d.HasCase cfg ∧ Encoding.littleEndian cfg.selector = n ∧
      d.CaseAt code (switchTarget m vars n (d.dispatchCases no l b).1 default) (no + j) cfg) ∨
    ((∀ cfg ∈ l, d.HasCase cfg → Encoding.littleEndian cfg.selector ≠ n) ∧
      switchTarget m vars n (d.dispatchCases no l b).1 default = default) := by
  induction l generalizing no b with
  | nil => exact .inr ⟨fun cfg h => absurd h List.not_mem_nil, rfl⟩
  | cons cfg l ih =>
    rw [dispatchCases] at hcode ⊢
    by_cases h : cfg.ty = d.ty ∧ cfg.isPublic
    · rw [if_pos h] at hcode ⊢
      have hblocks := d.dispatchCase_blocks no cfg b
      obtain ⟨new, hnew⟩ := d.dispatchCases_prefix (no + 1) l (d.dispatchCase no cfg b).2
      by_cases hn : Encoding.littleEndian cfg.selector = n
      · refine .inl ⟨0, cfg, rfl, h, hn, b.nextId, fun j hj => ?_⟩
        have htarget : ∀ cases, switchTarget m vars n
            ((d.selectorLiteral cfg, (d.dispatchCase no cfg b).1) :: cases) default
            = b.blocks.length := by
          intro cases
          simp [switchTarget, eval_selectorLiteral, hn, dispatchCase_fst]
        rw [htarget] at hj ⊢
        rw [hcode (b.blocks.length + j) (by omega), hnew, hblocks]
        · simp only [Nat.add_zero]
          rw [List.append_assoc, List.append_assoc, List.getElem?_append_right (by omega),
            ← List.append_assoc, List.getElem?_append_left (by simpa using hj)]
          simp
        · show _ < (d.dispatchCases (no + 1) l (d.dispatchCase no cfg b).2).2.blocks.length
          rw [hnew, hblocks]
          simp at hj ⊢
          omega
      · have htarget : ∀ cases, switchTarget m vars n
            ((d.selectorLiteral cfg, (d.dispatchCase no cfg b).1) :: cases) default
            = switchTarget m vars n cases default := by
          intro cases
          simp [switchTarget, eval_selectorLiteral, hn]
        simp only [htarget]
        obtain ⟨j, cfg', hj, hrest⟩ | ⟨hall, htgt⟩ := ih (no + 1) (d.dispatchCase no cfg b).2
          (fun i hi hlt => hcode i (by rw [hblocks] at hi; simp at hi; omega) hlt)
        · refine .inl ⟨j + 1, cfg', hj, ?_⟩
          rw [show no + (j + 1) = no + 1 + j by omega]
          exact hrest
        · refine .inr ⟨fun cfg' hmem => ?_, htgt⟩
          obtain rfl | hmem := List.mem_cons.mp hmem
          · exact fun _ => hn
          · exact hall cfg' hmem
    · rw [if_neg h] at hcode ⊢
      obtain ⟨j, cfg', hj, hrest⟩ | ⟨hall, htgt⟩ := ih (no + 1) b hcode
      · refine .inl ⟨j + 1, cfg', hj, ?_⟩
        rw [show no + (j + 1) = no + 1 + j by omega]
        exact hrest
      · refine .inr ⟨fun cfg' hmem => ?_, htgt⟩
        obtain rfl | hmem := List.mem_cons.mp hmem
        · exact fun hc => absurd hc h
        · exact hall cfg' hmem

/-! ## The whole code -/

def entryCode : List Instruction :=
  [.instr (.set inputLenVar (.functionArg (.uint 32) 1)),
    .instr (.set valueVar (.functionArg d.valueType 2)),
    .instr (.set inputPtrVar (.functionArg .bufferPointer 0)),
    .instr (.branchCond (.binary (.less false) inputLen d.selectorLen) 2 start)]

/-- The cases and the state of the builder behind them. -/
def allCases : List (Expression × Nat) × Builder :=
  d.dispatchCases 0 d.allCfg ⟨[d.entryCode, [], []], 0, 3⟩

def selectorVar : Nat := d.allCases.2.nextId

def switchCode : List Instruction :=
  [.instr (.set d.selectorVar (.nary (.builtin [d.selectorTy] .readFromBuffer)
      [.functionArg .bufferPointer 0, .numberLiteral d.selectorTy 0])),
    .instr (.store (.functionArg d.selectorTy 3) (.variable d.selectorTy d.selectorVar)),
    .instr (.switch (.variable d.selectorTy d.selectorVar) d.allCases.1 2)]

/-- A contract has a function that is entered when no selector matches. -/
def HasDefault : Prop := ¬ ((d.fallbackCfg.isNone ∧ d.receiveCfg.isNone) ∨ d.ty = .constructor)

instance : Decidable d.HasDefault := inferInstanceAs (Decidable (¬ _))

def callOrInvalidCode (cfgNo : Option Nat) : List Instruction :=
  match cfgNo with
  | some cfgNo => [.instr (.call [] [] (.static cfgNo) []), .instr returnNothing]
  | none => [.instr selectorInvalid]

theorem callOrInvalid_append (cfgNo : Option Nat) {l r : List (List Instruction)} {k v : Nat} :
    callOrInvalid cfgNo ⟨l ++ r, l.length + k, v⟩
      = ⟨l ++ r.modify k (· ++ callOrInvalidCode cfgNo), l.length + k, v⟩ := by
  cases cfgNo with
  | none => exact Builder.add_append
  | some no =>
    simp only [callOrInvalid, callOrInvalidCode, Builder.add_append, List.modify_modify_eq]
    congr
    funext is
    simp

theorem fallbackOrReceive_blocks (l r : List (List Instruction)) (v : Nat) :
    (d.fallbackOrReceive ⟨l ++ [] :: r, l.length, v⟩).blocks
      = if d.HasDefault then
          l ++ [.instr (.branchCond d.gotValue (l.length + r.length + 2) (l.length + r.length + 1))]
            :: r ++ [callOrInvalidCode d.fallbackCfg, callOrInvalidCode d.receiveCfg]
        else l ++ [.instr selectorInvalid] :: r := by
  have hadd : ∀ (r : List (List Instruction)) (i : Instr),
      (⟨l ++ [] :: r, l.length, v⟩ : Builder).add i = ⟨l ++ [.instr i] :: r, l.length, v⟩ :=
    fun r i => Builder.add_append (k := 0)
  by_cases h : d.HasDefault
  · rw [if_pos h, fallbackOrReceive, if_neg h]
    -- the two blocks behind the code so far
    have hcalls : ∀ first : List (List Instruction), (callOrInvalid d.receiveCfg
        ((callOrInvalid d.fallbackCfg ⟨first ++ [[], []], first.length, v⟩).setBasicBlock
          (first.length + 1))).blocks
        = first ++ [callOrInvalidCode d.fallbackCfg, callOrInvalidCode d.receiveCfg] := by
      intro first
      have hfb := callOrInvalid_append d.fallbackCfg (l := first) (r := [[], []]) (k := 0) (v := v)
      rw [Nat.add_zero] at hfb
      rw [hfb, Builder.setBasicBlock]
      exact congrArg Builder.blocks (callOrInvalid_append d.receiveCfg (l := first))
    have hfirst := hcalls (l ++ [.instr (.branchCond d.gotValue (l.length + r.length + 2)
      (l.length + r.length + 1))] :: r)
    simp only [Builder.newBasicBlock, List.append_assoc, List.cons_append, List.nil_append,
      Builder.setBasicBlock, hadd]
    simpa [Builder.setBasicBlock, Nat.add_assoc] using hfirst
  · rw [if_neg h, fallbackOrReceive, if_pos (not_not.mp h), hadd]

/-- The blocks of the cases stand between the first three and those of the default. -/
theorem build_eq : ∃ cases tail,
    d.allCases.2.blocks = [d.entryCode, [], []] ++ cases ∧
    d.build = [d.entryCode, d.switchCode,
      if d.HasDefault then
        [.instr (.branchCond d.gotValue (cases.length + 4) (cases.length + 3))]
      else [.instr selectorInvalid]] ++ cases ++ tail ∧
    (d.HasDefault → tail = [callOrInvalidCode d.fallbackCfg, callOrInvalidCode d.receiveCfg]) := by
  obtain ⟨cases, hcases⟩ := d.dispatchCases_prefix 0 d.allCfg ⟨[d.entryCode, [], []], 0, 3⟩
  refine ⟨cases, if d.HasDefault then
    [callOrInvalidCode d.fallbackCfg, callOrInvalidCode d.receiveCfg] else [], hcases, ?_, ?_⟩
  · have hb : d.build = (d.fallbackOrReceive
        ⟨[d.entryCode, d.switchCode] ++ [] :: cases, [d.entryCode, d.switchCode].length,
          d.selectorVar + 1⟩).blocks := by
      have hbuild : d.build = (d.fallbackOrReceive
          (((((⟨d.allCases.2.blocks, 1, d.selectorVar + 1⟩ : Builder).add
            (.set d.selectorVar (.nary (.builtin [d.selectorTy] .readFromBuffer)
              [.functionArg .bufferPointer 0, .numberLiteral d.selectorTy 0]))).add
            (.store (.functionArg d.selectorTy 3) (.variable d.selectorTy d.selectorVar))).add
            (.switch (.variable d.selectorTy d.selectorVar) d.allCases.1 2)).setBasicBlock
            2)).blocks := rfl
      rw [hbuild, show d.allCases.2.blocks = _ from hcases]
      rfl
    rw [hb, fallbackOrReceive_blocks]
    by_cases h : d.HasDefault
    · simp [h]
      omega
    · simp [h]
  · intro h
    rw [if_pos h]

theorem build_getElem?_case (i : Nat) (hi : 3 ≤ i) (hlt : i < d.allCases.2.blocks.length) :
    d.build[i]? = d.allCases.2.blocks[i]? := by
  obtain ⟨cases, tail, hblocks, hbuild, -⟩ := d.build_eq
  obtain ⟨k, rfl⟩ : ∃ k, i = k + 3 := ⟨i - 3, by omega⟩
  rw [hblocks] at hlt ⊢
  have hk : k < cases.length := by simpa using hlt
  simp [hbuild, hk, List.getElem?_append_left hk]

end Dispatch

end Solang.Codegen.Polkadot
