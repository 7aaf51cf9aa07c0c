import Solang.Codegen.Dispatch.PolkadotLayout
import Solang.Codegen.Encoding.LittleEndian

/-!
# The Polkadot dispatcher enters the right function

A run takes the case of the function its input selects, or the default. The
two are followed separately (`ends_case`, `ends_default`) and joined at the
switch.
-/

namespace Solang.Codegen.Polkadot

open Encoding (Buffer)

variable {code : List (List Instruction)} {m : Machine}

/-- What a call of the contract leads to. -/
inductive Outcome where
  | enters (cfgNo : Nat) (args : List Word)
  | aborts
  | selectorInvalid

def Outcome.Holds : Outcome → State → Prop
  | enters cfgNo args, s => s.entered = [(cfgNo, args)]
  | aborts, s => s.entered = [] ∧ s.pos = .done .aborted
  | selectorInvalid, s =>
    s.entered = [] ∧ s.pos = .done (.returnedCode .functionSelectorInvalid)

/-- The variables `Dispatch::new` sets. -/
def Prepared (m : Machine) (vars : Nat → Option Word) : Prop :=
  vars Dispatch.inputLenVar = some (.number m.input.length) ∧
  vars Dispatch.valueVar = some (.number m.value) ∧
  vars Dispatch.inputPtrVar = some (.pointer 0)

variable {b no : Nat} {cfg : FunctionCfg} {Q : State → Prop} {args : List Word} {r : State}

theorem ends_callOrInvalid {s : State} {cfgNo : Option Nat} (hs : s.pos = .at b 0)
    (hb : code[b]? = some (Dispatch.callOrInvalidCode cfgNo)) (he : s.entered = []) :
    Ends code m s (match cfgNo with
      | some no => Outcome.enters no []
      | none => Outcome.selectorInvalid).Holds := by
  cases cfgNo with
  | none =>
    refine .step (r := s.stop (.returnedCode .functionSelectorInvalid)) (step_at hs hb rfl) ?_
    exact .done rfl ⟨he, rfl⟩
  | some no =>
    refine .call hs hb rfl rfl (fun r hr => ?_) (fun r _ hpos hr _ => ?_) List.nodup_nil
    · rw [he] at hr
      exact hr
    · rw [he] at hr
      exact .returnNothing hpos hb rfl fun t ht => ht.trans hr

/-! ## A case -/

variable {ns : Encoding.Namespace} {buf : Buffer} {k v : Nat} {is : List Instruction}

theorem length_readItems (tys : List Encoding.AbiType) {i offset : Nat}
    {v : Encoding.BufferValidator} {r : List Encoding.Value × Nat}
    (h : (Encoding.readItems ns buf tys i v offset).result = some r) :
    r.1.length = tys.length := by
  induction tys generalizing i v offset r with
  | nil =>
    rw [Encoding.readItems] at h
    cases h
    rfl
  | cons ty tys ih =>
    rw [Encoding.readItems] at h
    obtain ⟨-, -, h⟩ := Traced.result_bind h
    obtain ⟨⟨x, advance⟩, -, h⟩ := Traced.result_bind h
    obtain ⟨offset, -, h⟩ := Traced.result_bind h
    obtain ⟨⟨xs, o⟩, hxs, h⟩ := Traced.result_bind h
    cases h
    exact congrArg Nat.succ (ih hxs)

theorem length_abiDecode {tys : List Encoding.AbiType} {r : List Encoding.Value × Nat}
    (h : (Encoding.abiDecode ns tys buf).result = some r) :
    r.1.length = tys.length := by
  rw [Encoding.abiDecode] at h
  obtain ⟨-, -, h⟩ := Traced.result_bind h
  obtain ⟨⟨xs, o⟩, hxs, h⟩ := Traced.result_bind h
  obtain ⟨-, -, h⟩ := Traced.result_bind h
  cases h
  exact length_readItems tys hxs

/-- The input behind the selector. -/
def Machine.rest (m : Machine) : Buffer :=
  m.arguments m.ns.target.selectorLength (m.input.length - m.ns.target.selectorLength)
    (by have := m.input.length_lt; omega)

/-- What becomes of a call that the function `no` is selected for. -/
def caseOutcome (m : Machine) (no : Nat) (cfg : FunctionCfg) : Outcome :=
  if cfg.nonpayable ∧ 0 < m.value then .aborts
  else if cfg.params.isEmpty then .enters no []
  else
    match (Encoding.abiDecode m.ns (cfg.params.map (·.abiTy)) m.rest).result with
    | none => .aborts
    | some (args, _) => .enters no (args.map .decoded)

variable {d : Dispatch} {s : State}

/-- The code behind the call ends the run. -/
theorem ends_returnCode {xs : List Word} (hs : s.pos = .at b k) (hb : code[b]? = some is)
    (hk : ∀ j, is[k + j]? = (Dispatch.returnCode cfg v)[j]?)
    (hxs : (Dispatch.vars v cfg.returns.length).mapM s.vars = some xs)
    (hQ : ∀ r, r.entered = s.entered → Q r) : Ends code m s Q := by
  cases hr : cfg.returns.isEmpty with
  | true =>
    have hk0 := hk 0
    simp only [Dispatch.returnCode, hr] at hk0
    exact .returnNothing hs hb hk0 hQ
  | false =>
    have hk0 := hk 0
    have hk1 := hk 1
    simp only [Dispatch.returnCode, hr, Bool.false_eq_true, if_false, Nat.add_zero,
      List.getElem?_cons_zero, List.getElem?_cons_succ] at hk0 hk1
    have hargs := evalAll_variables (m := m) s.vars (fun ty => ty) cfg.returns
      (Dispatch.vars v cfg.returns.length) (by rw [Dispatch.length_vars])
    rw [hxs] at hargs
    cases he : m.encode xs with
    | none =>
      refine .step (r := s.stop .aborted) ?_ (.done rfl (hQ _ rfl))
      rw [step_at hs hb hk0]
      simp [exec, hargs, he]
    | some r =>
      obtain ⟨x, n⟩ := r
      let t := (s.set (v + cfg.returns.length) x).set (v + cfg.returns.length + 1) n
      have htpos : t.pos = .at b k := hs
      refine .step (r := t.next) ?_ ?_
      · rw [step_at hs hb hk0]
        simp [exec, hargs, he, t]
      · have hnext : t.next = { t with pos := .at b (k + 1) } := by rw [State.next, htpos]
        rw [hnext]
        refine .step (r := { t with pos := .at b (k + 1) }.stop (.returnedData x n)) ?_
          (.done rfl (hQ _ rfl))
        rw [step_at rfl hb hk1]
        simp [exec, execInstr, eval, t, State.set]

theorem eval_inputPtr (hp : Prepared m s.vars) (hd : d.ns = m.ns) :
    eval m s.vars d.inputPtr = some (.pointer m.ns.target.selectorLength) := by
  obtain ⟨-, -, hptr⟩ := hp
  simp [Dispatch.inputPtr, Dispatch.selectorLen, eval, hptr, hd]

theorem eval_argLen (hp : Prepared m s.vars) (hd : d.ns = m.ns)
    (hlen : m.ns.target.selectorLength ≤ m.input.length) :
    eval m s.vars (.unary (.trunc (.uint 32))
      (.binary (.subtract (.uint 32) false) Dispatch.inputLen d.selectorLen))
      = some (.number (m.input.length - m.ns.target.selectorLength)) := by
  obtain ⟨hin, -, -⟩ := hp
  have hlt := m.input.length_lt
  have hmod : (m.input.length - m.ns.target.selectorLength) % 2 ^ 32
      = m.input.length - m.ns.target.selectorLength := Nat.mod_eq_of_lt (by omega)
  simpa [Dispatch.inputLen, Dispatch.selectorLen, eval, hin, hd, hlen, byteSize] using hmod

/-- The code of a case behind the check of the value. -/
theorem ends_bodyCode (hd : d.ns = m.ns) (hlen : m.ns.target.selectorLength ≤ m.input.length)
    (hs : s.pos = .at b 0) (hb : code[b]? = some (d.bodyCode no cfg v)) (hp : Prepared m s.vars)
    (he : s.entered = []) (hvalue : ¬ (cfg.nonpayable = true ∧ 0 < m.value)) :
    Ends code m s (caseOutcome m no cfg).Holds := by
  rw [caseOutcome, if_neg hvalue]
  cases hparams : cfg.params.isEmpty with
  | true =>
    rw [if_pos rfl]
    have hnil : cfg.params = [] := List.isEmpty_iff.mp hparams
    have hk : (d.bodyCode no cfg v)[0]? = some (.instr (.call
        (Dispatch.vars (v + cfg.params.length) cfg.returns.length) cfg.returns (.static no)
        (Dispatch.argExprs cfg v))) := by
      simp [Dispatch.bodyCode, Dispatch.decodeCode, hnil]
    have hargs : evalAll m s.vars (Dispatch.argExprs cfg v) = some [] := by
      simp [Dispatch.argExprs, hnil, evalAll]
    refine .call hs hb hk hargs ?_ ?_ (Dispatch.nodup_vars _ _)
    · intro r hr
      rw [he] at hr
      exact hr
    · intro r xs hpos hr hxs
      rw [he] at hr
      refine ends_returnCode hpos hb (fun j => ?_) hxs fun t ht => ht.trans hr
      simp [Dispatch.bodyCode, Dispatch.decodeCode, hnil, Nat.add_comm 1 j]
  | false =>
    rw [if_neg (by simp)]
    have hk : (d.bodyCode no cfg v)[0]? = some (.abiDecode (Dispatch.vars v cfg.params.length)
        d.inputPtr (cfg.params.map (·.abiTy)) (.unary (.trunc (.uint 32))
          (.binary (.subtract (.uint 32) false) Dispatch.inputLen d.selectorLen))) := by
      simp [Dispatch.bodyCode, Dispatch.decodeCode, hparams]
    have hrest : ∀ j, (d.bodyCode no cfg v)[j + 1]? = (Instruction.instr (.call
        (Dispatch.vars (v + cfg.params.length) cfg.returns.length) cfg.returns (.static no)
        (Dispatch.argExprs cfg v)) :: Dispatch.returnCode cfg (v + cfg.params.length))[j]? := by
      intro j
      simp [Dispatch.bodyCode, Dispatch.decodeCode, hparams]
    have hstep : step code m s = (Encoding.abiDecode m.ns (cfg.params.map (·.abiTy)) m.rest).result.elim
        (some (s.stop .aborted))
        fun r => some (s.setAll (Dispatch.vars v cfg.params.length) (r.1.map .decoded)).next := by
      rw [step_at hs hb hk, exec, eval_inputPtr hp hd, eval_argLen hp hd hlen, decode,
        dif_pos (by have := m.input.length_lt; omega)]
      rw [show m.arguments _ _ _ = m.rest from rfl]
      cases (Encoding.abiDecode m.ns (cfg.params.map (·.abiTy)) m.rest).result <;> rfl
    cases hdec : (Encoding.abiDecode m.ns (cfg.params.map (·.abiTy)) m.rest).result with
    | none =>
      rw [hdec] at hstep
      exact .step hstep (.done rfl ⟨he, rfl⟩)
    | some r =>
      obtain ⟨args, size⟩ := r
      rw [hdec] at hstep
      let t := s.setAll (Dispatch.vars v cfg.params.length) (args.map .decoded)
      have htpos : t.pos = .at b 0 := (State.setAll_pos _ _).trans hs
      have hnext : t.next = { t with pos := .at b 1 } := by rw [State.next, htpos]
      have hte : t.next.entered = [] := by
        rw [hnext]
        exact (State.setAll_entered _ _).trans he
      have hvars : evalAll m t.next.vars (Dispatch.argExprs cfg v)
          = some (args.map .decoded) := by
        rw [hnext, Dispatch.argExprs, evalAll_variables _ Parameter.ty _ _
          (Dispatch.length_vars _ _).symm]
        refine State.mapM_setAll (Dispatch.nodup_vars _ _) ?_
        rw [Dispatch.length_vars, List.length_map, length_abiDecode hdec, List.length_map]
      refine .step hstep (.call (by rw [hnext]) hb (hrest 0) hvars ?_ ?_ (Dispatch.nodup_vars _ _))
      · intro r hr
        rw [hte] at hr
        exact hr
      · intro r xs hpos hr hxs
        rw [hte] at hr
        refine ends_returnCode hpos hb (fun j => ?_) hxs fun t ht => ht.trans hr
        rw [show 0 + 1 + 1 + j = j + 1 + 1 by omega, hrest]
        rfl

theorem eval_gotValue (hp : Prepared m s.vars) :
    eval m s.vars d.gotValue = some (.bool (decide (m.value > 0))) := by
  obtain ⟨-, hval, -⟩ := hp
  simp [Dispatch.gotValue, eval, hval]

theorem step_branchCond {trueBlock falseBlock : Nat} {cond : Expression} {c : Bool}
    (hs : s.pos = .at b k) (hb : code[b]? = some is)
    (hk : is[k]? = some (.instr (.branchCond cond trueBlock falseBlock)))
    (hc : eval m s.vars cond = some (.bool c)) :
    step code m s = some (s.goto (if c then trueBlock else falseBlock)) := by
  rw [step_at hs hb hk]
  simp [exec, execInstr, hc]

/-- The code of the case of a function. -/
theorem ends_case (hd : d.ns = m.ns) (hlen : m.ns.target.selectorLength ≤ m.input.length)
    (hs : s.pos = .at b 0) (hcase : d.CaseAt code b no cfg) (hp : Prepared m s.vars)
    (he : s.entered = []) :
    Ends code m s (caseOutcome m no cfg).Holds := by
  obtain ⟨v, hseg⟩ := hcase
  cases hn : cfg.nonpayable with
  | false =>
    have h0 := hseg 0 (by simp [Dispatch.valueCode, hn])
    refine ends_bodyCode (v := v) hd hlen hs ?_ hp he (by simp [hn])
    simpa [Dispatch.valueCode, hn] using h0
  | true =>
    have h0 : code[b]? = some [.instr (.branchCond d.gotValue (b + 1) (b + 2))] := by
      simpa [Dispatch.valueCode, hn] using hseg 0 (by simp [Dispatch.valueCode, hn])
    have h1 : code[b + 1]? = some (d.logCode cfg ++ [.instr (.assertFailure none)]) := by
      simpa [Dispatch.valueCode, hn] using hseg 1 (by simp [Dispatch.valueCode, hn])
    have h2 : code[b + 2]? = some (d.bodyCode no cfg v) := by
      simpa [Dispatch.valueCode, hn] using hseg 2 (by simp [Dispatch.valueCode, hn])
    refine .step (step_branchCond hs h0 rfl (eval_gotValue hp)) ?_
    by_cases hv : m.value > 0
    · rw [decide_eq_true hv, if_pos rfl, caseOutcome, if_pos ⟨hn, hv⟩]
      have hstop : ∀ t : State, t.entered = [] →
          Outcome.aborts.Holds (t.stop .aborted) := fun t ht => ⟨ht, rfl⟩
      cases hl : d.logRuntimeErrors with
      | false =>
        refine .step (step_at rfl h1 (i := .instr (.assertFailure none)) ?_)
          (.done rfl (hstop _ he))
        simp [Dispatch.logCode, hl]
      | true =>
        refine .step (r := (s.goto (b + 1)).next) ?_ (.step (step_at rfl h1
          (i := .instr (.assertFailure none)) ?_) (.done rfl (hstop _ he)))
        · rw [step_at (k := 0) rfl h1 (by simp [Dispatch.logCode, hl]; rfl)]
          rfl
        · simp [Dispatch.logCode, hl]
    · rw [decide_eq_false hv, if_neg (by simp)]
      exact ends_bodyCode hd hlen rfl h2 hp he fun h => hv h.2

/-! ## The whole dispatcher -/

/-- What becomes of a call that no function is selected for. -/
def defaultOutcome (m : Machine) (d : Dispatch) : Outcome :=
  if d.ty = .constructor then .selectorInvalid
  else
    match if 0 < m.value then d.receiveCfg else d.fallbackCfg with
    | some no => .enters no []
    | none => .selectorInvalid

theorem ends_default (hs : s.pos = .at 2 0) (hp : Prepared m s.vars) (he : s.entered = []) :
    Ends d.build m s (defaultOutcome m d).Holds := by
  obtain ⟨cases, tail, -, hbuild, htail⟩ := d.build_eq
  by_cases h : d.HasDefault
  · have hty : d.ty ≠ .constructor := fun hty => h (.inr hty)
    rw [htail h, if_pos h] at hbuild
    have h2 : d.build[2]? = some [.instr (.branchCond d.gotValue (cases.length + 4)
        (cases.length + 3))] := by simp [hbuild]
    have h3 : d.build[cases.length + 3]? = some (Dispatch.callOrInvalidCode d.fallbackCfg) := by
      simp [hbuild]
    have h4 : d.build[cases.length + 4]? = some (Dispatch.callOrInvalidCode d.receiveCfg) := by
      simp [hbuild]
    refine .step (step_branchCond hs h2 rfl (eval_gotValue hp)) ?_
    rw [defaultOutcome, if_neg hty]
    by_cases hv : m.value > 0
    · rw [decide_eq_true hv, if_pos rfl, if_pos hv]
      exact ends_callOrInvalid rfl h4 he
    · rw [decide_eq_false hv, if_neg (by simp), if_neg hv]
      exact ends_callOrInvalid rfl h3 he
  · have h2 : d.build[2]? = some (Dispatch.callOrInvalidCode none) := by
      rw [if_neg h] at hbuild
      simp [hbuild, Dispatch.callOrInvalidCode]
    have hout : defaultOutcome m d = .selectorInvalid := by
      rw [defaultOutcome]
      by_cases hty : d.ty = .constructor
      · rw [if_pos hty]
      · obtain ⟨hf, hr⟩ := (not_not.mp h).resolve_right hty
        rw [Option.isNone_iff_eq_none] at hf hr
        rw [if_neg hty, hf, hr, ite_self]
    rw [hout]
    exact ends_callOrInvalid hs h2 he

/-- The function `no` is the one the input selects. -/
def Selects (m : Machine) (d : Dispatch) (no : Nat) (cfg : FunctionCfg) : Prop :=
  d.allCfg[no]? = some cfg ∧ d.HasCase cfg ∧ m.ns.target.selectorLength ≤ m.input.length ∧
    cfg.selector = m.input.slice 0 m.ns.target.selectorLength

theorem ends_initial (h : ∀ s, Prepared m s.vars → s.entered = [] → s.pos = .at
      (if m.input.length < d.ns.target.selectorLength then 2 else 1) 0 → Ends d.build m s Q) :
    Ends d.build m initial Q := by
  obtain ⟨cases, tail, -, hbuild, -⟩ := d.build_eq
  have h0 : d.build[0]? = some d.entryCode := by simp [hbuild]
  let s1 := { initial.set 0 (.number m.input.length) with pos := .at 0 1 }
  let s2 := { s1.set 1 (.number m.value) with pos := .at 0 2 }
  let s3 := { s2.set 2 (.pointer 0) with pos := .at 0 3 }
  refine .step (r := s1) ((step_at rfl h0 rfl).trans rfl) ?_
  refine .step (r := s2) ((step_at rfl h0 rfl).trans rfl) ?_
  refine .step (r := s3) ((step_at rfl h0 rfl).trans rfl) ?_
  have hp : Prepared m s3.vars := ⟨rfl, rfl, rfl⟩
  have hcond : eval m s3.vars (.binary (.less false) Dispatch.inputLen d.selectorLen)
      = some (.bool (decide (m.input.length < d.ns.target.selectorLength))) := by
    obtain ⟨hin, -, -⟩ := hp
    simp [Dispatch.inputLen, Dispatch.selectorLen, eval, hin]
  refine .step (step_branchCond rfl h0 rfl hcond) (h _ hp rfl ?_)
  simp [State.goto, Dispatch.start]

/-- The selector is read and compared with those of the cases. -/
theorem ends_switch (hd : d.ns = m.ns) (hp : Prepared m s.vars) (he : s.entered = [])
    (hs : s.pos = .at 1 0)
    (h : ∀ r vars, Prepared m r.vars → r.entered = [] → r.pos = .at (switchTarget m vars
      (Encoding.littleEndian (m.input.slice 0 m.ns.target.selectorLength)) d.allCases.1 2) 0 →
      Ends d.build m r Q) : Ends d.build m s Q := by
  obtain ⟨cases, tail, -, hbuild, -⟩ := d.build_eq
  have h1 : d.build[1]? = some d.switchCode := by simp [hbuild]
  let w := Word.number (Encoding.littleEndian (m.input.slice 0 m.ns.target.selectorLength))
  let s1 := { s.set d.selectorVar w with pos := .at 1 1 }
  let s2 := { s1 with selector := some w, pos := .at 1 2 }
  have hvar : (s.set d.selectorVar w).vars d.selectorVar = some w := Function.update_self _ _ _
  refine .step (r := s1) ?_ ?_
  · rw [step_at hs h1 rfl]
    simp [exec, execInstr, eval, Machine.arg, Dispatch.selectorTy, byteSize, hd, s1, w, State.next,
      State.set, hs]
  refine .step (r := s2) ?_ ?_
  · rw [step_at rfl h1 rfl]
    simp [exec, execInstr, eval, hvar, s2, State.next, s1]
  refine .step (r := s2.goto (switchTarget m s2.vars
    (Encoding.littleEndian (m.input.slice 0 m.ns.target.selectorLength)) d.allCases.1 2)) ?_ ?_
  · rw [step_at rfl h1 rfl]
    simp [exec, execInstr, eval, show s2.vars d.selectorVar = some w from hvar, w]
  · -- the variable of the selector is none of the first three
    have hle : 3 ≤ d.selectorVar := d.le_dispatchCases_nextId 0 d.allCfg ⟨[d.entryCode, [], []], 0, 3⟩
    have hne : ∀ v, v < 3 → s1.vars v = s.vars v := fun v hv =>
      Function.update_of_ne (by omega) _ _
    refine h _ s2.vars ?_ he rfl
    exact ⟨(hne 0 (by decide)).trans hp.1, (hne 1 (by decide)).trans hp.2.1,
      (hne 2 (by decide)).trans hp.2.2⟩

/-- The functions the dispatcher has cases for have different selectors. -/
def DistinctSelectors (d : Dispatch) : Prop :=
  ∀ (i j : Nat) (cfg cfg' : FunctionCfg), d.allCfg[i]? = some cfg → d.allCfg[j]? = some cfg' →
    d.HasCase cfg → d.HasCase cfg' → cfg.selector = cfg'.selector → i = j

/-- The run took the case of the only function selected, or the default. -/
def HasOutcome (m : Machine) (d : Dispatch) (r : State) : Prop :=
  (∃ no cfg, Selects m d no cfg ∧ (∀ no' cfg', Selects m d no' cfg' → no' = no) ∧
    (caseOutcome m no cfg).Holds r) ∨
  ((∀ no cfg, ¬ Selects m d no cfg) ∧ (defaultOutcome m d).Holds r)

theorem ends_build (hd : d.ns = m.ns)
    (hlength : ∀ cfg ∈ d.allCfg, d.HasCase cfg → cfg.selector.length = m.ns.target.selectorLength)
    (hdistinct : DistinctSelectors d) :
    Ends d.build m initial (HasOutcome m d) := by
  refine ends_initial fun s hp he hs => ?_
  by_cases hlt : m.input.length < d.ns.target.selectorLength
  · rw [if_pos hlt] at hs
    obtain ⟨n, r, e, hn, hr, hout⟩ := ends_default hs hp he
    refine ⟨n, r, e, hn, hr, .inr ⟨fun no cfg hsel => ?_, hout⟩⟩
    have := hsel.2.2.1
    rw [hd] at hlt
    omega
  · rw [if_neg hlt] at hs
    rw [hd] at hlt
    refine ends_switch hd hp he hs fun r vars hp he hpos => ?_
    have hslice : (m.input.slice 0 m.ns.target.selectorLength).length
        = m.ns.target.selectorLength := by simp [Buffer.slice]
    obtain ⟨no, cfg, hcfg, hcase, hn, hat⟩ | ⟨hnone, htarget⟩ :=
      d.switchTarget_dispatchCases m vars
        (Encoding.littleEndian (m.input.slice 0 m.ns.target.selectorLength)) 2 d.build 0 d.allCfg
        ⟨[d.entryCode, [], []], 0, 3⟩ d.build_getElem?_case
    · have hsel : cfg.selector = m.input.slice 0 m.ns.target.selectorLength :=
        Encoding.littleEndian_inj (by rw [hlength cfg (List.mem_of_getElem? hcfg) hcase, hslice]) hn
      rw [Nat.zero_add] at hat
      obtain ⟨n, t, e, hrun, ht, hout⟩ := ends_case hd (by omega) hpos hat hp he
      refine ⟨n, t, e, hrun, ht, .inl ⟨no, cfg, ⟨hcfg, hcase, by omega, hsel⟩, ?_, hout⟩⟩
      rintro no' cfg' ⟨hcfg', hcase', -, hsel'⟩
      exact hdistinct no' no cfg' cfg hcfg' hcfg hcase' hcase (hsel'.trans hsel.symm)
    · change switchTarget m vars _ d.allCases.1 2 = 2 at htarget
      rw [htarget] at hpos
      obtain ⟨n, t, e, hrun, ht, hout⟩ := ends_default hpos hp he
      refine ⟨n, t, e, hrun, ht, .inr ⟨?_, hout⟩⟩
      rintro no cfg ⟨hcfg, hcase, -, hsel⟩
      refine hnone cfg (List.mem_of_getElem? hcfg) hcase ?_
      rw [hsel]

/-! ## The contract -/

/-- The functions of a contract, as `sema` lets them through: `verify_unique_selector` checks
the lengths of the selectors, and a `receive` function must be declared payable. -/
structure Contract (target : Encoding.Target) where
  cfgs : List FunctionCfg
  selector_length : ∀ cfg ∈ cfgs, cfg.isPublic = true →
    cfg.ty = .function ∨ cfg.ty = .constructor → cfg.selector.length = target.selectorLength
  receive_payable : ∀ cfg ∈ cfgs, cfg.ty = .receive → cfg.nonpayable = false

/-- The public function `no` of the kind `ty`. -/
def IsPublic (cfgs : List FunctionCfg) (ty : Sema.FunctionTy) (no : Nat) : Prop :=
  ∃ cfg, cfgs[no]? = some cfg ∧ cfg.ty = ty ∧ cfg.isPublic = true

/-- What the dispatcher of the kind `d.ty` did when it ended in the state `r`. -/
structure Dispatched (m : Machine) (d : Dispatch) (r : State) : Prop where
  selected : ∀ no cfg, Selects m d no cfg → (caseOutcome m no cfg).Holds r
  deployDefault : d.ty = .constructor → (∀ no cfg, ¬ Selects m d no cfg) →
    Outcome.selectorInvalid.Holds r
  callReceive : d.ty = .function → (∀ no cfg, ¬ Selects m d no cfg) → 0 < m.value →
    (∃ no, IsPublic d.allCfg .receive no ∧ (Outcome.enters no []).Holds r) ∨
    ((∀ no, ¬ IsPublic d.allCfg .receive no) ∧ Outcome.selectorInvalid.Holds r)
  callFallback : d.ty = .function → (∀ no cfg, ¬ Selects m d no cfg) → m.value = 0 →
    (∃ no, IsPublic d.allCfg .fallback no ∧ (Outcome.enters no []).Holds r) ∨
    ((∀ no, ¬ IsPublic d.allCfg .fallback no) ∧ Outcome.selectorInvalid.Holds r)
  nonpayable : ∀ no args cfg, (no, args) ∈ r.entered → d.allCfg[no]? = some cfg →
    cfg.nonpayable = true → m.value = 0
  deploy : d.ty = .constructor → ∀ no args, (no, args) ∈ r.entered →
    IsPublic d.allCfg .constructor no
  call : d.ty = .function → ∀ no args, (no, args) ∈ r.entered →
    IsPublic d.allCfg .function no ∨ IsPublic d.allCfg .fallback no ∨
      IsPublic d.allCfg .receive no

theorem lastPublic_spec (ty : Sema.FunctionTy) (done rest : List FunctionCfg)
    (found : Option Nat) (hfound : match found with
      | some no => IsPublic (done ++ rest) ty no
      | none => ∀ no, no < done.length → ¬ IsPublic (done ++ rest) ty no) :
    match Dispatch.lastPublic ty done.length rest found with
    | some no => IsPublic (done ++ rest) ty no
    | none => ∀ no, ¬ IsPublic (done ++ rest) ty no := by
  induction rest generalizing done found with
  | nil =>
    rw [Dispatch.lastPublic]
    cases found with
    | some no => exact hfound
    | none =>
      intro no hno
      refine hfound no ?_ hno
      obtain ⟨cfg, hcfg, -⟩ := hno
      simpa using (List.getElem?_eq_some_iff.mp hcfg).1
  | cons cfg rest ih =>
    rw [Dispatch.lastPublic]
    have h := ih (done ++ [cfg]) (if cfg.ty = ty ∧ cfg.isPublic = true then some done.length
      else found)
    simp only [List.append_assoc, List.singleton_append, List.length_append,
      List.length_singleton] at h
    refine h ?_
    have hat : (done ++ cfg :: rest)[done.length]? = some cfg := by simp
    by_cases hc : cfg.ty = ty ∧ cfg.isPublic = true
    · rw [if_pos hc]
      exact ⟨cfg, hat, hc⟩
    · rw [if_neg hc]
      cases found with
      | some no => exact hfound
      | none =>
        intro no hlt hno
        by_cases heq : no = done.length
        · subst heq
          obtain ⟨cfg', hcfg', hc'⟩ := hno
          rw [hat] at hcfg'
          cases hcfg'
          exact hc hc'
        · exact hfound no (by omega) hno

theorem fallback_or_receive_spec (cfgs : List FunctionCfg) (ty : Sema.FunctionTy) :
    match Dispatch.lastPublic ty 0 cfgs none with
    | some no => IsPublic cfgs ty no
    | none => ∀ no, ¬ IsPublic cfgs ty no :=
  lastPublic_spec ty [] cfgs none fun _ h => absurd h (Nat.not_lt_zero _)

theorem Outcome.Holds.eq_enters {o : Outcome} (h : o.Holds r) (hr : (no, args) ∈ r.entered) :
    o = .enters no args := by
  cases o with
  | enters no' args' =>
    rw [show r.entered = _ from h, List.mem_singleton] at hr
    cases hr
    rfl
  | aborts | selectorInvalid =>
    rw [h.1] at hr
    cases hr

theorem caseOutcome_enters {no' : Nat} (h : caseOutcome m no' cfg = .enters no args) :
    no' = no ∧ ¬ (cfg.nonpayable = true ∧ 0 < m.value) := by
  rw [caseOutcome] at h
  by_cases hv : cfg.nonpayable = true ∧ 0 < m.value
  · rw [if_pos hv] at h
    cases h
  · rw [if_neg hv] at h
    refine ⟨?_, hv⟩
    cases hp : cfg.params.isEmpty with
    | true =>
      rw [hp, if_pos rfl] at h
      cases h
      rfl
    | false =>
      rw [hp, if_neg (by simp)] at h
      cases hdec : (Encoding.abiDecode m.ns (cfg.params.map (·.abiTy)) m.rest).result with
      | none =>
        rw [hdec] at h
        cases h
      | some r =>
        rw [hdec] at h
        cases h
        rfl

/-- The default enters `receive` with value and `fallback` without. -/
theorem defaultOutcome_spec (hty : d.ty ≠ .constructor) :
    (∃ no, IsPublic d.allCfg (if 0 < m.value then .receive else .fallback) no ∧
      defaultOutcome m d = .enters no []) ∨
    ((∀ no, ¬ IsPublic d.allCfg (if 0 < m.value then .receive else .fallback) no) ∧
      defaultOutcome m d = .selectorInvalid) := by
  have hcfg : (if 0 < m.value then d.receiveCfg else d.fallbackCfg)
      = Dispatch.lastPublic (if 0 < m.value then .receive else .fallback) 0 d.allCfg none := by
    split <;> rfl
  have hspec := fallback_or_receive_spec d.allCfg (if 0 < m.value then .receive else .fallback)
  rw [defaultOutcome, if_neg hty, hcfg]
  cases hlast : Dispatch.lastPublic (if 0 < m.value then .receive else .fallback) 0 d.allCfg none with
  | none =>
    rw [hlast] at hspec
    exact .inr ⟨hspec, rfl⟩
  | some no =>
    rw [hlast] at hspec
    exact .inl ⟨no, hspec, rfl⟩

/-- Only selected functions, `receive` with value and `fallback` without are entered. -/
theorem entered_cases (h : (∃ no cfg, Selects m d no cfg ∧ (caseOutcome m no cfg).Holds r) ∨
      (defaultOutcome m d).Holds r) (hr : (no, args) ∈ r.entered) :
    (∃ cfg, Selects m d no cfg ∧ ¬ (cfg.nonpayable = true ∧ 0 < m.value)) ∨
    (d.ty ≠ .constructor ∧
      IsPublic d.allCfg (if 0 < m.value then .receive else .fallback) no) := by
  obtain ⟨no', cfg, hsel, h⟩ | h := h
  · obtain ⟨rfl, hv⟩ := caseOutcome_enters (h.eq_enters hr)
    exact .inl ⟨cfg, hsel, hv⟩
  · have hd := h.eq_enters hr
    have hty : d.ty ≠ .constructor := by
      intro hty
      rw [defaultOutcome, if_pos hty] at hd
      cases hd
    obtain ⟨no', hpub, heq⟩ | ⟨-, heq⟩ := defaultOutcome_spec (m := m) hty
    · rw [heq] at hd
      cases hd
      exact .inr ⟨hty, hpub⟩
    · rw [heq] at hd
      cases hd

theorem HasOutcome.dispatched (hout : HasOutcome m d r)
    (hpayable : ∀ cfg ∈ d.allCfg, cfg.ty = .receive → cfg.nonpayable = false) :
    Dispatched m d r := by
  have hentered : ∀ no args, (no, args) ∈ r.entered → _ := fun no args =>
    entered_cases (hout.imp (fun ⟨no, cfg, hsel, _, h⟩ => ⟨no, cfg, hsel, h⟩) And.right)
  refine ⟨?_, ?_, ?_, ?_, ?_, ?_, ?_⟩
  · intro no cfg hsel
    obtain ⟨no', cfg', hsel', huniq, hh⟩ | ⟨hnone, -⟩ := hout
    · obtain rfl := huniq no cfg hsel
      have hcfg := hsel.1.symm.trans hsel'.1
      cases hcfg
      exact hh
    · exact absurd hsel (hnone no cfg)
  · intro hty hnone
    obtain ⟨no, cfg, hsel, -⟩ | ⟨-, hh⟩ := hout
    · exact absurd hsel (hnone no cfg)
    · rw [defaultOutcome, if_pos hty] at hh
      exact hh
  · intro hty hnone hv
    obtain ⟨no, cfg, hsel, -⟩ | ⟨-, hh⟩ := hout
    · exact absurd hsel (hnone no cfg)
    · have hspec := defaultOutcome_spec (m := m) (d := d) (by rw [hty]; decide)
      rw [if_pos hv] at hspec
      obtain ⟨no, hpub, heq⟩ | ⟨hno, heq⟩ := hspec
      · exact .inl ⟨no, hpub, heq ▸ hh⟩
      · exact .inr ⟨hno, heq ▸ hh⟩
  · intro hty hnone hv
    obtain ⟨no, cfg, hsel, -⟩ | ⟨-, hh⟩ := hout
    · exact absurd hsel (hnone no cfg)
    · have hspec := defaultOutcome_spec (m := m) (d := d) (by rw [hty]; decide)
      rw [if_neg (by omega)] at hspec
      obtain ⟨no, hpub, heq⟩ | ⟨hno, heq⟩ := hspec
      · exact .inl ⟨no, hpub, heq ▸ hh⟩
      · exact .inr ⟨hno, heq ▸ hh⟩
  · intro no args cfg hmem hcfg hn
    obtain ⟨cfg', hsel, hv⟩ | ⟨-, cfg', hcfg', hrecv, -⟩ := hentered no args hmem
    · have heq := hcfg.symm.trans hsel.1
      cases heq
      have : ¬ 0 < m.value := fun h => hv ⟨hn, h⟩
      omega
    · by_contra hv
      have heq := hcfg.symm.trans hcfg'
      cases heq
      rw [if_pos (by omega)] at hrecv
      rw [hpayable cfg (List.mem_of_getElem? hcfg) hrecv] at hn
      cases hn
  · intro hty no args hmem
    obtain ⟨cfg, hsel, -⟩ | ⟨hne, -⟩ := hentered no args hmem
    · exact ⟨cfg, hsel.1, hty ▸ hsel.2.1⟩
    · exact absurd hty hne
  · intro hty no args hmem
    obtain ⟨cfg, hsel, -⟩ | ⟨-, hpub⟩ := hentered no args hmem
    · exact .inl ⟨cfg, hsel.1, hty ▸ hsel.2.1⟩
    · by_cases hv : 0 < m.value
      · rw [if_pos hv] at hpub
        exact .inr (.inr hpub)
      · rw [if_neg hv] at hpub
        exact .inr (.inl hpub)

/-- The dispatchers of a contract enter the function they should. -/
theorem ends_dispatched (m : Machine) (logRuntimeErrors : Bool) (c : Contract m.ns.target)
    (k : DispatchType)
    (hdistinct : DistinctSelectors ⟨m.ns, logRuntimeErrors, c.cfgs, k.functionTy⟩) :
    Ends (Dispatch.build ⟨m.ns, logRuntimeErrors, c.cfgs, k.functionTy⟩) m initial
      (Dispatched m ⟨m.ns, logRuntimeErrors, c.cfgs, k.functionTy⟩) := by
  obtain ⟨n, r, e, hrun, hr, hout⟩ := ends_build rfl (fun cfg hmem hcase => by
    refine c.selector_length cfg hmem hcase.2 ?_
    rw [hcase.1]
    cases k
    · exact .inr rfl
    · exact .inl rfl) hdistinct
  exact ⟨n, r, e, hrun, hr, hout.dispatched c.receive_payable⟩

/-- A function `f(uint32)` with the selector `01020304`. -/
def sampleCfg : FunctionCfg where
  name := "Sample::function::f__uint32"
  ty := .function
  isPublic := true
  nonpayable := true
  selector := [1, 2, 3, 4]
  params := [⟨.uint 32, .elementary (.uint 32)⟩]
  returns := []

/-- The input selects `f` and has the argument 5. -/
def sampleMachine : Machine where
  ns := ⟨.polkadot, 32, 16⟩
  input := Buffer.ofBytes [1, 2, 3, 4, 5, 0, 0, 0] (by decide)
  value := 0
  callee _ _ := some fun _ => .number 0
  encode _ := none

def sampleContract : Contract sampleMachine.ns.target where
  cfgs := [sampleCfg]
  selector_length := by decide
  receive_payable := by decide

theorem ends_dispatched_sample :
    Ends (Dispatch.build ⟨sampleMachine.ns, false, sampleContract.cfgs, .function⟩) sampleMachine
      initial fun r => r.entered = [(0, [.decoded (Encoding.Value.scalar [5, 0, 0, 0])])] := by
  obtain ⟨n, r, e, hrun, hr, hd⟩ := ends_dispatched sampleMachine false sampleContract .call (by
    intro i j cfg cfg' hi hj _ _ _
    have hi := (List.getElem?_eq_some_iff.mp hi).1
    have hj := (List.getElem?_eq_some_iff.mp hj).1
    simp [sampleContract] at hi hj
    omega)
  exact ⟨n, r, e, hrun, hr, hd.selected 0 sampleCfg ⟨rfl, ⟨rfl, rfl⟩, by decide, by decide⟩⟩

end Solang.Codegen.Polkadot
