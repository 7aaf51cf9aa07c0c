import Solang.Codegen.StatementsRefine
import Solang.Codegen.Yul.Layout

/-!
# The lowered Yul runs as the source does

The simulation, construct by construct: from where the lowering of a statement
started, the run of the finished graph `F` makes the visits of the statement and
lands where it was left.
-/

namespace Solang.Codegen.Yul

open Lower Runs

variable {F : ControlFlowGraph} {o : Oracle} {fuel : Nat}

/-! ## Single instructions -/

section Step

variable {p : Position} {t : Trace}

theorem stepSwitch_of_step (q r : Position × Trace) (h : step F o q = some r) :
    stepSwitch F o q = some r := by
  obtain ⟨p, t⟩ := q
  cases p with
  | done => cases h
  | «at» b k =>
    simp only [stepSwitch]
    split
    next hk => simp [step, hk, Instr.targets] at h
    next => exact h

theorem reach_at_branch {b : Nat} (h : At F p (.branch b)) :
    Reach (stepSwitch F o) 1 (p, t) (.at b 0, t) := by
  obtain ⟨b', k, rfl, hk⟩ := h
  refine (Reach.single ?_).of_step stepSwitch_of_step
  rw [step, hk]

theorem reach_at_branchCond {c : Expression} {b e : Nat} (h : At F p (.branchCond c b e)) :
    Reach (stepSwitch F o) 1 (p, t) (.at (if o.choose t then b else e) 0, o.decided t) := by
  obtain ⟨b', k, rfl, hk⟩ := h
  refine (Reach.single ?_).of_step stepSwitch_of_step
  rw [step, hk]

theorem reach_at_switch {c : Expression} {cases : List (Expression × Nat)} {default : Nat}
    (h : At F p (.switch c cases default)) : Reach (stepSwitch F o) 1 (p, t)
      (.at (selectCase o default cases t).1 0, (selectCase o default cases t).2) := by
  obtain ⟨b', k, rfl, hk⟩ := h
  refine .single ?_
  rw [stepSwitch, hk]

end Step

/-! ## Constructs -/

/-- The lowered statement lands where its meaning `ex` says. -/
def Sim (F : ControlFlowGraph) (o : Oracle) (fuel : Nat) (inLoop : Bool) (f : Lower → Lower)
    (ex : Trace → Outcome × Trace) : Prop :=
  ∀ s t brk cont, s.Valid → o.lim ≤ s.nextId → Targets inLoop 0 s brk cont → In F (f s) →
    Lands (stepSwitch F o) fuel (s.here, t) (f s).here brk cont (ex t)

section Constructs

variable {inLoop : Bool} {cond : Lower → Expression × Lower} {evc : Trace → Trace}
  {init post body : Lower → Lower} {exi exp exb : Trace → Outcome × Trace}

/-- The meaning of a condition does not depend on how its value is compared. -/
theorem exprOk_lowerCondition (c : Condition) : ExprOk F o (lowerCondition c) (eval o c.expr) where
  frame := exprFrame_lowerCondition c
  sim s t hs hid hin := by
    rw [lowerCondition_snd] at hin ⊢
    exact exprSim_lowerExpr c.expr s t hs hid hin

theorem sim_lowerEffect (e : Effect) : Sim F o fuel inLoop (lowerEffect e) (perform o e) := by
  intro s t brk cont hs hid _ hin
  exact (lands_lowerEffect hs hid hin t).of_step stepSwitch_of_step

/-- A part lands behind the construct that it is a part of. -/
theorem Part.lands {s s' final : Lower} {r : Bool} {ls : List LoopScope} {b next brk cont : Nat}
    (hp : Part F s final body r ls b next s') (hb : Sim F o fuel inLoop body exb)
    (hid : o.lim ≤ s.nextId) (hT : Targets inLoop 0 s' brk cont)
    (hr : ∀ t t', exb t = (.normal, t') → r = true) (t : Trace) :
    Lands (stepSwitch F o) fuel (.at b 0, t) (.at next 0) brk cont (exb t) := by
  have hl := hb s' t brk cont hp.starts.valid (hid.trans hp.starts.ids) hT hp.inside
  rw [hp.starts.here] at hl
  refine hl.append fun t' ht' => ?_
  exact (reach_at_branch (hp.jump (hr _ _ ht'))).mono (Nat.zero_le 1)

theorem Targets.congr {s s' : Lower} {brk cont : Nat} (hT : Targets inLoop 0 s brk cont)
    (h : s'.loops = s.loops) : Targets inLoop 0 s' brk cont := by
  intro hi
  rw [h]
  exact hT hi

theorem sim_ifThen {r : Bool} (hc : ExprOk F o cond evc) (hf : Framed body)
    (hb : Sim F o fuel inLoop body exb) (hr : ∀ t t', exb t = (.normal, t') → r = true) :
    Sim F o fuel inLoop (ifThen cond body r) fun t =>
      if o.choose (evc t) then exb (o.decided (evc t)) else (.normal, o.decided (evc t)) := by
  intro s t brk cont hs hid hT hin
  obtain ⟨thenBlock, endif, hlay⟩ := ifLayout hc.frame hf hs hin
  obtain ⟨s', hpart⟩ := hlay.thenPart
  have hcond := (hc.sim s t hs hid hlay.inCond).of_step stepSwitch_of_step
  have hbranch := hcond.seq (reach_at_branchCond hlay.branch)
  rw [hlay.ends]
  dsimp only
  split
  next hch =>
    rw [if_pos hch] at hbranch
    exact (hpart.lands hb hid (Targets.congr hT hpart.starts.loops) hr _).prepend hbranch
  next hch =>
    rw [if_neg hch] at hbranch
    exact hbranch

/-- The rounds of a loop, from its condition on -/
theorem lands_execFor {condBlock nextBlock bodyBlock endBlock brk cont : Nat}
    (hcond : ∀ t, Reach (stepSwitch F o) 1 (.at condBlock 0, t)
      (.at (if o.choose (evc t) then bodyBlock else endBlock) 0, o.decided (evc t)))
    (hbody : ∀ t, Lands (stepSwitch F o) fuel (.at bodyBlock 0, t) (.at nextBlock 0) endBlock nextBlock
      (exb t))
    (hpost : ∀ t t', (exb t = (.normal, t') ∨ exb t = (.continue, t')) →
      Lands (stepSwitch F o) fuel (.at nextBlock 0, t') (.at condBlock 0) brk cont (exp t'))
    {n : Nat} (hn : n ≤ fuel) (t : Trace) :
    Lands (stepSwitch F o) n (.at condBlock 0, t) (.at endBlock 0) brk cont
      (execFor o evc exp exb n t) := by
  induction n generalizing t with
  | zero => exact ⟨_, .refl _ _⟩
  | succ n ih =>
    have ih := ih (by omega)
    have hc := hcond t
    simp only [execFor]
    split
    next hch =>
      rw [if_pos hch] at hc
      have hb := hbody (o.decided (evc t))
      have hp := hpost (o.decided (evc t))
      -- the post block and the rounds after it, when the body got to it at `t'`
      have hnext : ∀ t', Reach (stepSwitch F o) 1 (.at condBlock 0, t) (.at nextBlock 0, t') →
          Lands (stepSwitch F o) fuel (.at nextBlock 0, t') (.at condBlock 0) brk cont (exp t') →
          Lands (stepSwitch F o) (n + 1) (.at condBlock 0, t) (.at endBlock 0) brk cont
            (seqThen (exp t') (execFor o evc exp exb n)) := by
        intro t' h1 h2
        generalize exp t' = r at h2
        obtain ⟨oc, t''⟩ := r
        cases oc with
        | normal =>
          have h3 := ih t''
          have h12 : Reach (stepSwitch F o) 1 (.at condBlock 0, t) (.at condBlock 0, t'') :=
            (h1.trans h2).mono (by omega)
          simp only [seqThen]
          generalize execFor o evc exp exb n t'' = r at h3
          obtain ⟨oc, t₃⟩ := r
          cases oc with
          | timeout =>
            obtain ⟨q, hq⟩ := h3
            exact ⟨q, (h12.trans hq).mono (by omega)⟩
          | normal | done => exact h12.then h3
          | «break» => exact h12.then h3
          | «continue» => exact h12.then h3
        | «break» => exact h1.then h2
        | «continue» => exact h1.then h2
        | done => exact h1.then h2
        | timeout =>
          obtain ⟨q, hq⟩ := h2
          exact ⟨q, (h1.then hq).mono hn⟩
      generalize exb (o.decided (evc t)) = r at hb hp
      obtain ⟨oc, t'⟩ := r
      cases oc with
      | normal => exact hnext t' ((hc.trans hb).mono (by omega)) (hp t' (.inl rfl))
      | «continue» => exact hnext t' ((hc.trans hb).mono (by omega)) (hp t' (.inr rfl))
      | «break» => exact hc.seq hb
      | done => exact hc.seq hb
      | timeout =>
        obtain ⟨q, hq⟩ := hb
        exact ⟨q, (hc.then hq).mono hn⟩
    next hch =>
      rw [if_neg hch] at hc
      exact hc.mono (Nat.zero_le 1)

theorem sim_processForBlock {ri rp rb : Bool} (fi : Framed init) (hc : ExprOk F o cond evc)
    (fp : Framed post) (fb : Framed body) (hi : Sim F o fuel inLoop init exi)
    (hri : ∀ t t', exi t = (.normal, t') → ri = true)
    (hb : ∀ t t', exi t = (.normal, t') →
      Sim F o fuel true body exb ∧ ∀ t t', exb t = (.normal, t') → rb = true)
    (hp : ∀ t t', exi t = (.normal, t') → ∀ u u', (exb u = (.normal, u') ∨ exb u = (.continue, u')) →
      Sim F o fuel inLoop post exp ∧ ∀ t t', exp t = (.normal, t') → rp = true) :
    Sim F o fuel inLoop (processForBlock init ri cond post rp body rb) fun t =>
      seqThen (exi t) (execFor o evc exp exb fuel) := by
  intro s t brk cont hs hid hT hin
  cases ri with
  | false =>
    refine (hi s t brk cont hs hid hT hin).seqThen fun t' ht' => ?_
    cases hri _ _ ht'
  | true =>
    obtain ⟨condBlock, nextBlock, bodyBlock, endBlock, hlay⟩ := forLayout fi hc.frame fp fb hs hin
    obtain ⟨sc, hstart, hinc, hbranch⟩ := hlay.condPart
    obtain ⟨sb, hbody⟩ := hlay.bodyPart
    obtain ⟨sp, hpost⟩ := hlay.postPart
    refine (hi s t brk cont hs hid hT hlay.inInit).seqThen fun t' ht' => ?_
    have henter : Reach (stepSwitch F o) 1 ((init s).here, t') (.at condBlock 0, t') :=
      reach_at_branch hlay.enter
    obtain ⟨hsim, hrb⟩ := hb t t' ht'
    have hTb : Targets true 0 sb endBlock nextBlock := by
      intro _
      rw [hbody.starts.loops]
      rfl
    rw [hlay.ends]
    refine (lands_execFor (fun t => ?_) (fun t => hbody.lands hsim hid hTb hrb t) (fun u u' hu => ?_)
      (Nat.le_refl _) t').prepend henter
    · have hcond := (hc.sim sc t hstart.valid (hid.trans hstart.ids) hinc).of_step stepSwitch_of_step
      rw [hstart.here] at hcond
      exact (hcond.trans (reach_at_branchCond hbranch)).mono (by omega)
    · obtain ⟨hsimp, hrp⟩ := hp t t' ht' u u' hu
      exact hpost.lands hsimp hid (Targets.congr hT hpost.starts.loops) hrp u'

end Constructs

/-! ## The tree -/

section Tree

variable {ret : List Expression}

theorem next_of_execAll {ss : List Stmt} (t t' : Trace) (h : execAll o fuel ss t = (.normal, t')) :
    (processStatements true ss).2 = true := by
  refine next_of_allExits ss ?_
  have hexit := exits_execAll o fuel ss t
  rwa [h] at hexit

/-- The flag of a block that is left at its end -/
theorem isNextReachable_of_execAll {ss : List Stmt} (t t' : Trace)
    (h : execAll o fuel ss t = (.normal, t')) :
    (asBlock true (processStatements true ss)).1.isNextReachable = true := by
  rw [asBlock_isNextReachable, next_of_execAll t t' h, Bool.or_true]

theorem allExits_of_execAll {ss : List Stmt} {oc : Outcome} (t t' : Trace)
    (h : execAll o fuel ss t = (oc, t')) : allExits ss oc = true := by
  have hexit := exits_execAll o fuel ss t
  rwa [h] at hexit

theorem exits_of_exec {s : Stmt} {oc : Outcome} (t t' : Trace)
    (h : exec o fuel s t = (oc, t')) : exits s oc = true := by
  have hexit := exits_exec o fuel s t
  rwa [h] at hexit

theorem sim_leave {inLoop : Bool} :
    Sim F o fuel inLoop (fun s => s.add (.return ret)) fun t => (.done, t ++ [.returned]) := by
  intro s t brk cont hs _ _ hin
  have h : Reach (step F o) 1 (s.here, t) (.done, t ++ [.returned]) := reach_final rfl hs hin
  exact (h.of_step stepSwitch_of_step).mono (Nat.zero_le 1)

theorem Targets.scope {s : Lower} {brk cont : Nat} (h : Targets true 0 s brk cont) :
    s.doBreak = brk ∧ s.doContinue = cont := by
  have hhead : s.loops.head? = some ⟨brk, cont⟩ := by
    rw [List.head?_eq_getElem?]
    exact h rfl
  simp [doBreak, doContinue, hhead]

theorem sim_break : Sim F o fuel true (fun s => s.add (.branch s.doBreak)) fun t => (.break, t) := by
  intro s t brk cont hs _ hT hin
  dsimp only at hin
  rw [(Targets.scope hT).1] at hin
  exact reach_at_branch (at_here hs hin)

theorem sim_continue :
    Sim F o fuel true (fun s => s.add (.branch s.doContinue)) fun t => (.continue, t) := by
  intro s t brk cont hs _ hT hin
  dsimp only at hin
  rw [(Targets.scope hT).2] at hin
  exact reach_at_branch (at_here hs hin)

theorem lowerBlock_asBlock (i : Instr) (r : Bool) (x : List YulStatement × Bool) :
    lowerBlock i (asBlock r x).1 = lowerStatements i x.1 := by
  simp only [asBlock, lowerBlock]

mutual

theorem sim_statement : ∀ (stmt : Stmt) {inLoop : Bool}, resolved inLoop stmt = true →
    postsLowered stmt = true →
    Sim F o fuel inLoop (statement (.return ret) (resolveYulStatement true stmt).1)
      (exec o fuel stmt)
  | .effect effect, inLoop, _, _ => by
    intro s t
    simp only [resolveYulStatement, statement, exec, if_true]
    exact sim_lowerEffect effect s t
  | .block statements, inLoop, hres, hok => by
    intro s t
    have hsim := sim_statements statements hres hok
    simp only [resolveYulStatement, statement, asBlock, YulBlock.reachable, lowerBlock, exec]
    exact hsim s t
  | .ifBlock condition body, inLoop, hres, hok => by
    intro s t
    have hsim := sim_statements body hres hok
    rw [← lowerBlock_asBlock _ true] at hsim
    simp only [resolveYulStatement, statement, exec, if_true]
    exact sim_ifThen (exprOk_lowerCondition condition) (framed_lowerBlock _ _) hsim
      isNextReachable_of_execAll s t
  | .switch condition cases default, inLoop, hres, hok => by
    intro s t brk cont hs hid hT hin
    simp only [resolved, postsLowered, Bool.and_eq_true] at hres hok
    simp only [resolveYulStatement, statement, if_true, resolveCases_true] at hin ⊢
    simp only [exec]
    obtain ⟨e, sc, sd, hlay⟩ := switchLayout (exprFrame_lowerExpr condition)
      (switchFrame_cases _ _) (switchFrame_default _ _) hs hin
    have hcond := (exprSim_lowerExpr condition s t hs hid hlay.inCond).of_step stepSwitch_of_step
    have hbranch := hcond.seq (reach_at_switch hlay.branch)
    rw [hlay.ends]
    refine Lands.prepend hbranch ?_
    refine sim_cases cases hres.1 hok.1 hlay.casesValid (hid.trans hlay.casesIds)
      (Targets.congr hT hlay.casesLoops) hlay.inCases (fun t => ?_) _
    exact sim_default default hres.2 hok.2 hlay.defaultValid (hid.trans hlay.defaultIds)
      (Targets.congr hT hlay.defaultLoops) hlay.inDefault t
  | .for init condition post body, inLoop, hres, hok => by
    simp only [resolved, postsLowered, Bool.and_eq_true, Bool.or_eq_true, Bool.not_eq_true'] at hres hok
    obtain ⟨⟨hresi, hresp⟩, hresb⟩ := hres
    obtain ⟨hoki, hokr⟩ := hok
    intro s t
    have hsimi := sim_statements init hresi hoki
    rw [← lowerBlock_asBlock _ true] at hsimi
    simp only [resolveYulStatement, statement, exec, if_true]
    refine sim_processForBlock (framed_lowerBlock _ _) (exprOk_lowerCondition condition)
      (framed_lowerBlock _ _) (framed_lowerBlock _ _) hsimi ?_ ?_ ?_ s t
    · intro t t' ht'
      simp [YulBlock.isNextReachable, next_of_execAll t t' ht']
    · intro t t' ht'
      have hok := hokr.resolve_left (by simp [allExits_of_execAll t t' ht'])
      have hsim := sim_statements body hresb hok.1.1
      rw [← lowerBlock_asBlock _ true] at hsim
      simp only [next_of_execAll t t' ht', Bool.and_true]
      exact ⟨hsim, isNextReachable_of_execAll⟩
    · intro t t' ht' u u' hu
      have hok := hokr.resolve_left (by simp [allExits_of_execAll t t' ht'])
      simp only [next_of_execAll t t' ht', Bool.true_and, Bool.and_true, asBlock]
      cases hn : (processStatements true body).2 with
      | true =>
        have hreach : (allExits body .normal || allExits body .continue) = true := by
          obtain hu | hu := hu <;> simp [allExits_of_execAll u u' hu]
        have hsim := sim_statements post hresp (hok.2.resolve_left (by rw [hreach]; decide))
        exact ⟨hsim, fun t t' h => isNextReachable_of_execAll t t' h⟩
      | false =>
        -- only a `continue` gets here, and then there is nothing in the post block
        have hcont : allExits body .continue = true := by
          obtain hu | hu := hu
          · simp [next_of_execAll u u' hu] at hn
          · exact allExits_of_execAll u u' hu
        have hempty : post = [] := by simpa [hn, hcont] using hok.1.2
        subst hempty
        refine ⟨fun s t brk cont _ _ _ _ => ?_, fun _ _ _ => rfl⟩
        simp only [processStatements, lowerBlock, lowerStatements, execAll]
        exact .refl _ _
  | .leave, inLoop, _, _ => by
    intro s t
    simp only [resolveYulStatement, statement, exec, if_true]
    exact sim_leave s t
  | .break, inLoop, hres, _ => by
    intro s t
    simp only [resolved] at hres
    subst hres
    simp only [resolveYulStatement, statement, exec, if_true]
    exact sim_break s t
  | .continue, inLoop, hres, _ => by
    intro s t
    simp only [resolved] at hres
    subst hres
    simp only [resolveYulStatement, statement, exec, if_true]
    exact sim_continue s t

theorem sim_statements : ∀ (ss : List Stmt) {inLoop : Bool}, allResolved inLoop ss = true →
    allPostsLowered ss = true →
    Sim F o fuel inLoop (lowerStatements (.return ret) (processStatements true ss).1)
      (execAll o fuel ss)
  | [], inLoop, _, _ => by
    intro s t brk cont _ _ _ _
    simp only [processStatements, lowerStatements, execAll]
    exact .refl _ _
  | stmt :: ss, inLoop, hres, hok => by
    simp only [allResolved, allPostsLowered, Bool.and_eq_true, Bool.or_eq_true,
      Bool.not_eq_true'] at hres hok
    intro s t brk cont hs hid hT hin
    simp only [processStatements, lowerStatements, Bool.true_and] at hin ⊢
    simp only [execAll]
    have h1 := sim_statement stmt hres.1 hok.1
    have f1 := framed_statement (.return ret) (resolveYulStatement true stmt).1
    have g1 := f1.grows s hs
    have g2 := (framed_lowerStatements (.return ret)
      (processStatements (resolveYulStatement true stmt).2 ss).1).grows _ g1.valid
    refine (h1 s t brk cont hs hid hT (hin.of_grows g2)).seqThen fun t' ht' => ?_
    -- the rest is lowered as what can be reached
    have hexit := exits_of_exec t t' ht'
    rw [next_of_exits stmt hexit] at hin ⊢
    have hrest := hok.2.resolve_left (by simp [hexit])
    exact sim_statements ss hres.2 hrest _ t' brk cont g1.valid (hid.trans g1.ids)
      (Targets.congr hT (f1.loops s)) hin

theorem sim_cases : ∀ (cases : List Case) {inLoop : Bool}, casesResolved inLoop cases = true →
    casesPostsLowered cases = true → ∀ {s : Lower} {e d brk cont : Nat}
      {default : Trace → Outcome × Trace}, s.Valid → o.lim ≤ s.nextId → Targets inLoop 0 s brk cont →
      In F (lowerCases (.return ret) (resolveCases true cases).1 e s).2 →
      (∀ t, Lands (stepSwitch F o) fuel (.at d 0, t) (.at e 0) brk cont (default t)) → ∀ t,
        Lands (stepSwitch F o) fuel
          (.at (selectCase o d (lowerCases (.return ret) (resolveCases true cases).1 e s).1 t).1 0,
            (selectCase o d (lowerCases (.return ret) (resolveCases true cases).1 e s).1 t).2)
          (.at e 0) brk cont (execCases o fuel cases default t)
  | [], inLoop, _, _, s, e, d, brk, cont, default, _, _, _, _, hd, t => by
    simp only [resolveCases, lowerCases, selectCase, execCases]
    exact hd t
  | ⟨c, body⟩ :: cases, inLoop, hres, hok, s, e, d, brk, cont, default, hs, hid, hT, hin, hd, t => by
    simp only [casesResolved, casesPostsLowered, Bool.and_eq_true] at hres hok
    simp only [resolveCases, lowerCases, selectCase, execCases, Bool.true_or] at hin ⊢
    have fb := framed_lowerBlock (.return ret) (asBlock true (processStatements true body)).1
    have h1 : Aside s (switchBlock (lowerBlock (.return ret)
        (asBlock true (processStatements true body)).1)
        (asBlock true (processStatements true body)).1.isNextReachable e s) := aside_switchBlock fb hs
    have h2 := (switchFrame_cases (.return ret) (resolveCases true cases).1).aside e _ h1.grows.valid
    split
    next =>
      obtain ⟨s', hpart⟩ := part_switchBlock fb hs (hin.of_grows h2.grows)
      have hsim := sim_statements body hres.1 hok.1
      rw [← lowerBlock_asBlock _ true] at hsim
      exact hpart.lands hsim hid (Targets.congr hT hpart.starts.loops) isNextReachable_of_execAll _
    next =>
      exact sim_cases cases hres.2 hok.2 h1.grows.valid (hid.trans h1.grows.ids)
        (Targets.congr hT (loops_switchBlock fb s)) hin hd _

theorem sim_default : ∀ (default : Option (List Stmt)) {inLoop : Bool},
    defaultResolved inLoop default = true → defaultPostsLowered default = true →
    ∀ {s : Lower} {e brk cont : Nat}, s.Valid → o.lim ≤ s.nextId → Targets inLoop 0 s brk cont →
      In F (lowerDefault (.return ret) (resolveDefault true default).1 e s).2 → ∀ t,
        Lands (stepSwitch F o) fuel
          (.at (lowerDefault (.return ret) (resolveDefault true default).1 e s).1 0, t) (.at e 0)
          brk cont (execDefault o fuel default t)
  | none, inLoop, _, _, s, e, brk, cont, _, _, _, _, t => by
    simp only [resolveDefault, lowerDefault, execDefault]
    exact .refl _ _
  | some body, inLoop, hres, hok, s, e, brk, cont, hs, hid, hT, hin, t => by
    simp only [resolveDefault, lowerDefault, execDefault] at hin ⊢
    have fb := framed_lowerBlock (.return ret) (asBlock true (processStatements true body)).1
    obtain ⟨s', hpart⟩ := part_switchBlock fb hs hin
    have hsim := sim_statements body hres hok
    rw [← lowerBlock_asBlock _ true] at hsim
    exact hpart.lands hsim hid (Targets.congr hT hpart.starts.loops) isNextReachable_of_execAll t

end

end Tree

end Solang.Codegen.Yul
