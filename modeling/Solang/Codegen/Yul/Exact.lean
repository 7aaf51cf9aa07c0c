import Solang.Codegen.Yul.Correct

/-!
# Exactly when the lowered Yul is right

Where the source can get to, the graph has a path to, until a post block is left out.
The block that was made for it is then entered and has no instructions.
-/

namespace Solang.Codegen.Yul

open Lower Runs

variable {F : ControlFlowGraph}

/-! ## Places on a path -/

/-- The place is in a block that a path from the entry gets to. -/
def Live (F : ControlFlowGraph) (p : Position) : Prop := ∃ b k bs, p = .at b k ∧ F.Path b bs

/-- A terminator can only be the last instruction of a block. -/
def TerminatorsLast (F : ControlFlowGraph) : Prop :=
  ∀ b, ∀ i ∈ (F.block b).instr.dropLast, i.targets = none

variable {k n : Nat} {i : Instr} {o : Oracle} {q r : Position × Trace}

theorem getLast?_of_getElem? {is : List Instr} (h : ∀ i ∈ is.dropLast, i.targets = none)
    (hk : is[k]? = some i) (hi : i.targets.isSome) :
    is.getLast? = some i := by
  obtain hnil | ⟨init, last, rfl⟩ := List.eq_nil_or_concat' is
  · simp [hnil] at hk
  · rw [List.dropLast_concat] at h
    by_cases hlt : k < init.length
    · rw [List.getElem?_append_left hlt] at hk
      simp [h i (List.mem_of_getElem? hk)] at hi
    · rw [List.getElem?_append_right (Nat.not_lt.mp hlt)] at hk
      have hmem : i = last := by simpa using List.mem_of_getElem? hk
      simp [hmem]

theorem Live.of_at {p : Position} {l : List Nat} {e : Nat} (hF : TerminatorsLast F) (hp : Live F p)
    (h : At F p i) (hi : i.targets = some l) (he : e ∈ l) : Live F (.at e 0) := by
  obtain ⟨b, k, bs, rfl, hpath⟩ := hp
  obtain ⟨b', k', heq, hk⟩ := h
  cases heq
  have hlast := getLast?_of_getElem? (hF b) hk (by simp [hi])
  refine ⟨e, 0, bs ++ [b], rfl, hpath.step ?_⟩
  simpa [ControlFlowGraph.Edge, BasicBlock.successors, hlast, hi] using he

theorem Live.of_step (hF : TerminatorsLast F) (hq : Live F q.1) (h : step F o q = some r)
    (hr : r.1 ≠ .done) : Live F r.1 := by
  obtain ⟨b, k, i, hb, hk, ⟨e, rfl, rfl⟩ | ⟨c, e, f, rfl, rfl⟩ | ⟨-, rfl⟩ | ⟨-, rfl⟩⟩ := step_cases h
  · exact hq.of_at hF ⟨b, k, hb, hk⟩ rfl (by simp)
  · refine hq.of_at hF ⟨b, k, hb, hk⟩ rfl ?_
    split <;> simp
  · obtain ⟨b', k', bs, hb', hpath⟩ := hq
    cases hb.symm.trans hb'
    exact ⟨b, k + 1, bs, rfl, hpath⟩
  · exact absurd rfl hr

/-- A run from a place on a path stays on paths. -/
theorem Live.of_stepsN (hF : TerminatorsLast F) (h : StepsN (step F o) n q r) (hq : Live F q.1)
    (hr : r.1 ≠ .done) : Live F r.1 := by
  induction h with
  | refl => exact hq
  | @step n q q' r hs hrest ih =>
    refine ih (hq.of_step hF hs ?_) hr
    intro hdone
    obtain ⟨p, t⟩ := q'
    obtain rfl : p = .done := hdone
    cases hrest with
    | refl => exact hr rfl
    | step h' _ => cases h'

theorem Live.of_reach {b : Nat} {t : Trace} (hF : TerminatorsLast F) (hq : Live F q.1)
    (h : Reach (step F o) n q (.at b k, t)) :
    Live F (.at b k) := by
  obtain ⟨m, -, hm⟩ := h
  exact Live.of_stepsN hF hm hq nofun

/-- Behind an expression -/
theorem Live.of_expr {cond : Lower → Expression × Lower} {ev : Oracle → Trace → Trace}
    (hc : ∀ o, ExprOk F o cond (ev o)) (hF : TerminatorsLast F) {s : Lower} (hs : s.Valid)
    (hin : In F (cond s).2) (hlive : Live F s.here) : Live F (cond s).2.here :=
  Live.of_reach hF hlive ((hc ⟨fun _ => true, s.nextId⟩).sim s [] hs (Nat.le_refl _) hin)

/-! ## Constructs -/

/-- There is a path to each place that the exits say. -/
structure Opens (F : ControlFlowGraph) (ex : Exits) (next : Position) (brk cont : Nat) : Prop where
  normal : ex .normal = true → Live F next
  «break» : ex .break = true → Live F (.at brk 0)
  «continue» : ex .continue = true → Live F (.at cont 0)

/-- A block on a path was made since `s` and is left empty. -/
def Gap (F : ControlFlowGraph) (s s' : Lower) : Prop :=
  ∃ p, s.newBlockNo ≤ p ∧ Reserved p s' ∧ Live F (.at p 0)

/-- There are paths to where the code from `s` to `s'` can be left, or a gap when not all that
can be reached in it is lowered. -/
structure Exposed (F : ControlFlowGraph) (ok : Bool) (ex : Exits) (next : Position)
    (brk cont : Nat) (s s' : Lower) : Prop where
  opens : ok = true → Opens F ex next brk cont
  gap : ok = false → Gap F s s'

def Exposes (F : ControlFlowGraph) (inLoop : Bool) (f : Lower → Lower) (ex : Exits) (ok : Bool) :
    Prop :=
  ∀ s brk cont, s.Valid → Targets inLoop 0 s brk cont → In F (f s) → Live F s.here →
    Exposed F ok ex (f s).here brk cont s (f s)

section Constructs

variable {inLoop : Bool} {cond : Lower → Expression × Lower} {ev : Oracle → Trace → Trace}
  {init post body : Lower → Lower} {exi exp exb : Exits} {oki okp okb : Bool}

variable {next : Position} {brk cont : Nat} {s s' final : Lower} {r rp rb left : Bool}

theorem opens_noExits : Opens F .noExits next brk cont :=
  ⟨nofun, nofun, nofun⟩

theorem opens_only (h : Live F next) :
    Opens F (.only .normal) next brk cont :=
  ⟨fun _ => h, nofun, nofun⟩

theorem Opens.join {a b : Exits} {next : Position} {brk cont : Nat} (ha : Opens F a next brk cont)
    (hb : Opens F b next brk cont) : Opens F (.join a b) next brk cont where
  normal h := (Exits.join_iff.mp h).elim ha.normal hb.normal
  «break» h := (Exits.join_iff.mp h).elim ha.break hb.break
  «continue» h := (Exits.join_iff.mp h).elim ha.continue hb.continue

/-- First `a`, and `b` if it gets to the end -/
theorem Opens.andThen {a b : Exits} {mid next : Position} {brk cont : Nat}
    (ha : Opens F a mid brk cont) (hb : a .normal = true → Opens F b next brk cont) :
    Opens F (.andThen a b) next brk cont where
  normal h := by
    obtain ⟨h1, h2⟩ := Exits.andThen_normal_iff.mp h
    exact (hb h1).normal h2
  «break» h := by
    simp only [Exits.andThen, Bool.or_eq_true, Bool.and_eq_true] at h
    obtain ⟨-, h⟩ | ⟨h1, h2⟩ := h
    · exact ha.break h
    · exact (hb h1).break h2
  «continue» h := by
    simp only [Exits.andThen, Bool.or_eq_true, Bool.and_eq_true] at h
    obtain ⟨-, h⟩ | ⟨h1, h2⟩ := h
    · exact ha.continue h
    · exact (hb h1).continue h2

/-- A gap in a part of a construct is one of the construct. -/
theorem Gap.of_keeps {f : Lower → Lower} (hk : Keeps s s' final f) (h : Gap F s' (f s')) :
    Gap F s final := by
  obtain ⟨p, hle, hres, hlive⟩ := h
  obtain ⟨hle', hres'⟩ := hk p hle hres
  exact ⟨p, hle', hres', hlive⟩

/-- A part has paths to behind the construct, or the construct has a gap. -/
theorem Part.exposes {ls : List LoopScope} {b next : Nat} (hF : TerminatorsLast F)
    (hp : Part F s final body r ls b next s') (hb : Exposes F inLoop body exb okb)
    (hT : Targets inLoop 0 s' brk cont) (hr : exb .normal = true → r = true)
    (hlive : Live F (.at b 0)) :
    Exposed F okb exb (.at next 0) brk cont s final := by
  rw [← hp.starts.here] at hlive
  have h := hb s' brk cont hp.starts.valid hT hp.inside hlive
  refine ⟨fun hok => ?_, fun hok => Gap.of_keeps hp.keeps (h.gap hok)⟩
  have ho := h.opens hok
  refine ⟨fun hn => ?_, ho.break, ho.continue⟩
  exact (ho.normal hn).of_at hF (hp.jump (hr hn)) rfl (by simp)

theorem exposes_lowerEffect (hF : TerminatorsLast F) (e : Effect) :
    Exposes F inLoop (lowerEffect e) (if e.reachable then .only .normal else .noExits) true := by
  intro s brk cont hs _ hin hlive
  refine ⟨fun _ => ?_, nofun⟩
  cases hn : e.noreturn with
  | some i =>
    simp only [Effect.reachable, hn, Option.isNone_some, Bool.false_eq_true, if_false]
    exact opens_noExits
  | none =>
    let o : Oracle := ⟨fun _ => true, s.nextId⟩
    have h : Lands (step F o) 0 (s.here, []) (lowerEffect e s).here brk cont (perform o e []) :=
      lands_lowerEffect hs (Nat.le_refl _) hin []
    simp only [perform, hn] at h
    simp only [Effect.reachable, hn, Option.isNone_none, if_true]
    exact opens_only (Live.of_reach hF hlive h)

theorem exposes_leave (ret : List Expression) :
    Exposes F inLoop (fun s => s.add (.return ret)) .noExits true :=
  fun _ _ _ _ _ _ _ => ⟨fun _ => opens_noExits, nofun⟩

theorem exposes_break (hF : TerminatorsLast F) :
    Exposes F true (fun s => s.add (.branch s.doBreak)) (.only .break) true := by
  intro s brk cont hs hT hin hlive
  dsimp only at hin
  rw [(Targets.scope hT).1] at hin
  have hto : Live F (.at brk 0) := hlive.of_at hF (at_here hs hin) rfl (by simp)
  exact ⟨fun _ => ⟨nofun, fun _ => hto, nofun⟩, nofun⟩

theorem exposes_continue (hF : TerminatorsLast F) :
    Exposes F true (fun s => s.add (.branch s.doContinue)) (.only .continue) true := by
  intro s brk cont hs hT hin hlive
  dsimp only at hin
  rw [(Targets.scope hT).2] at hin
  have hto : Live F (.at cont 0) := hlive.of_at hF (at_here hs hin) rfl (by simp)
  exact ⟨fun _ => ⟨nofun, nofun, fun _ => hto⟩, nofun⟩

theorem exposes_ifThen (hF : TerminatorsLast F) (hc : ∀ o, ExprOk F o cond (ev o))
    (hf : Framed body) (hb : Exposes F inLoop body exb okb) (hr : exb .normal = true → r = true) :
    Exposes F inLoop (ifThen cond body r) (.join (.only .normal) exb) okb := by
  intro s brk cont hs hT hin hlive
  obtain ⟨thenBlock, endif, hlay⟩ := ifLayout (hc ⟨fun _ => true, 0⟩).frame hf hs hin
  obtain ⟨s', hpart⟩ := hlay.thenPart
  have hcond := Live.of_expr hc hF hs hlay.inCond hlive
  have hthen : Live F (.at thenBlock 0) := hcond.of_at hF hlay.branch rfl (by simp)
  have hend : Live F (.at endif 0) := hcond.of_at hF hlay.branch rfl (by simp)
  have h := hpart.exposes hF hb (Targets.congr hT hpart.starts.loops) hr hthen
  rw [hlay.ends]
  exact ⟨fun hok => (opens_only hend).join (h.opens hok), h.gap⟩

theorem Opens.loop {next : Position} {brk cont : Nat} (hn : Live F next)
    (hp : (exb .normal || exb .continue) = true → Opens F exp next brk cont) :
    Opens F (.loop exp exb) next brk cont where
  normal _ := hn
  «break» h := by
    simp only [Exits.loop, Bool.or_eq_true, Bool.and_eq_true] at h
    obtain h | ⟨⟨hb, -⟩, h⟩ := h
    · cases h
    · exact (hp (by simpa using hb)).break h
  «continue» h := by
    simp only [Exits.loop, Bool.or_eq_true, Bool.and_eq_true] at h
    obtain h | ⟨⟨hb, -⟩, h⟩ := h
    · cases h
    · exact (hp (by simpa using hb)).continue h

/-- The rounds of a loop: the post block is `left` out, and then `continue` gets to where it
should be, or it is lowered as what can be reached. -/
theorem exposes_rounds (hF : TerminatorsLast F) (hc : ∀ o, ExprOk F o cond (ev o))
    {condBlock nextBlock bodyBlock endBlock : Nat}
    (hlay : ForLayout F init cond post rp body rb s final condBlock nextBlock bodyBlock endBlock)
    (hT : Targets inLoop 0 s brk cont) (hlive : Live F (init s).here)
    (hb : Exposes F true body exb okb ∧ (exb .normal = true → rb = true))
    (hp : (exb .normal || exb .continue) = true → left = false →
      Exposes F inLoop post exp okp ∧ (exp .normal = true → rp = true))
    (hleft : left = true → exb .continue = true ∧ post = id ∧ rp = false) :
    Exposed F (okb && !left && (!(exb .normal || exb .continue) || okp)) (.loop exp exb)
      (.at endBlock 0) brk cont s final := by
  obtain ⟨sc, hstart, hinc, hbranch⟩ := hlay.condPart
  obtain ⟨sb, hbody⟩ := hlay.bodyPart
  obtain ⟨sp, hpost⟩ := hlay.postPart
  have henter : Live F sc.here := by
    rw [hstart.here]
    exact hlive.of_at hF hlay.enter rfl (by simp)
  have hcond := Live.of_expr hc hF hstart.valid hinc henter
  have hbodyLive : Live F (.at bodyBlock 0) := hcond.of_at hF hbranch rfl (by simp)
  have hendLive : Live F (.at endBlock 0) := hcond.of_at hF hbranch rfl (by simp)
  have hTb : Targets true 0 sb endBlock nextBlock := by
    intro _
    rw [hbody.starts.loops]
    rfl
  have hround := hbody.exposes hF hb.1 hTb hb.2 hbodyLive
  have hnextLive : okb = true → (exb .normal || exb .continue) = true → Live F (.at nextBlock 0) :=
    fun hok h => ((Bool.or_eq_true _ _).mp h).elim (hround.opens hok).normal
      (hround.opens hok).continue
  have hafter : okb = true → (exb .normal || exb .continue) = true → left = false →
      Exposed F okp exp (.at condBlock 0) brk cont s final := fun hok hnext hl =>
    hpost.exposes hF (hp hnext hl).1 (Targets.congr hT hpost.starts.loops) (hp hnext hl).2
      (hnextLive hok hnext)
  constructor
  · intro hok
    simp only [Bool.and_eq_true, Bool.not_eq_true', Bool.or_eq_true] at hok
    obtain ⟨⟨hokb, hl⟩, hokp⟩ := hok
    refine Opens.loop hendLive fun hnext => ?_
    have ho := (hafter hokb hnext hl).opens (hokp.resolve_left (by simp [hnext]))
    exact ⟨fun _ => hendLive, ho.break, ho.continue⟩
  · intro hok
    cases hokb : okb with
    | false => exact hround.gap hokb
    | true =>
      cases hl : left with
      | true =>
        obtain ⟨hcont, hid, hrp⟩ := hleft hl
        obtain ⟨hle, hres⟩ := hlay.unfilled hid hrp
        exact ⟨nextBlock, hle, hres, (hround.opens hokb).continue hcont⟩
      | false =>
        simp only [hokb, hl, Bool.true_and, Bool.not_false, Bool.or_eq_false_iff,
          Bool.not_eq_false'] at hok
        exact (hafter hokb hok.1 hl).gap hok.2

theorem exposes_processForBlock {ri : Bool} (hF : TerminatorsLast F) (fi : Framed init)
    (hc : ∀ o, ExprOk F o cond (ev o)) (fp : Framed post) (fb : Framed body)
    (hi : Exposes F inLoop init exi oki) (hri : exi .normal = true → ri = true)
    (hb : exi .normal = true → Exposes F true body exb okb ∧ (exb .normal = true → rb = true))
    (hp : exi .normal = true → (exb .normal || exb .continue) = true → left = false →
      Exposes F inLoop post exp okp ∧ (exp .normal = true → rp = true))
    (hleft : exi .normal = true → left = true →
      exb .continue = true ∧ post = id ∧ rp = false) :
    Exposes F inLoop (processForBlock init ri cond post rp body rb)
      (.andThen exi (.loop exp exb))
      (oki && (!exi .normal || (okb && !left && (!(exb .normal || exb .continue) || okp)))) := by
  intro s brk cont hs hT hin hlive
  cases ri with
  | false =>
    have hni : exi .normal = false := by
      rw [← Bool.not_eq_true]
      intro hn
      cases hri hn
    have h := hi s brk cont hs hT hin hlive
    simp only [hni, Bool.not_false, Bool.true_or, Bool.and_true]
    refine ⟨fun hok => (h.opens hok).andThen fun hn => ?_, h.gap⟩
    cases hri hn
  | true =>
    obtain ⟨condBlock, nextBlock, bodyBlock, endBlock, hlay⟩ :=
      forLayout fi (hc ⟨fun _ => true, 0⟩).frame fp fb hs hin
    have h := hi s brk cont hs hT hlay.inInit hlive
    have hrounds := fun hok hn => exposes_rounds hF hc hlay hT ((h.opens hok).normal hn) (hb hn)
      (hp hn) (hleft hn)
    rw [hlay.ends]
    constructor
    · intro hok
      simp only [Bool.and_eq_true, Bool.or_eq_true, Bool.not_eq_true'] at hok
      refine (h.opens hok.1).andThen fun hn => (hrounds hok.1 hn).opens ?_
      simpa using hok.2.resolve_left (by simp [hn])
    · intro hok
      cases hoki : oki with
      | false => exact (h.gap hoki).of_keeps hlay.initKeeps
      | true =>
        rw [hoki, Bool.true_and, Bool.or_eq_false_iff] at hok
        exact (hrounds hoki (by simpa using hok.1)).gap hok.2

end Constructs

/-! ## The tree -/

section Tree

variable {ret : List Expression}

/-- The flag of a block that can be left at its end -/
theorem isNextReachable_of_allExits {ss : List Stmt} (h : allExits ss .normal = true) :
    (asBlock true (processStatements true ss)).1.isNextReachable = true := by
  rw [asBlock_isNextReachable, next_of_allExits ss h, Bool.or_true]

theorem asBlock_snd (r : Bool) (x : List YulStatement × Bool) : (asBlock r x).2 = (x.2 && r) := rfl

/-- What is not lowered, after the end of a body that cannot be reached -/
theorem lowerBlock_unreachable (i : Instr) (ss : List Stmt) :
    lowerBlock i (asBlock false (processStatements false ss)).1 = id := by
  funext s
  rw [lowerBlock_asBlock]
  exact lowerStatements_unreachable i ss s

theorem isNextReachable_unreachable (ss : List Stmt) :
    (asBlock false (processStatements false ss)).1.isNextReachable = ss.isEmpty := by
  simp [asBlock, YulBlock.isNextReachable, processStatements_isEmpty]

theorem exposes_nil {inLoop : Bool} : Exposes F inLoop id (.only .normal) true :=
  fun _ _ _ _ _ _ hlive => ⟨fun _ => opens_only hlive, nofun⟩

mutual

theorem exposes_statement (hF : TerminatorsLast F) : ∀ (stmt : Stmt) {inLoop : Bool},
    resolved inLoop stmt = true →
    Exposes F inLoop (statement (.return ret) (resolveYulStatement true stmt).1) (exits stmt)
      (postsLowered stmt)
  | .effect effect, inLoop, _ => by
    simp only [resolveYulStatement, statement, exits, postsLowered, if_true]
    exact exposes_lowerEffect hF effect
  | .block statements, inLoop, hres => by
    have h := exposes_statements hF statements hres
    rw [← lowerBlock_asBlock _ true] at h
    simp only [resolveYulStatement, statement, exits, postsLowered]
    exact h
  | .ifBlock condition body, inLoop, hres => by
    have h := exposes_statements hF body hres
    rw [← lowerBlock_asBlock _ true] at h
    simp only [resolveYulStatement, statement, exits, postsLowered, if_true]
    exact exposes_ifThen hF (fun o => exprOk_lowerCondition condition) (framed_lowerBlock _ _) h
      isNextReachable_of_allExits
  | .switch condition cases default, inLoop, hres => by
    simp only [resolved, Bool.and_eq_true] at hres
    intro s brk cont hs hT hin hlive
    simp only [resolveYulStatement, statement, if_true, resolveCases_true] at hin ⊢
    simp only [exits, postsLowered]
    obtain ⟨e, sc, sd, hlay⟩ := switchLayout (exprFrame_lowerExpr condition)
      (switchFrame_cases _ _) (switchFrame_default _ _) hs hin
    have hcond := Live.of_expr (fun o => exprOk_lowerExpr condition) hF hs hlay.inCond hlive
    have hcases := exposes_cases hF cases hres.1 hlay.casesValid (Targets.congr hT hlay.casesLoops)
      hlay.inCases fun b hb => hcond.of_at hF hlay.branch rfl (List.mem_cons_of_mem _ hb)
    have hdefault := exposes_default hF default hres.2 hlay.defaultValid
      (Targets.congr hT hlay.defaultLoops) hlay.inDefault
      (hcond.of_at hF hlay.branch rfl List.mem_cons_self)
    rw [hlay.ends]
    constructor
    · intro hok
      rw [Bool.and_eq_true] at hok
      exact (hcases.opens hok.1).join (hdefault.opens hok.2)
    · intro hok
      obtain hok | hok := Bool.and_eq_false_iff.mp hok
      · exact Gap.of_keeps hlay.casesKeep (hcases.gap hok)
      · exact Gap.of_keeps hlay.defaultKeep (hdefault.gap hok)
  | .for init condition post body, inLoop, hres => by
    simp only [resolved, Bool.and_eq_true] at hres
    obtain ⟨⟨hresi, hresp⟩, hresb⟩ := hres
    have hi := exposes_statements hF init hresi
    rw [← lowerBlock_asBlock _ true] at hi
    have hb := exposes_statements hF body hresb
    rw [← lowerBlock_asBlock _ true] at hb
    have hp := exposes_statements hF post hresp
    rw [← lowerBlock_asBlock _ true] at hp
    -- the post block is left out
    let left := !(post.isEmpty || (processStatements true body).2 || !allExits body .continue)
    have hleft : (post.isEmpty || (processStatements true body).2 || !allExits body .continue) =
        !left := by simp [left]
    simp only [resolveYulStatement, statement, exits, postsLowered, if_true, hleft]
    refine exposes_processForBlock hF (framed_lowerBlock _ _)
      (fun o => exprOk_lowerCondition condition) (framed_lowerBlock _ _) (framed_lowerBlock _ _)
      hi ?_ ?_ ?_ ?_
    · intro hn
      simp [YulBlock.isNextReachable, next_of_allExits init hn]
    · intro hn
      simp only [next_of_allExits init hn, Bool.and_true]
      exact ⟨hb, isNextReachable_of_allExits⟩
    · intro hn hnext hl
      simp only [next_of_allExits init hn, Bool.and_true, Bool.true_and, asBlock_snd]
      cases hnb : (processStatements true body).2 with
      | true => exact ⟨hp, isNextReachable_of_allExits⟩
      | false =>
        -- only a `continue` gets here, and then there is nothing in the post block
        have hcont : allExits body .continue = true := by
          obtain h | h := (Bool.or_eq_true _ _).mp hnext
          · cases hnb.symm.trans (next_of_allExits body h)
          · exact h
        have hempty : post = [] := by simpa [left, hnb, hcont] using hl
        subst hempty
        rw [lowerBlock_unreachable]
        exact ⟨exposes_nil, fun _ => rfl⟩
    · intro hn hl
      simp only [left, Bool.not_eq_true', Bool.or_eq_false_iff, Bool.not_eq_false'] at hl
      obtain ⟨⟨hempty, hnb⟩, hcont⟩ := hl
      simp only [next_of_allExits init hn, Bool.and_true, Bool.true_and, asBlock_snd, hnb]
      refine ⟨hcont, lowerBlock_unreachable _ _, ?_⟩
      rw [isNextReachable_unreachable, hempty]
  | .leave, inLoop, _ => by
    simp only [resolveYulStatement, statement, exits, postsLowered, if_true]
    exact exposes_leave ret
  | .break, inLoop, hres => by
    simp only [resolved] at hres
    subst hres
    simp only [resolveYulStatement, statement, exits, postsLowered, if_true]
    exact exposes_break hF
  | .continue, inLoop, hres => by
    simp only [resolved] at hres
    subst hres
    simp only [resolveYulStatement, statement, exits, postsLowered, if_true]
    exact exposes_continue hF

theorem exposes_statements (hF : TerminatorsLast F) : ∀ (ss : List Stmt) {inLoop : Bool},
    allResolved inLoop ss = true →
    Exposes F inLoop (lowerStatements (.return ret) (processStatements true ss).1) (allExits ss)
      (allPostsLowered ss)
  | [], inLoop, _ => by
    intro s brk cont _ _ _ hlive
    simp only [processStatements, lowerStatements, allExits]
    exact ⟨fun _ => opens_only hlive, nofun⟩
  | stmt :: ss, inLoop, hres => by
    simp only [allResolved, Bool.and_eq_true] at hres
    intro s brk cont hs hT hin hlive
    simp only [processStatements, lowerStatements, Bool.true_and] at hin ⊢
    simp only [allExits, allPostsLowered]
    have f1 := framed_statement (.return ret) (resolveYulStatement true stmt).1
    have g1 := f1.grows s hs
    have g2 := (framed_lowerStatements (.return ret)
      (processStatements (resolveYulStatement true stmt).2 ss).1).grows _ g1.valid
    have h1 := exposes_statement hF stmt hres.1 s brk cont hs hT (hin.of_grows g2) hlive
    -- the rest is lowered as what can be reached
    have h2 := fun (hok : postsLowered stmt = true) (hn : exits stmt .normal = true) =>
      exposes_statements hF ss hres.2 _ brk cont g1.valid (Targets.congr hT (f1.loops s))
        (by rwa [next_of_exits stmt hn] at hin) ((h1.opens hok).normal hn)
    constructor
    · intro hok
      simp only [Bool.and_eq_true, Bool.or_eq_true, Bool.not_eq_true'] at hok
      refine (h1.opens hok.1).andThen fun hn => ?_
      rw [next_of_exits stmt hn]
      exact (h2 hok.1 hn).opens (hok.2.resolve_left (by simp [hn]))
    · intro hok
      cases hok1 : postsLowered stmt with
      | false =>
        obtain ⟨p, hle, hp, hlivep⟩ := h1.gap hok1
        exact ⟨p, hle, hp.grows g2, hlivep⟩
      | true =>
        rw [hok1, Bool.true_and, Bool.or_eq_false_iff, Bool.not_eq_false'] at hok
        obtain ⟨p, hle, hp, hlivep⟩ := (h2 hok1 hok.1).gap hok.2
        rw [next_of_exits stmt hok.1]
        exact ⟨p, g1.len.trans hle, hp, hlivep⟩

theorem exposes_cases (hF : TerminatorsLast F) : ∀ (cases : List Case) {inLoop : Bool},
    casesResolved inLoop cases = true → ∀ {s : Lower} {e brk cont : Nat}, s.Valid →
      Targets inLoop 0 s brk cont →
      In F (lowerCases (.return ret) (resolveCases true cases).1 e s).2 →
      (∀ b ∈ (lowerCases (.return ret) (resolveCases true cases).1 e s).1.map (·.2),
        Live F (.at b 0)) →
      Exposed F (casesPostsLowered cases) (casesExits cases) (.at e 0) brk cont s
        (lowerCases (.return ret) (resolveCases true cases).1 e s).2
  | [], inLoop, _, s, e, brk, cont, _, _, _, _ => ⟨fun _ => opens_noExits, nofun⟩
  | ⟨c, body⟩ :: cases, inLoop, hres, s, e, brk, cont, hs, hT, hin, hlive => by
    simp only [casesResolved, Bool.and_eq_true] at hres
    simp only [resolveCases, lowerCases, Bool.true_or, List.map_cons, List.forall_mem_cons] at hin hlive ⊢
    simp only [casesExits, casesPostsLowered]
    have fb := framed_lowerBlock (.return ret) (asBlock true (processStatements true body)).1
    have h1 : Aside s (switchBlock (lowerBlock (.return ret)
        (asBlock true (processStatements true body)).1)
        (asBlock true (processStatements true body)).1.isNextReachable e s) := aside_switchBlock fb hs
    have h2 := (switchFrame_cases (.return ret) (resolveCases true cases).1).aside e _ h1.grows.valid
    obtain ⟨s', hpart⟩ := part_switchBlock fb hs (hin.of_grows h2.grows)
    have hb := exposes_statements hF body hres.1
    rw [← lowerBlock_asBlock _ true] at hb
    have hbody := hpart.exposes hF hb (Targets.congr hT hpart.starts.loops)
      isNextReachable_of_allExits hlive.1
    have hrest := exposes_cases hF cases hres.2 h1.grows.valid
      (Targets.congr hT (loops_switchBlock fb s)) hin hlive.2
    constructor
    · intro hok
      rw [Bool.and_eq_true] at hok
      exact (hbody.opens hok.1).join (hrest.opens hok.2)
    · intro hok
      obtain hok | hok := Bool.and_eq_false_iff.mp hok
      · obtain ⟨p, hle, hp, hlivep⟩ := hbody.gap hok
        exact ⟨p, hle, hp.grows h2.grows, hlivep⟩
      · obtain ⟨p, hle, hp, hlivep⟩ := hrest.gap hok
        exact ⟨p, h1.grows.len.trans hle, hp, hlivep⟩

theorem exposes_default (hF : TerminatorsLast F) : ∀ (default : Option (List Stmt)) {inLoop : Bool},
    defaultResolved inLoop default = true → ∀ {s : Lower} {e brk cont : Nat}, s.Valid →
      Targets inLoop 0 s brk cont →
      In F (lowerDefault (.return ret) (resolveDefault true default).1 e s).2 →
      Live F (.at (lowerDefault (.return ret) (resolveDefault true default).1 e s).1 0) →
      Exposed F (defaultPostsLowered default) (defaultExits default) (.at e 0) brk cont s
        (lowerDefault (.return ret) (resolveDefault true default).1 e s).2
  | none, inLoop, _, s, e, brk, cont, _, _, _, hlive => ⟨fun _ => opens_only hlive, nofun⟩
  | some body, inLoop, hres, s, e, brk, cont, hs, hT, hin, hlive => by
    simp only [resolveDefault, lowerDefault] at hin hlive ⊢
    have fb := framed_lowerBlock (.return ret) (asBlock true (processStatements true body)).1
    obtain ⟨s', hpart⟩ := part_switchBlock fb hs hin
    have hb := exposes_statements hF body hres
    rw [← lowerBlock_asBlock _ true] at hb
    exact hpart.exposes hF hb (Targets.congr hT hpart.starts.loops) isNextReachable_of_allExits hlive

end

end Tree

/-! ## Functions -/

section Function

variable {body : List Stmt}

/-- Where a post block is left out, a path gets to the empty block that was made for it. -/
theorem exists_empty_of_not_postsLowered (returns : List Expression) (nextId : Nat)
    (hres : allResolved false body = true) (hok : allPostsLowered body = false) :
    ∃ b bs, (yulFunctionCfg body returns nextId).Path b bs ∧
      ((yulFunctionCfg body returns nextId).block b).instr = [] := by
  let F := yulFunctionCfg body returns nextId
  let s1 := lowerStatements (.return returns) (processStatements true body).1 (entryState nextId)
  have hin : In F (finalState body returns nextId) := by
    intro b
    simp only [F, yulFunctionCfg_eq]
    exact List.prefix_rfl
  have v1 : s1.Valid := ((framed_lowerStatements (.return returns) _).grows _ valid_entryState).valid
  have hstart : Live F (entryState nextId).here := ⟨0, 0, [], here_entryState, .entry⟩
  have h := exposes_statements (fun b => shape_yulFunctionCfg b) body hres (entryState nextId) 0 0
    valid_entryState (fun h => absurd h Bool.false_ne_true) (hin.of_addIf v1) hstart
  obtain ⟨p, -, hp, b, k, bs, heq, hpath⟩ := h.gap hok
  cases heq
  have hfinal : Reserved p (finalState body returns nextId) := hp.addIf v1
  refine ⟨p, bs, hpath, ?_⟩
  rw [yulFunctionCfg_eq]
  exact hfinal.empty

end Function

/-! ## Samples -/

namespace Sample

def cond : Condition := ⟨bareCond, .bool⟩

/-- An assignment of the variable 0 -/
def assign : Stmt :=
  .effect ⟨.basic ⟨[.set 0 (.numberLiteral (.uint 256) 1)], by decide, [0],
    .variable (.uint 256) 0⟩, none⟩

/-- `for { } c { i := 1 } { switch c case 0 { continue } default { if c { break } } i := 1 }` -/
def searchLoop : List Stmt :=
  [.for [] cond [assign]
    [.switch cond.expr [⟨.numberLiteral (.uint 256) 0, [.continue]⟩] (some [.ifBlock cond [.break]]),
      assign]]

/-- `for { } c { i := 1 } { continue }` -/
def continueLoop : List Stmt := [.for [] cond [assign] [.continue]]

end Sample

end Solang.Codegen.Yul
