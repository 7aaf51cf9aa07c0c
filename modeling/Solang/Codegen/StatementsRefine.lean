import Solang.Codegen.Lands
import Solang.Codegen.StatementsSim

/-!
# Statements

The simulation of the statements, construct by construct. A loop is simulated
round by round; every round takes at least one step of the graph, which is
what relates a loop that runs out of fuel to a run that goes on.
-/

namespace Solang.Codegen

open Lower Runs

variable {F : ControlFlowGraph} {o : Oracle} {fuel : Nat}

/-! ## Rounds of a loop -/

/-- What is left of a round of a loop lands back at its head, after at least
`n` steps, or at its exit. -/
def RoundLands (F : ControlFlowGraph) (o : Oracle) (fuel : Nat) (n : Nat)
    (start : Position × Trace) (head exit : Nat) (r : Outcome × Trace) : Prop :=
  match r with
  | (.normal, t) | (.continue, t) => Reach (step F o) n start (.at head 0, t)
  | (.break, t) => Reach (step F o) 0 start (.at exit 0, t)
  | (.done, t) => Reach (step F o) 0 start (.done, t)
  | (.timeout, t) => ∃ q, Reach (step F o) fuel start (q, t)

variable {m n head exit brk cont d : Nat} {s s' : Lower} {inLoop : Bool}

variable {r : Outcome × Trace} {s'' : Lower} {f : Lower → Lower} {ex : Trace → Outcome × Trace}

theorem RoundLands.prepend {a b : Position × Trace} (h : Reach (step F o) m a b)
    (hr : RoundLands F o fuel n b head exit r) :
    RoundLands F o fuel (m + n) a head exit r := by
  obtain ⟨oc, t⟩ := r
  cases oc with
  | normal => exact h.trans hr
  | «continue» => exact h.trans hr
  | «break» => exact h.then hr
  | done => exact h.then hr
  | timeout =>
    obtain ⟨q, hq⟩ := hr
    exact ⟨q, h.then hq⟩

theorem RoundLands.mono {m n : Nat} {a : Position × Trace} {head exit : Nat}
    {r : Outcome × Trace} (hr : RoundLands F o fuel n a head exit r) (hmn : m ≤ n) :
    RoundLands F o fuel m a head exit r := by
  obtain ⟨oc, t⟩ := r
  cases oc with
  | normal => exact Reach.mono hr hmn
  | «continue» => exact Reach.mono hr hmn
  | «break» => exact hr
  | done | timeout => exact hr

/-- The body of a loop and what follows it in the round. A `continue` has made
a step of its own. -/
theorem RoundLands.bodyThen {a : Position × Trace} {p : Position} {head exit cont : Nat}
    {r : Outcome × Trace} {k : Trace → Outcome × Trace} (hl : Lands (step F o) fuel a p exit cont r)
    (hn : ∀ t, r = (.normal, t) → RoundLands F o fuel 1 (p, t) head exit (k t))
    (hc : ∀ t, r = (.continue, t) → RoundLands F o fuel 0 (.at cont 0, t) head exit (k t)) :
    RoundLands F o fuel 1 a head exit (bodyThen r k) := by
  obtain ⟨oc, t⟩ := r
  cases oc with
  | normal => exact (RoundLands.prepend hl (hn t rfl)).mono (by omega)
  | «continue» => exact RoundLands.prepend hl (hc t rfl)
  | «break» => exact Reach.mono hl (by omega)
  | done | timeout => exact hl

/-- A body whose `continue` leads to the head. -/
theorem Lands.round {a : Position × Trace} {p : Position}
    (hl : Lands (step F o) fuel a p exit head r)
    (hn : ∀ t, r = (.normal, t) → Reach (step F o) 0 (p, t) (.at head 0, t)) :
    RoundLands F o fuel 0 a head exit r := by
  obtain ⟨oc, t⟩ := r
  cases oc with
  | normal => exact Reach.seq hl (hn t rfl)
  | «continue» => exact Reach.mono hl (by omega)
  | «break» => exact Reach.mono hl (by omega)
  | done | timeout => exact hl

/-- A loop whose rounds land, lands after the loop. -/
theorem lands_iterate {round : Trace → Outcome × Trace}
    (h : ∀ t, RoundLands F o fuel 1 (.at head 0, t) head exit (round t)) (hn : n ≤ fuel) (t : Trace) :
    Lands (step F o) n (.at head 0, t) (.at exit 0) brk cont (iterate round n t) := by
  induction n generalizing t with
  | zero => exact ⟨_, .refl _ _⟩
  | succ n ih =>
    have hr := h t
    have ih := ih (by omega)
    -- after a round that goes on, at least one step has been made
    have hnext : ∀ t', Reach (step F o) 1 (.at head 0, t) (.at head 0, t') →
        Lands (step F o) (n + 1) (.at head 0, t) (.at exit 0) brk cont (iterate round n t') := by
      intro t' h1
      have h2 := ih t'
      generalize iterate round n t' = r at h2
      obtain ⟨oc, t''⟩ := r
      cases oc with
      | normal | done => exact h1.then h2
      | «break» => exact h1.then h2
      | «continue» => exact h1.then h2
      | timeout =>
        obtain ⟨q, hq⟩ := h2
        exact ⟨q, (h1.trans hq).mono (by omega)⟩
    simp only [iterate]
    generalize round t = r at hr
    obtain ⟨oc, t'⟩ := r
    cases oc with
    | normal => exact hnext t' hr
    | «continue» => exact hnext t' hr
    | «break» => exact hr
    | done => exact hr
    | timeout =>
      obtain ⟨q, hq⟩ := hr
      exact ⟨q, hq.mono hn⟩

/-! ## Loop scopes -/

/-- The scopes after the lowering: `n` more, below which the others stay. -/
def Leaks (n : Nat) (s s' : Lower) : Prop :=
  ∃ ls : List LoopScope, ls.length = n ∧ s'.loops = ls ++ s.loops

theorem Leaks.refl (h : s'.loops = s.loops) : Leaks 0 s s' := ⟨[], rfl, by simp [h]⟩

theorem Leaks.trans (h : Leaks m s s') (h' : Leaks n s' s'') :
    Leaks (m + n) s s'' := by
  obtain ⟨ls, hl, h⟩ := h
  obtain ⟨ls', hl', h'⟩ := h'
  exact ⟨ls' ++ ls, by simp [hl, hl', Nat.add_comm], by rw [h', h, List.append_assoc]⟩

theorem Leaks.of_eq (h : Leaks m s s') (h' : s''.loops = s'.loops) (hn : n = m) :
    Leaks n s s'' := by
  obtain ⟨ls, hl, h⟩ := h
  exact ⟨ls, by rw [hl, hn], by rw [h', h]⟩

/-- Leaving a scope after scopes entered since were not left takes the wrong
one, but keeps their number. -/
theorem tail_append_cons {α : Type} (x : α) (ls l : List α) :
    ∃ ls', ls'.length = ls.length ∧ (ls ++ x :: l).tail = ls' ++ l := by
  cases ls with
  | nil => exact ⟨[], rfl, rfl⟩
  | cons y ls => exact ⟨ls ++ [x], by simp, by simp⟩

/-- `do_break` and `do_continue` of the loop around the statement, below the
`d` scopes that were not left. -/
def Targets (inLoop : Bool) (d : Nat) (s : Lower) (brk cont : Nat) : Prop :=
  inLoop = true → s.loops[d]? = some ⟨brk, cont⟩

theorem Targets.leaks (h : Targets inLoop d s brk cont) (hl : Leaks n s s') :
    Targets inLoop (d + n) s' brk cont := by
  intro hi
  obtain ⟨ls, rfl, hs⟩ := hl
  rw [hs, List.getElem?_append_right (by omega), Nat.add_sub_cancel]
  exact h hi

/-- The lowered statement lands where its meaning `ex` says, when the loop
around it, if any, is `d` scopes down. -/
structure StmtSim (F : ControlFlowGraph) (o : Oracle) (fuel : Nat) (inLoop : Bool) (d n : Nat)
    (f : Lower → Lower) (ex : Trace → Outcome × Trace) : Prop where
  frame : StmtFrame f
  run : ∀ s, Leaks n s (f s) ∧ ∀ brk cont t, s.Valid → o.lim ≤ s.nextId →
    Targets inLoop d s brk cont → In F (f s) →
      Lands (step F o) fuel (s.here, t) (f s).here brk cont (ex t)

theorem StmtSim.leaks (h : StmtSim F o fuel inLoop d n f ex) (s : Lower) :
    Leaks n s (f s) := (h.run s).1

theorem StmtSim.lands (h : StmtSim F o fuel inLoop d n f ex) (t : Trace) (hs : s.Valid)
    (hid : o.lim ≤ s.nextId) (hT : Targets inLoop d s brk cont) (hin : In F (f s)) :
    Lands (step F o) fuel (s.here, t) (f s).here brk cont (ex t) := (h.run s).2 brk cont t hs hid hT hin

/-- The lowered expression makes the visits `ev`. -/
structure ExprOk (F : ControlFlowGraph) (o : Oracle) (f : Lower → Expression × Lower)
    (ev : Trace → Trace) : Prop where
  frame : ExprFrame f
  sim : ExprSim F o f ev

theorem exprOk_lowerExpr (e : SrcExpr) : ExprOk F o (lowerExpr e) (eval o e) :=
  ⟨exprFrame_lowerExpr e, exprSim_lowerExpr e⟩

/-! ## Branches -/

section Branches

variable {inLoop : Bool} {d n m : Nat} {cond : Lower → Expression × Lower} {evc : Trace → Trace}
  {body other : Lower → Lower} {ex ex' : Trace → Outcome × Trace}

/-- The jump at the end of a body that the flag calls reachable. -/
theorem reach_addIf {r : Bool} {b : Nat} {t : Trace} (hr : r = true) (hs : s.Valid)
    (hin : In F (if r then s.add (.branch b) else s)) :
    Reach (step F o) 1 (s.here, t) (.at b 0, t) := by
  subst hr
  exact reach_branch hs hin

theorem stmtSim_ifThen {r : Bool} (hc : ExprOk F o cond evc)
    (hb : StmtSim F o fuel inLoop d n body ex) (hr : ∀ t t', ex t = (.normal, t') → r = true) :
    StmtSim F o fuel inLoop d n (ifThen cond body r) fun t =>
      if o.choose (evc t) then ex (o.decided (evc t)) else (.normal, o.decided (evc t)) where
  frame := stmtFrame_ifThen hc.frame hb.frame
  run s := by
    let s1 := (cond s).2
    let thenBlock := s1.newBlockNo
    let endif := s1.newBasicBlock.newBlockNo
    let s2 := s1.newBasicBlock.newBasicBlock
    let s3 := s2.add (.branchCond (cond s).1 thenBlock endif)
    let s4 := (s3.setBasicBlock thenBlock).newDirtyTracker
    let s5 := body s4
    let s6 := if r then s5.add (.branch endif) else s5
    have hs4 : s4.loops = s.loops := by simp [s4, s3, s2, s1, hc.frame.loops]
    have h4 : Leaks 0 s s4 := .refl hs4
    refine ⟨(h4.trans (hb.leaks s4)).of_eq ?_ (Nat.zero_add n).symm, ?_⟩
    · exact (loops_setPhis s6 endif s6.topDirty).trans (loops_addIf s5 r _)
    intro brk cont t hs hid hT hin
    have g1 := hc.frame.grows s hs
    have v2 : s2.Valid := g1.valid.new.new
    have hne : endif ≠ thenBlock := by simp [endif, thenBlock]
    have rt : Reserved thenBlock s3 := (reserved_new g1.valid).new.add v2
    have v4 : s4.Valid := rt.lt
    have g4 : Grows s4 s5 := hb.frame s4 v4
    have re4 : Reserved endif s4 :=
      (((reserved_new g1.valid.new).add v2).setBasicBlock hne).newDirtyTracker
    have re : Reserved endif s6 := (re4.grows g4).addIf g4.valid
    have hin6 : In F (s6.setPhis endif s6.topDirty) := hin
    have hin6 : In F s6 := hin6.of_setPhis
    have hin5 : In F s5 := hin6.of_addIf g4.valid
    have hin4 : In F s4 := hin5.of_grows g4
    have hin3 : In F s3 := hin4
    have hin1 : In F s1 := (hin3.of_add v2).congr (by simp [s2])
    have hid4 : o.lim ≤ s4.nextId := by
      simp only [s4, s3, s2, nextId_newDirtyTracker, nextId_setBasicBlock, nextId_add,
        nextId_newBasicBlock]
      exact hid.trans g1.ids
    have hend : (ifThen cond body r s).here = .at endif 0 := by
      rw [← re.here_setBasicBlock]
      exact here_congr (t := (s6.setPhis endif s6.topDirty).popDirtyTracker.setBasicBlock endif)
        (by simp) (by simp)
    have h2 : s2.here = s1.here := here_congr (by simp [s2]) (by simp [s2])
    have hcond := hc.sim s t hs hid hin1
    rw [← h2] at hcond
    have hbranch := hcond.seq (reach_branchCond v2 hin3)
    rw [hend]
    split
    · rename_i hch
      rw [if_pos hch, ← rt.here_setBasicBlock] at hbranch
      have hl := hb.lands (o.decided (evc t)) v4 hid4 (hT.leaks h4) hin5
      refine Lands.prepend hbranch (hl.append fun t' ht' => ?_)
      exact (reach_addIf (hr _ _ ht') g4.valid hin6).mono (Nat.zero_le 1)
    · rename_i hch
      rw [if_neg hch] at hbranch
      exact hbranch

theorem stmtSim_ifThenElse {r r' : Bool} (hc : ExprOk F o cond evc)
    (hb : StmtSim F o fuel inLoop d n body ex)
    (ho : StmtSim F o fuel inLoop (d + n) m other ex')
    (hr : ∀ t t', ex t = (.normal, t') → r = true)
    (hr' : ∀ t t', ex' t = (.normal, t') → r' = true) :
    StmtSim F o fuel inLoop d (n + m) (ifThenElse cond body other r r') fun t =>
      if o.choose (evc t) then ex (o.decided (evc t)) else ex' (o.decided (evc t)) where
  frame := stmtFrame_ifThenElse hc.frame hb.frame ho.frame
  run s := by
    let s1 := (cond s).2
    let thenBlock := s1.newBlockNo
    let elseBlock := s1.newBasicBlock.newBlockNo
    let endif := s1.newBasicBlock.newBasicBlock.newBlockNo
    let s2 := s1.newBasicBlock.newBasicBlock.newBasicBlock
    let s3 := s2.add (.branchCond (cond s).1 thenBlock elseBlock)
    let s4 := (s3.setBasicBlock thenBlock).newDirtyTracker
    let s5 := body s4
    let s6 := if r then s5.add (.branch endif) else s5
    let s7 := s6.setBasicBlock elseBlock
    let s8 := other s7
    let s9 := if r' then s8.add (.branch endif) else s8
    have h4 : Leaks 0 s s4 := .refl (by simp [s4, s3, s2, s1, hc.frame.loops])
    have h7 : Leaks n s s7 :=
      (h4.trans (hb.leaks s4)).of_eq (loops_addIf s5 r _) (Nat.zero_add n).symm
    refine ⟨(h7.trans (ho.leaks s7)).of_eq ?_ rfl, ?_⟩
    · exact (loops_setPhis s9 endif s9.topDirty).trans (loops_addIf s8 r' _)
    intro brk cont t hs hid hT hin
    have g1 := hc.frame.grows s hs
    have v2 : s2.Valid := g1.valid.new.new.new
    have het : elseBlock ≠ thenBlock := by simp [elseBlock, thenBlock]
    have hnt : endif ≠ thenBlock := by
      simp only [endif, thenBlock, newBlockNo_newBasicBlock]
      omega
    have hne : endif ≠ elseBlock := by simp [endif, elseBlock]
    have rt : Reserved thenBlock s3 := (reserved_new g1.valid).new.new.add v2
    have v4 : s4.Valid := rt.lt
    have g4 : Grows s4 s5 := hb.frame s4 v4
    have rs4 : Reserved elseBlock s4 :=
      (((reserved_new g1.valid.new).new.add v2).setBasicBlock het).newDirtyTracker
    have rs6 : Reserved elseBlock s6 := (rs4.grows g4).addIf g4.valid
    have v7 : s7.Valid := rs6.lt
    have g7 : Grows s7 s8 := ho.frame s7 v7
    have re4 : Reserved endif s4 :=
      (((reserved_new g1.valid.new.new).add v2).setBasicBlock hnt).newDirtyTracker
    have re7 : Reserved endif s7 := ((re4.grows g4).addIf g4.valid).setBasicBlock hne
    have re : Reserved endif s9 := (re7.grows g7).addIf g7.valid
    have hin9 : In F (s9.setPhis endif s9.topDirty) := hin
    have hin9 : In F s9 := hin9.of_setPhis
    have hin8 : In F s8 := hin9.of_addIf g7.valid
    have hin7 : In F s7 := hin8.of_grows g7
    have hin6 : In F s6 := hin7
    have hin5 : In F s5 := hin6.of_addIf g4.valid
    have hin4 : In F s4 := hin5.of_grows g4
    have hin3 : In F s3 := hin4
    have hin1 : In F s1 := (hin3.of_add v2).congr (by simp [s2])
    have hid4 : o.lim ≤ s4.nextId := by
      simp only [s4, s3, s2, nextId_newDirtyTracker, nextId_setBasicBlock, nextId_add,
        nextId_newBasicBlock]
      exact hid.trans g1.ids
    have hid7 : o.lim ≤ s7.nextId := by
      simp only [s7, s6, nextId_setBasicBlock, nextId_addIf]
      exact hid4.trans g4.ids
    have hend : (ifThenElse cond body other r r' s).here = .at endif 0 := by
      rw [← re.here_setBasicBlock]
      exact here_congr (t := (s9.setPhis endif s9.topDirty).popDirtyTracker.setBasicBlock endif)
        (by simp) (by simp)
    have h2 : s2.here = s1.here := here_congr (by simp [s2]) (by simp [s2])
    have hcond := hc.sim s t hs hid hin1
    rw [← h2] at hcond
    have hbranch := hcond.seq (reach_branchCond v2 hin3)
    rw [hend]
    split
    · rename_i hch
      rw [if_pos hch, ← rt.here_setBasicBlock] at hbranch
      have hl := hb.lands (o.decided (evc t)) v4 hid4 (hT.leaks h4) hin5
      refine Lands.prepend hbranch (hl.append fun t' ht' => ?_)
      exact (reach_addIf (hr _ _ ht') g4.valid hin6).mono (Nat.zero_le 1)
    · rename_i hch
      rw [if_neg hch, ← rs6.here_setBasicBlock] at hbranch
      have hl := ho.lands (o.decided (evc t)) v7 hid7 (hT.leaks h7) hin8
      refine Lands.prepend hbranch (hl.append fun t' ht' => ?_)
      exact (reach_addIf (hr' _ _ ht') g7.valid hin9).mono (Nat.zero_le 1)

end Branches

/-! ## Loops -/

section Loops

variable {inLoop : Bool} {d n m : Nat} {cond : Lower → Expression × Lower} {evc : Trace → Trace}
  {body init : Lower → Lower} {ex exi : Trace → Outcome × Trace}

/-- A scope that is entered before and left after. -/
theorem Leaks.leaveScope {b c : Nat} {s s' : Lower} {s0 : Lower} (h0 : s0.loops = ⟨b, c⟩ :: s.loops)
    (h : Leaks n s0 s') : Leaks n s s'.leaveScope := by
  obtain ⟨ls, hl, h⟩ := h
  obtain ⟨ls', hl', h'⟩ := tail_append_cons (⟨b, c⟩ : LoopScope) ls s.loops
  refine ⟨ls', hl'.trans hl, ?_⟩
  rw [loops_leaveScope, h, h0, h']

theorem targets_enterScope {t : Lower} {b c : Nat} (h : t.loops = ⟨b, c⟩ :: s.loops) :
    Targets true 0 t b c := by
  intro _
  rw [h]
  rfl

/-- The condition of a loop, evaluated where `s` stands, and the branch on it. -/
theorem roundLands_guarded {inner : Nat} {k : Trace → Outcome × Trace} (hc : ExprOk F o cond evc)
    (hs : s.Valid) (hid : o.lim ≤ s.nextId)
    (hin : In F ((cond s).2.add (.branchCond (cond s).1 inner exit))) (t : Trace)
    (hk : RoundLands F o fuel 0 (.at inner 0, o.decided (evc t)) head exit (k (o.decided (evc t)))) :
    RoundLands F o fuel 1 (s.here, t) head exit (guarded o evc k t) := by
  have g := hc.frame.grows s hs
  have hcond := hc.sim s t hs hid (hin.of_add g.valid)
  have hbranch := hcond.then (reach_branchCond g.valid hin)
  unfold guarded
  dsimp only
  split
  · rename_i hch
    rw [if_pos hch] at hbranch
    exact RoundLands.prepend hbranch hk
  · rename_i hch
    rw [if_neg hch] at hbranch
    exact hbranch.mono (Nat.zero_le 1)

variable {r : Bool} {next : Option Effect}

theorem stmtSim_whileLoop (hc : ExprOk F o cond evc) (hb : StmtSim F o fuel true 0 n body ex)
    (hr : ∀ t t', ex t = (.normal, t') → r = true) :
    StmtSim F o fuel inLoop d n (whileLoop cond body r) (iterate (guarded o evc ex) fuel) where
  frame := stmtFrame_whileLoop hc.frame hb.frame
  run s := by
    let condBlock := s.newBlockNo
    let bodyBlock := s.newBasicBlock.newBlockNo
    let endBlock := s.newBasicBlock.newBasicBlock.newBlockNo
    let s1 := s.newBasicBlock.newBasicBlock.newBasicBlock
    let s2 := s1.add (.branch condBlock)
    let s3 := s2.setBasicBlock condBlock
    let s4 := (cond s3).2
    let s5 := s4.add (.branchCond (cond s3).1 bodyBlock endBlock)
    let s6 := (s5.setBasicBlock bodyBlock).newDirtyTracker.enterScope endBlock condBlock
    let s7 := body s6
    let s8 := if r then s7.add (.branch condBlock) else s7
    let s9 := (s8.leaveScope.popDirtyTracker.setPhis endBlock s8.topDirty).setPhis condBlock
      s8.topDirty
    have hs6 : s6.loops = ⟨endBlock, condBlock⟩ :: s.loops := by
      simp [s6, s5, s4, hc.frame.loops, s3, s2, s1]
    have h8 : Leaks n s6 s8 := (hb.leaks s6).of_eq (loops_addIf s7 r _) rfl
    refine ⟨(h8.leaveScope hs6).of_eq (show s9.loops = _ by simp [s9]) rfl, ?_⟩
    intro brk cont t hs hid hT hin
    have v1 : s1.Valid := hs.new.new.new
    have hbc : bodyBlock ≠ condBlock := by simp [bodyBlock, condBlock]
    have hec : endBlock ≠ condBlock := by
      simp only [endBlock, condBlock, newBlockNo_newBasicBlock]
      omega
    have heb : endBlock ≠ bodyBlock := by simp [endBlock, bodyBlock]
    have rc : Reserved condBlock s2 := (reserved_new hs).new.new.add v1
    have v3 : s3.Valid := rc.lt
    have g3 : Grows s3 s4 := hc.frame.grows s3 v3
    have rb3 : Reserved bodyBlock s3 := ((reserved_new hs.new).new.add v1).setBasicBlock hbc
    have rb : Reserved bodyBlock s5 := (rb3.grows g3).add g3.valid
    have v6 : s6.Valid := rb.lt
    have g6 : Grows s6 s7 := hb.frame s6 v6
    have re3 : Reserved endBlock s3 := ((reserved_new hs.new.new).add v1).setBasicBlock hec
    have re6 : Reserved endBlock s6 :=
      (((re3.grows g3).add g3.valid).setBasicBlock heb).newDirtyTracker.enterScope
    have re : Reserved endBlock s8 := (re6.grows g6).addIf g6.valid
    have hin9 : In F s9 := hin
    have hin8 : In F s8 := hin9.of_setPhis.of_setPhis
    have hin7 : In F s7 := hin8.of_addIf g6.valid
    have hin6 : In F s6 := hin7.of_grows g6
    have hin5 : In F s5 := hin6
    have hin4 : In F s4 := hin5.of_add g3.valid
    have hin3 : In F s3 := hin4.of_grows g3
    have hin2 : In F s2 := hin3
    have hid3 : o.lim ≤ s3.nextId := by
      simpa only [s3, s2, s1, nextId_setBasicBlock, nextId_add, nextId_newBasicBlock] using hid
    have hid6 : o.lim ≤ s6.nextId := by
      simp only [s6, s5, nextId_enterScope, nextId_newDirtyTracker, nextId_setBasicBlock, nextId_add]
      exact hid3.trans g3.ids
    have hend : (whileLoop cond body r s).here = .at endBlock 0 := by
      rw [← re.here_setBasicBlock]
      exact here_congr (t := s9.setBasicBlock endBlock) (by simp) (by simp [s9])
    have h1 : s1.here = s.here := here_congr (by simp [s1]) (by simp [s1])
    have h6 : s6.here = .at bodyBlock 0 := rb.here_setBasicBlock
    have hround : ∀ t, RoundLands F o fuel 1 (.at condBlock 0, t) condBlock endBlock
        (guarded o evc ex t) := by
      intro t
      rw [← rc.here_setBasicBlock]
      refine roundLands_guarded hc v3 hid3 hin5 t ?_
      have hl := hb.lands (o.decided (evc t)) v6 hid6 (targets_enterScope hs6) hin7
      rw [h6] at hl
      refine hl.round fun t' ht' => ?_
      exact (reach_addIf (hr _ _ ht') g6.valid hin8).mono (Nat.zero_le 1)
    rw [hend]
    have hentry : Reach (step F o) 1 (s.here, t) (.at condBlock 0, t) := by
      rw [← h1]
      exact reach_branch v1 hin2
    exact (lands_iterate hround le_rfl t).prepend hentry

theorem stmtSim_doWhileLoop (hb : StmtSim F o fuel true 0 n body ex) (hc : ExprOk F o cond evc)
    (hr : ∀ t t', ex t = (.normal, t') → r = true) :
    StmtSim F o fuel inLoop d (n + 1) (doWhileLoop body r cond)
      (iterate (fun t => bodyThen (ex t) (guarded o evc fun t => (.normal, t))) fuel) where
  frame := stmtFrame_doWhileLoop hb.frame hc.frame
  run s := by
    let bodyBlock := s.newBlockNo
    let condBlock := s.newBasicBlock.newBlockNo
    let endBlock := s.newBasicBlock.newBasicBlock.newBlockNo
    let s1 := s.newBasicBlock.newBasicBlock.newBasicBlock
    let s2 := s1.add (.branch bodyBlock)
    let s3 := (s2.setBasicBlock bodyBlock).newDirtyTracker.enterScope endBlock condBlock
    let s4 := body s3
    let s5 := if r then s4.add (.branch condBlock) else s4
    let s6 := s5.setBasicBlock condBlock
    let s7 := (cond s6).2
    let s8 := s7.add (.branchCond (cond s6).1 bodyBlock endBlock)
    let s9 := ((s8.popDirtyTracker.setPhis endBlock s8.topDirty).setPhis bodyBlock
      s8.topDirty).setPhis condBlock s8.topDirty
    have hs3 : s3.loops = ⟨endBlock, condBlock⟩ :: s.loops := by simp [s3, s2, s1]
    have h3 : Leaks 1 s s3 := ⟨[⟨endBlock, condBlock⟩], rfl, hs3⟩
    refine ⟨(h3.trans (hb.leaks s3)).of_eq (show s9.loops = s4.loops from ?_) (Nat.add_comm n 1), ?_⟩
    · simp [s9, s8, s7, hc.frame.loops, s6, s5]
    intro brk cont t hs hid hT hin
    have v1 : s1.Valid := hs.new.new.new
    have hcb : condBlock ≠ bodyBlock := by simp [bodyBlock, condBlock]
    have heb : endBlock ≠ bodyBlock := by
      simp only [endBlock, bodyBlock, newBlockNo_newBasicBlock]
      omega
    have hec : endBlock ≠ condBlock := by simp [endBlock, condBlock]
    have rb : Reserved bodyBlock s2 := (reserved_new hs).new.new.add v1
    have v3 : s3.Valid := rb.lt
    have g3 : Grows s3 s4 := hb.frame s3 v3
    have rc3 : Reserved condBlock s3 :=
      (((reserved_new hs.new).new.add v1).setBasicBlock hcb).newDirtyTracker.enterScope
    have rc : Reserved condBlock s5 := (rc3.grows g3).addIf g3.valid
    have v6 : s6.Valid := rc.lt
    have g6 : Grows s6 s7 := hc.frame.grows s6 v6
    have re3 : Reserved endBlock s3 :=
      (((reserved_new hs.new.new).add v1).setBasicBlock heb).newDirtyTracker.enterScope
    have re6 : Reserved endBlock s6 := ((re3.grows g3).addIf g3.valid).setBasicBlock hec
    have re : Reserved endBlock s8 := (re6.grows g6).add g6.valid
    have hin9 : In F s9 := hin
    have hin8 : In F s8 := hin9.of_setPhis.of_setPhis.of_setPhis
    have hin6 : In F s6 := (hin8.of_add g6.valid).of_grows g6
    have hin5 : In F s5 := hin6
    have hin4 : In F s4 := hin5.of_addIf g3.valid
    have hin3 : In F s3 := hin4.of_grows g3
    have hin2 : In F s2 := hin3
    have hid3 : o.lim ≤ s3.nextId := by
      simpa only [s3, s2, s1, nextId_enterScope, nextId_newDirtyTracker, nextId_setBasicBlock,
        nextId_add, nextId_newBasicBlock] using hid
    have hid6 : o.lim ≤ s6.nextId := by
      simp only [s6, s5, nextId_setBasicBlock, nextId_addIf]
      exact hid3.trans g3.ids
    have hend : (doWhileLoop body r cond s).here = .at endBlock 0 := by
      rw [← re.here_setBasicBlock]
      exact here_congr (t := s9.setBasicBlock endBlock) (by simp) (by simp [s9])
    have h1 : s1.here = s.here := here_congr (by simp [s1]) (by simp [s1])
    have h3 : s3.here = .at bodyBlock 0 := rb.here_setBasicBlock
    have hround : ∀ t, RoundLands F o fuel 1 (.at bodyBlock 0, t) bodyBlock endBlock
        (bodyThen (ex t) (guarded o evc fun t => (.normal, t))) := by
      intro t
      -- the condition, from the start of its block
      have hcond : ∀ t', RoundLands F o fuel 1 (.at condBlock 0, t') bodyBlock endBlock
          (guarded o evc (fun t => (.normal, t)) t') := by
        intro t'
        rw [← rc.here_setBasicBlock]
        exact roundLands_guarded hc v6 hid6 hin8 t' (.refl _ _)
      have hl := hb.lands t v3 hid3 (targets_enterScope hs3) hin4
      rw [h3] at hl
      refine RoundLands.bodyThen hl (fun t' ht' => ?_) fun t' _ => (hcond t').mono (by omega)
      exact (RoundLands.prepend (reach_addIf (hr _ _ ht') g3.valid hin5) (hcond t')).mono (by omega)
    rw [hend]
    have hentry : Reach (step F o) 1 (s.here, t) (.at bodyBlock 0, t) := by
      rw [← h1]
      exact reach_branch v1 hin2
    exact (lands_iterate hround le_rfl t).prepend hentry

theorem loops_lowerEffect (e : Effect) (s : Lower) : (lowerEffect e s).loops = s.loops := by
  unfold lowerEffect
  cases e.noreturn <;> simp [(exprFrame_lowerExpr e.expr).loops]

theorem lands_lowerEffect {e : Effect} (hs : s.Valid) (hid : o.lim ≤ s.nextId)
    (hin : In F (lowerEffect e s)) (t : Trace) :
    Lands (step F o) fuel (s.here, t) (lowerEffect e s).here brk cont (perform o e t) := by
  have g := (exprFrame_lowerExpr e.expr).grows s hs
  unfold lowerEffect at hin ⊢
  unfold perform
  cases hn : e.noreturn with
  | none =>
    simp only [hn] at hin
    exact exprSim_lowerExpr e.expr s t hs hid hin
  | some i =>
    simp only [hn] at hin
    have h := exprSim_lowerExpr e.expr s t hs hid (hin.of_add g.valid)
    exact h.seq (reach_final i.targets g.valid hin)

section Next

variable {next : Option Effect} {s : Lower} {nextBlock target : Nat}

theorem loops_forNext {r : Bool} :
    (forNext (next.map lowerEffect) r nextBlock target s).loops = s.loops := by
  unfold forNext
  rw [loops_addIf]
  cases next with
  | none => rfl
  | some e => exact loops_lowerEffect e _

theorem grows_forNext {r : Bool} (hs : Reserved nextBlock s) :
    Grows (s.setBasicBlock nextBlock) (forNext (next.map lowerEffect) r nextBlock target s) := by
  have h : Grows (s.setBasicBlock nextBlock) (s.setBasicBlock nextBlock) := .refl hs.lt
  refine GrowsTo.addIf ?_
  cases next with
  | none => exact h
  | some e => exact h.part (stmtFrame_lowerEffect e)

/-- The next-block runs the next-expression and goes back. -/
theorem roundLands_forNext (hs : Reserved nextBlock s) (hid : o.lim ≤ s.nextId)
    (hin : In F (forNext (next.map lowerEffect) (next.all Effect.reachable) nextBlock target s))
    (t : Trace) :
    RoundLands F o fuel 1 (.at nextBlock 0, t) target exit (performNext o next t) := by
  rw [← hs.here_setBasicBlock]
  have v : (s.setBasicBlock nextBlock).Valid := hs.lt
  cases next with
  | none => exact reach_branch v hin
  | some e =>
    have g := stmtFrame_lowerEffect e _ v
    have hin1 : In F (lowerEffect e (s.setBasicBlock nextBlock)) := hin.of_addIf g.valid
    have hl : Lands (step F o) fuel _ _ 0 0 _ := lands_lowerEffect (e := e) v hid hin1 t
    have hout := perform_outcome o e t
    simp only [performNext]
    generalize perform o e t = r at hl hout
    obtain ⟨oc, t'⟩ := r
    simp only at hout
    subst hout
    cases hr : e.reachable with
    | false =>
      rw [hr] at hl
      exact hl
    | true =>
      rw [hr] at hl
      have hb : Reach (step F o) 1 ((lowerEffect e (s.setBasicBlock nextBlock)).here, t')
          (.at target 0, t') := reach_addIf hr g.valid hin
      exact (Reach.trans hl hb).mono (by omega)

end Next

theorem stmtSim_forLoop (hi : StmtSim F o fuel inLoop d n init exi)
    (hb : StmtSim F o fuel true 0 m body ex) (hr : ∀ t t', ex t = (.normal, t') → r = true)
    (hcont : next.isSome → ∀ t t', ex t = (.continue, t') → r = true) :
    StmtSim F o fuel inLoop d (n + m)
      (forLoop init (next.map lowerEffect) (next.all Effect.reachable) body r)
      fun t => seqThen (exi t) (iterate (fun t => bodyThen (ex t) (performNext o next)) fuel) where
  frame := by
    refine stmtFrame_forLoop hi.frame ?_ hb.frame
    intro f hf
    obtain ⟨e, -, rfl⟩ := Option.map_eq_some_iff.mp hf
    exact stmtFrame_lowerEffect e
  run s := by
    let bodyBlock := s.newBlockNo
    let nextBlock := s.newBasicBlock.newBlockNo
    let endBlock := s.newBasicBlock.newBasicBlock.newBlockNo
    let contBlock := if (next.map lowerEffect).isNone then bodyBlock else nextBlock
    let s1 := s.newBasicBlock.newBasicBlock.newBasicBlock
    let s2 := init s1
    let s3 := s2.add (.branch bodyBlock)
    let s4 := ((s3.setBasicBlock bodyBlock).enterScope endBlock contBlock).newDirtyTracker
    let s5 := body s4
    let s6 := if r then s5.add (.branch nextBlock) else s5
    let s7 := s6.leaveScope
    let s8 := if r then forNext (next.map lowerEffect) (next.all Effect.reachable) nextBlock
      bodyBlock s7 else s7
    let s9 := ((s8.popDirtyTracker.setPhis nextBlock s8.topDirty).setPhis bodyBlock
      s8.topDirty).setPhis endBlock s8.topDirty
    have h2 : Leaks n s s2 := hi.leaks s1
    have hs4 : s4.loops = ⟨endBlock, contBlock⟩ :: s2.loops := by simp [s4, s3]
    have h6 : Leaks m s4 s6 := (hb.leaks s4).of_eq (loops_addIf s5 r _) rfl
    have h7 : Leaks m s2 s7 := h6.leaveScope hs4
    have hs9 : s9.loops = s7.loops := by
      simp only [s9, s8, loops_setPhis, loops_popDirtyTracker]
      split
      · exact loops_forNext
      · rfl
    refine ⟨(h2.trans h7).of_eq hs9 rfl, ?_⟩
    intro brk cont t hs hid hT hin
    have v1 : s1.Valid := hs.new.new.new
    have hnb : nextBlock ≠ bodyBlock := by simp [bodyBlock, nextBlock]
    have heb : endBlock ≠ bodyBlock := by
      simp only [endBlock, bodyBlock, newBlockNo_newBasicBlock]
      omega
    have hen : endBlock ≠ nextBlock := by simp [endBlock, nextBlock]
    have g1 : Grows s1 s2 := hi.frame s1 v1
    have rb : Reserved bodyBlock s3 := ((reserved_new hs).new.new.grows g1).add g1.valid
    have v4 : s4.Valid := rb.lt
    have g4 : Grows s4 s5 := hb.frame s4 v4
    have rn4 : Reserved nextBlock s4 :=
      ((((reserved_new hs.new).new.grows g1).add g1.valid).setBasicBlock hnb).enterScope.newDirtyTracker
    have rn : Reserved nextBlock s7 := ((rn4.grows g4).addIf g4.valid).leaveScope
    have re4 : Reserved endBlock s4 :=
      ((((reserved_new hs.new.new).grows g1).add g1.valid).setBasicBlock heb).enterScope.newDirtyTracker
    have re7 : Reserved endBlock s7 := ((re4.grows g4).addIf g4.valid).leaveScope
    have re : Reserved endBlock s8 := by
      simp only [s8]
      split
      · exact (re7.setBasicBlock hen).grows (grows_forNext rn)
      · exact re7
    have hin9 : In F s9 := hin
    have hin8 : In F s8 := hin9.of_setPhis.of_setPhis.of_setPhis
    have hin7 : In F s7 := by
      simp only [s8] at hin8
      split at hin8
      · exact (hin8.of_grows (grows_forNext rn) : In F (s7.setBasicBlock nextBlock))
      · exact hin8
    have hin6 : In F s6 := hin7
    have hin5 : In F s5 := hin6.of_addIf g4.valid
    have hin4 : In F s4 := hin5.of_grows g4
    have hin3 : In F s3 := hin4
    have hin2 : In F s2 := hin3.of_add g1.valid
    have hid1 : o.lim ≤ s1.nextId := hid
    have hid4 : o.lim ≤ s4.nextId := by
      simp only [s4, s3, nextId_enterScope, nextId_newDirtyTracker, nextId_setBasicBlock, nextId_add]
      exact hid1.trans g1.ids
    have hid7 : o.lim ≤ s7.nextId := by
      simp only [s7, s6, nextId_leaveScope, nextId_addIf]
      exact hid4.trans g4.ids
    have hend : (forLoop init (next.map lowerEffect) (next.all Effect.reachable) body r s).here =
        .at endBlock 0 := by
      rw [← re.here_setBasicBlock]
      exact here_congr (t := s9.setBasicBlock endBlock) (by simp) (by simp [s9])
    have h1 : s1.here = s.here := here_congr (by simp [s1]) (by simp [s1])
    have h4 : s4.here = .at bodyBlock 0 := rb.here_setBasicBlock
    -- the next-block, when the flag says that it was filled
    have hnext : r = true → ∀ t', RoundLands F o fuel 1 (.at nextBlock 0, t') bodyBlock endBlock
        (performNext o next t') := by
      intro hr t'
      simp only [s8, hr, if_true] at hin8
      exact roundLands_forNext rn hid7 hin8 t'
    have hround : ∀ t, RoundLands F o fuel 1 (.at bodyBlock 0, t) bodyBlock endBlock
        (bodyThen (ex t) (performNext o next)) := by
      intro t
      have hl := hb.lands t v4 hid4 (targets_enterScope hs4) hin5
      rw [h4] at hl
      refine RoundLands.bodyThen hl (fun t' ht' => ?_) fun t' ht' => ?_
      · have hr := hr _ _ ht'
        exact (RoundLands.prepend (reach_addIf hr g4.valid hin6) (hnext hr t')).mono (by omega)
      · cases hnx : next with
        | none =>
          simp only [contBlock, hnx, Option.map_none, Option.isNone_none, if_true]
          exact .refl _ _
        | some e =>
          have hr := hcont (by simp [hnx]) _ _ ht'
          have h := (hnext hr t').mono (Nat.zero_le 1)
          simpa [contBlock, hnx] using h
    have hinit := hi.lands t v1 hid1 (hT.leaks (.refl rfl : Leaks 0 s s1)) hin2
    rw [h1] at hinit
    rw [hend]
    refine hinit.seqThen fun t' _ => ?_
    have hentry : Reach (step F o) 1 (s2.here, t') (.at bodyBlock 0, t') :=
      reach_branch g1.valid hin3
    exact (lands_iterate hround le_rfl t').prepend hentry

theorem stmtSim_forLoopCond (hi : StmtSim F o fuel inLoop d n init exi) (hc : ExprOk F o cond evc)
    (hb : StmtSim F o fuel true 0 m body ex) (hr : ∀ t t', ex t = (.normal, t') → r = true) :
    StmtSim F o fuel inLoop d (n + m)
      (forLoopCond init cond (next.map lowerEffect) (next.all Effect.reachable) body r)
      fun t => seqThen (exi t)
        (iterate (guarded o evc fun t => bodyThen (ex t) (performNext o next)) fuel) where
  frame := by
    refine stmtFrame_forLoopCond hi.frame hc.frame ?_ hb.frame
    intro f hf
    obtain ⟨e, -, rfl⟩ := Option.map_eq_some_iff.mp hf
    exact stmtFrame_lowerEffect e
  run s := by
    let bodyBlock := s.newBlockNo
    let condBlock := s.newBasicBlock.newBlockNo
    let nextBlock := s.newBasicBlock.newBasicBlock.newBlockNo
    let endBlock := s.newBasicBlock.newBasicBlock.newBasicBlock.newBlockNo
    let s1 := s.newBasicBlock.newBasicBlock.newBasicBlock.newBasicBlock
    let s2 := init s1
    let s3 := s2.add (.branch condBlock)
    let s4 := s3.setBasicBlock condBlock
    let s5 := (cond s4).2
    let s6 := s5.add (.branchCond (cond s4).1 bodyBlock endBlock)
    let s7 := ((s6.setBasicBlock bodyBlock).enterScope endBlock nextBlock).newDirtyTracker
    let s8 := body s7
    let s9 := if r then s8.add (.branch nextBlock) else s8
    let s10 := s9.leaveScope
    let s11 := forNext (next.map lowerEffect) (next.all Effect.reachable) nextBlock condBlock s10
    let s12 := s11.setBasicBlock endBlock
    let s13 := ((s12.popDirtyTracker.setPhis nextBlock s12.topDirty).setPhis endBlock
      s12.topDirty).setPhis condBlock s12.topDirty
    have h2 : Leaks n s s2 := hi.leaks s1
    have hs7 : s7.loops = ⟨endBlock, nextBlock⟩ :: s2.loops := by
      simp [s7, s6, s5, hc.frame.loops, s4, s3]
    have h9 : Leaks m s7 s9 := (hb.leaks s7).of_eq (loops_addIf s8 r _) rfl
    have h10 : Leaks m s2 s10 := h9.leaveScope hs7
    have hs13 : s13.loops = s10.loops := by
      simp only [s13, s12, loops_setPhis, loops_popDirtyTracker, loops_setBasicBlock]
      exact loops_forNext
    refine ⟨(h2.trans h10).of_eq hs13 rfl, ?_⟩
    intro brk cont t hs hid hT hin
    have v1 : s1.Valid := hs.new.new.new.new
    have hbc : bodyBlock ≠ condBlock := by simp [bodyBlock, condBlock]
    have hnc : nextBlock ≠ condBlock := by simp [nextBlock, condBlock]
    have hnb : nextBlock ≠ bodyBlock := by
      simp only [nextBlock, bodyBlock, newBlockNo_newBasicBlock]
      omega
    have hec : endBlock ≠ condBlock := by
      simp only [endBlock, condBlock, newBlockNo_newBasicBlock]
      omega
    have heb : endBlock ≠ bodyBlock := by
      simp only [endBlock, bodyBlock, newBlockNo_newBasicBlock]
      omega
    have hen : endBlock ≠ nextBlock := by simp [endBlock, nextBlock]
    have g1 : Grows s1 s2 := hi.frame s1 v1
    have rc : Reserved condBlock s3 := ((reserved_new hs.new).new.new.grows g1).add g1.valid
    have v4 : s4.Valid := rc.lt
    have g4 : Grows s4 s5 := hc.frame.grows s4 v4
    have rb4 : Reserved bodyBlock s4 :=
      (((reserved_new hs).new.new.new.grows g1).add g1.valid).setBasicBlock hbc
    have rb : Reserved bodyBlock s6 := (rb4.grows g4).add g4.valid
    have v7 : s7.Valid := rb.lt
    have g7 : Grows s7 s8 := hb.frame s7 v7
    have rn4 : Reserved nextBlock s4 :=
      (((reserved_new hs.new.new).new.grows g1).add g1.valid).setBasicBlock hnc
    have rn7 : Reserved nextBlock s7 :=
      (((rn4.grows g4).add g4.valid).setBasicBlock hnb).enterScope.newDirtyTracker
    have rn : Reserved nextBlock s10 := ((rn7.grows g7).addIf g7.valid).leaveScope
    have re4 : Reserved endBlock s4 :=
      (((reserved_new hs.new.new.new).grows g1).add g1.valid).setBasicBlock hec
    have re7 : Reserved endBlock s7 :=
      (((re4.grows g4).add g4.valid).setBasicBlock heb).enterScope.newDirtyTracker
    have re10 : Reserved endBlock s10 := ((re7.grows g7).addIf g7.valid).leaveScope
    have re : Reserved endBlock s11 := (re10.setBasicBlock hen).grows (grows_forNext rn)
    have hin13 : In F s13 := hin
    have hin12 : In F s12 := hin13.of_setPhis.of_setPhis.of_setPhis
    have hin11 : In F s11 := hin12
    have hin10 : In F (s10.setBasicBlock nextBlock) := hin11.of_grows (grows_forNext rn)
    have hin9 : In F s9 := hin10
    have hin8 : In F s8 := hin9.of_addIf g7.valid
    have hin7 : In F s7 := hin8.of_grows g7
    have hin6 : In F s6 := hin7
    have hin5 : In F s5 := hin6.of_add g4.valid
    have hin4 : In F s4 := hin5.of_grows g4
    have hin3 : In F s3 := hin4
    have hin2 : In F s2 := hin3.of_add g1.valid
    have hid1 : o.lim ≤ s1.nextId := hid
    have hid4 : o.lim ≤ s4.nextId := by
      simp only [s4, s3, nextId_setBasicBlock, nextId_add]
      exact hid1.trans g1.ids
    have hid7 : o.lim ≤ s7.nextId := by
      simp only [s7, s6, nextId_enterScope, nextId_newDirtyTracker, nextId_setBasicBlock, nextId_add]
      exact hid4.trans g4.ids
    have hid10 : o.lim ≤ s10.nextId := by
      simp only [s10, s9, nextId_leaveScope, nextId_addIf]
      exact hid7.trans g7.ids
    have hend : (forLoopCond init cond (next.map lowerEffect) (next.all Effect.reachable) body r
        s).here = .at endBlock 0 := by
      rw [← re.here_setBasicBlock]
      exact here_congr (t := s13) (by simp [s13, s12]) (by simp [s13, s12])
    have h1 : s1.here = s.here := here_congr (by simp [s1]) (by simp [s1])
    have h7 : s7.here = .at bodyBlock 0 := rb.here_setBasicBlock
    have hnext : ∀ t', RoundLands F o fuel 1 (.at nextBlock 0, t') condBlock endBlock
        (performNext o next t') := roundLands_forNext rn hid10 hin11
    have hround : ∀ t, RoundLands F o fuel 1 (.at condBlock 0, t) condBlock endBlock
        (guarded o evc (fun t => bodyThen (ex t) (performNext o next)) t) := by
      intro t
      rw [← rc.here_setBasicBlock]
      refine roundLands_guarded hc v4 hid4 hin6 t ?_
      have hl := hb.lands (o.decided (evc t)) v7 hid7 (targets_enterScope hs7) hin8
      rw [h7] at hl
      refine (RoundLands.bodyThen hl (fun t' ht' => ?_) fun t' _ => ?_).mono (Nat.zero_le 1)
      · exact (RoundLands.prepend (reach_addIf (hr _ _ ht') g7.valid hin9) (hnext t')).mono (by omega)
      · exact (hnext t').mono (Nat.zero_le 1)
    have hinit := hi.lands t v1 hid1 (hT.leaks (.refl rfl : Leaks 0 s s1)) hin2
    rw [h1] at hinit
    rw [hend]
    refine hinit.seqThen fun t' _ => ?_
    have hentry : Reach (step F o) 1 (s2.here, t') (.at condBlock 0, t') :=
      reach_branch g1.valid hin3
    exact (lands_iterate hround le_rfl t').prepend hentry

end Loops

end Solang.Codegen
