import Solang.Codegen.StatementsRefine
import Solang.Codegen.StatementsShape

/-!
# Lowering refines the structured semantics

The run of the graph of a function makes the visits of its body in the order of
the source, and every block that it can get to ends in exactly one terminator.
-/

namespace Solang.Codegen

open Lower Runs

section Simulation

variable {F : ControlFlowGraph} {o : Oracle} {fuel : Nat}

theorem loops_returns (e : SrcExpr) (s : Lower) : (returns e s).loops = s.loops := by
  induction e generalizing s with
  | conditionalOperator ty cond left right ihc ihl ihr =>
    simp only [returns]
    rw [ihr, loops_setBasicBlock, ihl]
    simp [(exprFrame_lowerExpr cond).loops]
  | _ =>
    simp only [returns, loops_add]
    exact (exprFrame_lowerExpr _).loops s

theorem reach_returnValue {e : SrcExpr} {s : Lower} (t : Trace) (hs : s.Valid)
    (hid : o.lim ≤ s.nextId)
    (hin : In F ((lowerExpr e s).2.add (.return [(lowerExpr e s).1]))) :
    Reach (step F o) 0 (s.here, t) (.done, eval o e t ++ [.returned]) := by
  have g := (exprFrame_lowerExpr e).grows s hs
  exact (exprSim_lowerExpr e s t hs hid (hin.of_add g.valid)).seq (reach_final rfl g.valid hin)

theorem reach_returns (e : SrcExpr) {s : Lower} (t : Trace) (hs : s.Valid)
    (hid : o.lim ≤ s.nextId) (hin : In F (returns e s)) :
    Reach (step F o) 0 (s.here, t) (.done, eval o e t ++ [.returned]) := by
  induction e generalizing s t with
  | conditionalOperator ty cond left right ihc ihl ihr =>
    let s1 := (lowerExpr cond s).2
    let leftBlock := s1.newBlockNo
    let rightBlock := s1.newBasicBlock.newBlockNo
    let s2 := s1.newBasicBlock.newBasicBlock
    let s3 := s2.add (.branchCond (lowerExpr cond s).1 leftBlock rightBlock)
    let s4 := s3.newDirtyTracker.setBasicBlock leftBlock
    let s5 := returns left s4
    let s6 := s5.setBasicBlock rightBlock
    have g1 : Grows s s1 := (exprFrame_lowerExpr cond).grows s hs
    have v2 : s2.Valid := g1.valid.new.new
    have hne : rightBlock ≠ leftBlock := by simp [rightBlock, leftBlock]
    have rl : Reserved leftBlock s3.newDirtyTracker :=
      ((reserved_new g1.valid).new.add v2).newDirtyTracker
    have v4 : s4.Valid := rl.lt
    have g4 : Grows s4 s5 := stmtFrame_returns left s4 v4
    have rr : Reserved rightBlock s5 :=
      (((reserved_new g1.valid.new).add v2).newDirtyTracker.setBasicBlock hne).grows g4
    have v6 : s6.Valid := rr.lt
    have hin6 : In F s6 := hin.of_grows (stmtFrame_returns right s6 v6)
    have hin5 : In F s5 := hin6
    have hin4 : In F s4 := hin5.of_grows g4
    have hin3 : In F s3 := hin4
    have hin1 : In F s1 := (hin3.of_add v2).congr (by simp [s2])
    have hid4 : o.lim ≤ s4.nextId := by
      simp only [s4, s3, s2, nextId_newDirtyTracker, nextId_setBasicBlock, nextId_add,
        nextId_newBasicBlock]
      exact hid.trans g1.ids
    have h2 : s2.here = s1.here := here_congr (by simp [s2]) (by simp [s2])
    have hcond := exprSim_lowerExpr (F := F) (o := o) cond s t hs hid hin1
    rw [← h2] at hcond
    have hbranch := hcond.seq (reach_branchCond v2 hin3)
    simp only [eval]
    split
    · rename_i hch
      rw [if_pos hch, ← rl.here_setBasicBlock] at hbranch
      exact hbranch.seq (ihl _ v4 hid4 hin5)
    · rename_i hch
      rw [if_neg hch, ← rr.here_setBasicBlock] at hbranch
      exact hbranch.seq (ihr _ v6 (hid4.trans g4.ids) hin)
  | _ =>
    simp only [returns] at hin
    exact reach_returnValue t hs hid hin

variable {inLoop : Bool} {d : Nat}

theorem targets_head {s : Lower} {brk cont : Nat} (h : Targets true 0 s brk cont) :
    s.doBreak = brk ∧ s.doContinue = cont := by
  have h := h rfl
  rw [← List.head?_eq_getElem?] at h
  simp [doBreak, doContinue, h]

theorem stmtSim_break : StmtSim F o fuel true 0 0 (statement .break) (exec o fuel .break) where
  frame := stmtFrame_statement .break
  run s := by
    refine ⟨.refl (by simp [statement]), fun brk cont t hs _ hT hin => ?_⟩
    rw [← (targets_head hT).1]
    exact reach_branch hs hin

theorem stmtSim_continue :
    StmtSim F o fuel true 0 0 (statement .continue) (exec o fuel .continue) where
  frame := stmtFrame_statement .continue
  run s := by
    refine ⟨.refl (by simp [statement]), fun brk cont t hs _ hT hin => ?_⟩
    rw [← (targets_head hT).2]
    exact reach_branch hs hin

theorem stmtSim_return (expr : Option SrcExpr) :
    StmtSim F o fuel inLoop d 0 (statement (.return expr)) (exec o fuel (.return expr)) where
  frame := stmtFrame_statement (.return expr)
  run s := by
    cases expr with
    | none =>
      refine ⟨.refl (by simp [statement]), fun _ _ t hs _ _ hin => ?_⟩
      exact (reach_final rfl hs hin).mono (Nat.zero_le 1)
    | some expr =>
      refine ⟨.refl (loops_returns expr s), fun _ _ t hs hid _ hin => ?_⟩
      exact reach_returns expr t hs hid hin

theorem stmtSim_expression (e : Effect) :
    StmtSim F o fuel inLoop d 0 (statement (.expression e)) (exec o fuel (.expression e)) where
  frame := stmtFrame_statement (.expression e)
  run s := ⟨.refl (loops_lowerEffect e s), fun _ _ t hs hid _ hin => lands_lowerEffect hs hid hin t⟩

open Stmt

/-- A statement that ends normally has the flag. -/
theorem reachable_of_exec {stmt : Stmt} (t t' : Trace) (h : exec o fuel stmt t = (.normal, t')) :
    stmt.reachable = true := by
  have ha : Allows stmt.reachable stmt.hasBreak stmt.exits (exec o fuel stmt t).1 :=
    allows_exec o fuel stmt t
  rw [h] at ha
  exact (ha.normal rfl).1

theorem reachable_of_execOpt {stmt : Option Stmt} (t t' : Trace)
    (h : execOpt o fuel stmt t = (.normal, t')) : stmt.all reachable = true := by
  have ha : Allows _ _ (optExits stmt) (execOpt o fuel stmt t).1 := allows_execOpt o fuel stmt t
  rw [h] at ha
  exact (ha.normal rfl).1

theorem continues_of_execOpt {stmt : Option Stmt} (t t' : Trace)
    (h : execOpt o fuel stmt t = (.continue, t')) : (optExits stmt).continues = true := by
  have ha : Allows _ _ (optExits stmt) (execOpt o fuel stmt t).1 := allows_execOpt o fuel stmt t
  rw [h] at ha
  exact ha.continues rfl

mutual

theorem stmtSim_statement (stmt : Stmt) {inLoop : Bool} {d : Nat}
    (hres : stmt.resolved inLoop = true) (hok : stmt.loopsOk d = true) :
    StmtSim F o fuel inLoop d stmt.leaks (statement stmt) (exec o fuel stmt) := by
  match stmt with
  | .block stmts => exact stmtSim_statements stmts hres hok
  | .expression effect => exact stmtSim_expression effect
  | .return expr => exact stmtSim_return expr
  | .break =>
    obtain rfl : d = 0 := by simpa [loopsOk] using hok
    obtain rfl : inLoop = true := hres
    exact stmtSim_break
  | .continue =>
    obtain rfl : d = 0 := by simpa [loopsOk] using hok
    obtain rfl : inLoop = true := hres
    exact stmtSim_continue
  | .ifThen cond thenStmt =>
    exact stmtSim_ifThen (exprOk_lowerExpr cond) (stmtSim_statement thenStmt hres hok)
      reachable_of_exec
  | .ifThenElse cond thenStmt elseStmt =>
    simp only [resolved, loopsOk, Bool.and_eq_true] at hres hok
    exact stmtSim_ifThenElse (exprOk_lowerExpr cond) (stmtSim_statement thenStmt hres.1 hok.1)
      (stmtSim_statement elseStmt hres.2 hok.2) reachable_of_exec reachable_of_exec
  | .doWhile body cond =>
    exact stmtSim_doWhileLoop (stmtSim_statement body hres hok) (exprOk_lowerExpr cond)
      reachable_of_exec
  | .while cond body =>
    exact stmtSim_whileLoop (exprOk_lowerExpr cond) (stmtSim_statement body hres hok)
      reachable_of_exec
  | .for init none next body =>
    simp only [resolved, loopsOk, Bool.and_eq_true] at hres hok
    refine stmtSim_forLoop (stmtSim_optStatement init hres.1 hok.1.1.1)
      (stmtSim_optStatement body hres.2 hok.1.2) reachable_of_execOpt ?_
    intro hn t t' hc
    have hcont := continues_of_execOpt t t' hc
    have hlast := hok.2
    rw [hcont] at hlast
    cases next with
    | none => cases hn
    | some e => simpa using hlast
  | .for init (some cond) next body =>
    simp only [resolved, loopsOk, Bool.and_eq_true] at hres hok
    exact stmtSim_forLoopCond (stmtSim_optStatement init hres.1 hok.1.1.1) (exprOk_lowerExpr cond)
      (stmtSim_optStatement body hres.2 hok.1.2) reachable_of_execOpt

theorem stmtSim_statements (stmts : List Stmt) {inLoop : Bool} {d : Nat}
    (hres : allResolved inLoop stmts = true) (hok : allLoopsOk d stmts = true) :
    StmtSim F o fuel inLoop d (allLeaks stmts) (statements stmts) (execAll o fuel stmts) := by
  match stmts with
  | [] => exact ⟨stmtFrame_statements [], fun s => ⟨.refl rfl, fun _ _ _ _ _ _ _ => .refl _ _⟩⟩
  | stmt :: stmts =>
    simp only [allResolved, allLoopsOk, Bool.and_eq_true, Bool.or_eq_true,
      Bool.not_eq_true'] at hres hok
    have h1 : StmtSim F o fuel inLoop d stmt.leaks (statement stmt) (exec o fuel stmt) :=
      stmtSim_statement stmt hres.1 hok.1
    cases hr : stmt.reachable with
    | false =>
      -- the rest is not lowered, and not executed either
      refine ⟨stmtFrame_statements (stmt :: stmts), fun s => ?_⟩
      simp only [statements, hr, allLeaks, execAll]
      refine ⟨(h1.leaks s).of_eq rfl rfl, fun brk cont t hs hid hT hin => ?_⟩
      refine (h1.lands t hs hid hT hin).seqThen fun t' ht' => ?_
      rw [reachable_of_exec t t' ht'] at hr
      cases hr
    | true =>
      have h2 : StmtSim F o fuel inLoop (d + stmt.leaks) (allLeaks stmts) (statements stmts)
          (execAll o fuel stmts) :=
        stmtSim_statements stmts hres.2 (hok.2.resolve_left (by simp [hr]))
      refine ⟨stmtFrame_statements (stmt :: stmts), fun s => ?_⟩
      simp only [statements, hr, allLeaks, execAll]
      refine ⟨(h1.leaks s).trans (h2.leaks _), fun brk cont t hs hid hT hin => ?_⟩
      have g1 : Grows s (statement stmt s) := h1.frame s hs
      have g2 : Grows _ (statements stmts (statement stmt s)) := h2.frame _ g1.valid
      have hT2 := hT.leaks (h1.leaks s)
      exact (h1.lands t hs hid hT (hin.of_grows g2)).seqThen fun t' _ =>
        h2.lands t' g1.valid (hid.trans g1.ids) hT2 hin

theorem stmtSim_optStatement (stmt : Option Stmt) {inLoop : Bool} {d : Nat}
    (hres : optResolved inLoop stmt = true) (hok : optLoopsOk d stmt = true) :
    StmtSim F o fuel inLoop d (optLeaks stmt) (optStatement stmt) (execOpt o fuel stmt) := by
  match stmt with
  | none => exact ⟨stmtFrame_optStatement none, fun s => ⟨.refl rfl, fun _ _ _ _ _ _ _ => .refl _ _⟩⟩
  | some stmt => exact stmtSim_statement stmt hres hok

end

end Simulation

/-! ## Functions -/

section Function

variable {body : Stmt} {returnVars : List Expression} {nextId : Nat}

/-- The entry of a graph. -/
def start : Position × Trace := (.at 0 0, [])

/-- A block that ends in its only terminator. -/
def Ended (is : List Instr) : Prop :=
  ∃ init last, is = init ++ [last] ∧ (∀ i ∈ init, i.targets = none) ∧ last.targets.isSome

/-- The graph `F` refines the function body: for all outcomes of the conditions
its run makes the visits of the source and ends where the source ends. A run
of the source that is cut off is a prefix of a run of the graph that goes on.
Every block that can be reached is non-empty and ends in exactly one
terminator. -/
structure Refines (F : ControlFlowGraph) (lim : Nat) (body : Stmt) : Prop where
  outcome : ∀ choose fuel, (execFunction ⟨choose, lim⟩ fuel body).1 = .done ∨
    (execFunction ⟨choose, lim⟩ fuel body).1 = .timeout
  done : ∀ choose t, (∃ fuel, execFunction ⟨choose, lim⟩ fuel body = (.done, t)) ↔
    Reach (step F ⟨choose, lim⟩) 0 start (.done, t)
  timeout : ∀ choose fuel t, execFunction ⟨choose, lim⟩ fuel body = (.timeout, t) →
    ∃ q, Reach (step F ⟨choose, lim⟩) fuel start (q, t)
  ended : ∀ b bs, F.Path b bs → Ended (F.block b).instr

/-- The state in which the lowering of a function starts. -/
def entryState (nextId : Nat) : Lower := ⟨⟨[{ instr := [] }]⟩, 0, nextId, [], []⟩

theorem valid_entryState : (entryState nextId).Valid := by simp [Valid, entryState, newBlockNo]

theorem code_entryState (b : Nat) : (entryState nextId).code b = [] := by
  rcases b with _ | b <;> simp [code, entryState, ControlFlowGraph.block]

theorem here_entryState : (entryState nextId).here = .at 0 0 := by
  rw [here, code_entryState]
  rfl

theorem ready_entryState : Ready [] (entryState nextId) where
  valid := valid_entryState
  shape b := by simp [code_entryState]
  reserved := nofun
  isOpen := by simp [code_entryState]

/-- The state in which the lowering of a function ends. -/
def finalState (body : Stmt) (returnVars : List Expression) (nextId : Nat) : Lower :=
  let s := statement body (entryState nextId)
  if body.reachable then s.add (.return returnVars) else s

theorem lands_function (hres : body.resolved false = true) (hok : body.loopsOk 0 = true)
    (returnVars : List Expression) (nextId : Nat) (choose : Trace → Bool) (fuel : Nat) :
    Lands (step (functionCfg body returnVars nextId) ⟨choose, nextId⟩) fuel start .done 0 0
      (execFunction ⟨choose, nextId⟩ fuel body) := by
  let F := functionCfg body returnVars nextId
  let s1 := statement body (entryState nextId)
  have hin : In F (finalState body returnVars nextId) := fun b => List.prefix_rfl
  have v1 : s1.Valid := (stmtFrame_statement body _ valid_entryState).valid
  let o : Oracle := ⟨choose, nextId⟩
  have h : Lands (step F o) fuel ((entryState nextId).here, []) s1.here 0 0 (exec o fuel body []) :=
    (stmtSim_statement body hres hok).lands [] valid_entryState (Nat.le_refl _) nofun
      (hin.of_addIf v1)
  rw [here_entryState] at h
  refine h.seqThen fun t ht => ?_
  have hr := reachable_of_exec _ t ht
  have hin' : In F (s1.add (.return returnVars)) := by simpa [finalState, hr] using hin
  exact (reach_final rfl v1 hin').mono (Nat.zero_le 1)

/-- The run of the graph goes on until the function is left. -/
theorem progress {choose : Trace → Bool} (hres : body.resolved false = true)
    (hok : body.loopsOk 0 = true) {n : Nat} {q : Position × Trace}
    (h : StepsN (step (functionCfg body returnVars nextId) ⟨choose, nextId⟩) n start q)
    (hq : q.1 ≠ .done) :
    (step (functionCfg body returnVars nextId) ⟨choose, nextId⟩ q).isSome := by
  have hl := lands_function hres hok returnVars nextId choose (n + 1)
  have ho := execFunction_outcome hres ⟨choose, nextId⟩ (n + 1)
  generalize execFunction _ _ body = r at hl ho
  obtain ⟨oc, t⟩ := r
  rcases ho with rfl | rfl
  · obtain ⟨m, -, hm⟩ := hl
    rcases Nat.lt_or_ge n m with hnm | hnm
    · exact h.isSome_of_lt hm hnm
    · rw [hm.eq_of_stuck h hnm rfl] at hq
      exact absurd rfl hq
  · obtain ⟨q', m, hnm, hm⟩ := hl
    exact h.isSome_of_lt hm (by omega)

/-- A block that a run can enter is executed to its terminator. -/
theorem ended_of_stepsN {choose : Trace → Bool} (hres : body.resolved false = true)
    (hok : body.loopsOk 0 = true) {n b : Nat} {t : Trace}
    (h : StepsN (step (functionCfg body returnVars nextId) ⟨choose, nextId⟩) n start (.at b 0, t)) :
    Ended ((functionCfg body returnVars nextId).block b).instr := by
  let F := functionCfg body returnVars nextId
  have hshape : ∀ i ∈ (F.block b).instr.dropLast, i.targets = none := by
    obtain ⟨h1, ho1⟩ := stmtShape_statement body hok [] _ ready_entryState
    exact (Shaped.addIf (i := .return returnVars) h1 ho1).shape b
  -- otherwise the run would be stuck behind the last instruction
  have hlast : ¬ ∀ i ∈ (F.block b).instr, i.targets = none := by
    intro hall
    have hrun := h.trans (stepsN_straight (Nat.le_refl _) (by simpa [F] using hall))
    have hsome := progress hres hok hrun nofun
    simp [step] at hsome
  rcases List.eq_nil_or_concat' (F.block b).instr with hnil | ⟨init, last, hcat⟩
  · simp [hnil] at hlast
  · rw [hcat, List.dropLast_concat] at hshape
    refine ⟨init, last, hcat, hshape, ?_⟩
    rw [Option.isSome_iff_ne_none]
    intro hnone
    refine hlast fun i hi => ?_
    rw [hcat] at hi
    rcases List.mem_append.mp hi with hi | hi
    · exact hshape i hi
    · rwa [List.mem_singleton.mp hi]

/-- Some outcomes of the conditions take a run along any path. -/
theorem exists_run_of_path (hres : body.resolved false = true) (hok : body.loopsOk 0 = true)
    {b : Nat} {bs : List Nat} (h : (functionCfg body returnVars nextId).Path b bs) :
    ∃ choose n t,
      StepsN (step (functionCfg body returnVars nextId) ⟨choose, nextId⟩) n start (.at b 0, t) := by
  let F := functionCfg body returnVars nextId
  induction h with
  | entry => exact ⟨fun _ => true, 0, [], .refl _⟩
  | @step b e bs _ he ih =>
    obtain ⟨choose, n, t, h⟩ := ih
    obtain ⟨init, last, hcat, hinit, -⟩ := ended_of_stepsN hres hok h
    have htake : (F.block b).instr.take init.length = init := by simp [F, hcat]
    have hk : (F.block b).instr[init.length]? = some last := by simp [F, hcat]
    have hle : init.length ≤ (F.block b).instr.length := by simp [F, hcat]
    have hrun := h.trans (stepsN_straight hle (by rwa [htake]))
    rw [htake] at hrun
    have hsome := progress hres hok hrun nofun
    obtain ⟨r, hr⟩ := Option.isSome_iff_exists.mp hsome
    have hedge : e ∈ last.targets.getD [] := by
      simpa [ControlFlowGraph.Edge, BasicBlock.successors, hcat] using he
    generalize Oracle.visitAll _ init t = u at hrun hr
    obtain ⟨b', k', i, hpos, hi, hcase⟩ := step_cases hr
    cases hpos
    obtain rfl : last = i := Option.some.inj (hk.symm.trans hi)
    obtain ⟨e', rfl, rfl⟩ | ⟨c, e1, e2, rfl, rfl⟩ | ⟨ht, rfl⟩ | ⟨ht, rfl⟩ := hcase
    · obtain rfl : e = e' := by simpa [Instr.targets] using hedge
      exact ⟨choose, _, _, hrun.trans (.step hr (.refl _))⟩
    · -- decide the condition for `e`, and the ones before it as they were
      let choose' : Trace → Bool := fun v => if v.length < u.length then choose v else e == e1
      have hrun' := stepsN_congr (u := ⟨choose', nextId⟩) hrun rfl fun v hv => if_pos hv
      have hto : (if choose' u then e1 else e2) = e := by
        have hmem : e = e1 ∨ e = e2 := by simpa [Instr.targets] using hedge
        simp only [choose', Nat.lt_irrefl, if_false]
        grind
      have hs : step F ⟨choose', nextId⟩ (.at b init.length, u) =
          some (.at e 0, u ++ [.decide (choose' u)]) := by
        simp only [step, hk, hto, Oracle.decided]
      exact ⟨choose', _, _, hrun'.trans (.step hs (.refl _))⟩
    · simp [ht] at hedge
    · simp [ht] at hedge

/-- A condition without instructions. -/
def bareCond : SrcExpr := .basic ⟨[], List.forall_mem_nil _, [], .boolLiteral true⟩

/-- `for (;;) { while (c) { if (c) continue; break; } do { break; } while (c); }` -/
def nestedLoops : Stmt :=
  .for none none none (some (.block [.while bareCond (.block [.ifThen bareCond .continue, .break]),
    .doWhile .break bareCond]))

/-- `while (c) { do { } while (c); break; }` -/
def breakAfterDo : Stmt :=
  .while bareCond (.block [.doWhile (.block []) bareCond, .break])

theorem instrs_breakAfterDo : (functionCfg breakAfterDo [] 0).blocks.map (·.instr) =
    [[.branch 1], [.branchCond (.boolLiteral true) 2 3], [.branch 4], [.return []], [.branch 5],
      [.branchCond (.boolLiteral true) 4 6], [.branch 6]] := by
  rfl

end Function

end Solang.Codegen
