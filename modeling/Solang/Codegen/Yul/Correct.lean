import Solang.Codegen.StatementsCorrect
import Solang.Codegen.Yul.Sim

/-!
# The graph of a Yul function refines its body

From the simulation of the statements: the run of the graph makes the visits of the
source for all outcomes of the conditions, and every block that can be reached ends
in exactly one terminator.
-/

namespace Solang.Codegen.Yul

open Lower Runs

/-! ## Steps -/

section Steps

variable {cfg : ControlFlowGraph} {o : Oracle}

theorem length_le_selectCase (o : Oracle) (d : Nat) (cases : List (Expression × Nat)) (t : Trace) :
    t.length ≤ (selectCase o d cases t).2.length := by
  induction cases generalizing t with
  | nil => exact Nat.le_refl _
  | cons c cases ih =>
    have hstep : t.length ≤ (o.decided t).length := by simp [Oracle.decided]
    simp only [selectCase]
    split
    · exact hstep
    · exact hstep.trans (ih (o.decided t))

variable {u : Oracle} {d n : Nat} {cases : List (Expression × Nat)}

/-- A switch depends only on the outcomes of its comparisons. -/
theorem selectCase_congr {t : Trace}
    (h : ∀ v, v.length < (selectCase o d cases t).2.length → u.choose v = o.choose v) :
    selectCase u d cases t = selectCase o d cases t := by
  induction cases generalizing t with
  | nil => rfl
  | cons c cases ih =>
    have hlt : t.length < (selectCase o d (c :: cases) t).2.length := by
      have hdec : t.length < (o.decided t).length := by simp [Oracle.decided]
      simp only [selectCase]
      split
      · exact hdec
      · exact lt_of_lt_of_le hdec (length_le_selectCase o d cases _)
    have hch := h t hlt
    have hdecided : u.decided t = o.decided t := by simp [Oracle.decided, hch]
    simp only [selectCase, hch, hdecided] at h ⊢
    split
    · rfl
    next hno =>
      rw [if_neg hno] at h
      exact ih h

/-- Some outcomes take a switch to any of its blocks. -/
theorem exists_selectCase {e : Nat} (he : e ∈ d :: cases.map (·.2)) (n : Nat) :
    ∃ f : Nat → Bool, ∀ (u : Oracle) (t : Trace), t.length = n →
      (∀ v, n ≤ v.length → u.choose v = f v.length) → (selectCase u d cases t).1 = e := by
  induction cases generalizing n with
  | nil =>
    obtain rfl : e = d := by simpa using he
    exact ⟨fun _ => true, fun u t _ _ => rfl⟩
  | cons c cases ih =>
    by_cases hc : e = c.2
    · subst hc
      refine ⟨fun _ => true, fun u t ht hu => ?_⟩
      have hch : u.choose t = true := hu t (Nat.le_of_eq ht.symm)
      simp [selectCase, hch]
    · have hmem : e ∈ d :: cases.map (·.2) := by
        simpa [hc] using he
      obtain ⟨f, hf⟩ := ih hmem (n + 1)
      refine ⟨fun k => if k = n then false else f k, fun u t ht hu => ?_⟩
      have hch : u.choose t = false := by
        rw [hu t (Nat.le_of_eq ht.symm)]
        exact if_pos ht
      simp only [selectCase, hch]
      refine hf u (u.decided t) (by simp [Oracle.decided, ht]) fun v hv => ?_
      rw [hu v (by omega)]
      exact if_neg (by omega)

variable {q r : Position × Trace}

/-- What a step can do -/
theorem stepSwitch_cases (h : stepSwitch cfg o q = some r) :
    ∃ b k i, q.1 = .at b k ∧ (cfg.block b).instr[k]? = some i ∧
      (step cfg o q = some r ∨ ∃ c cases d, i = .switch c cases d ∧
        r = (.at (selectCase o d cases q.2).1 0, (selectCase o d cases q.2).2)) := by
  obtain ⟨p, t⟩ := q
  cases p with
  | done => cases h
  | «at» b k =>
    simp only [stepSwitch] at h
    split at h
    next c cases d hi =>
      exact ⟨b, k, _, rfl, hi, .inr ⟨c, cases, d, rfl, (Option.some.inj h).symm⟩⟩
    next =>
      obtain ⟨b', k', i, hq, hi, -⟩ := step_cases h
      exact ⟨b', k', i, hq, hi, .inl h⟩

theorem length_le_of_stepSwitch (h : stepSwitch cfg o q = some r) :
    q.2.length ≤ r.2.length := by
  obtain ⟨b, k, i, -, -, hs | ⟨c, cases, d, -, rfl⟩⟩ := stepSwitch_cases h
  · exact length_le_of_step hs
  · exact length_le_selectCase o d cases q.2

theorem length_le_of_stepsSwitch (h : StepsN (stepSwitch cfg o) n q r) :
    q.2.length ≤ r.2.length := by
  induction h with
  | refl => exact Nat.le_refl _
  | step hs _ ih => exact (length_le_of_stepSwitch hs).trans ih

/-- A run depends only on the outcomes of the conditions it decides. -/
theorem stepsSwitch_congr (h : StepsN (stepSwitch cfg o) n q r) (hl : u.lim = o.lim)
    (hc : ∀ t, t.length < r.2.length → u.choose t = o.choose t) :
    StepsN (stepSwitch cfg u) n q r := by
  induction h with
  | refl => exact .refl _
  | @step n q q' r hs hr ih =>
    refine .step ?_ (ih hc)
    have hle := length_le_of_stepsSwitch hr
    obtain ⟨b, k, i, hq, hi, hs' | ⟨c, cases, d, rfl, rfl⟩⟩ := stepSwitch_cases hs
    · have hone := stepsN_congr (.step hs' (.refl _)) hl fun t ht => hc t (lt_of_lt_of_le ht hle)
      cases hone with
      | step hs'' hrest =>
        cases hrest
        exact stepSwitch_of_step _ _ hs''
    · obtain ⟨p, t⟩ := q
      obtain rfl : p = .at b k := hq
      rw [stepSwitch, hi]
      simp only [Option.some.injEq]
      rw [selectCase_congr fun v hv => hc v (lt_of_lt_of_le hv hle)]

end Steps

/-! ## Functions -/

section Function

variable {body : List Stmt} {returns : List Expression} {nextId : Nat}

/-- The graph `F` refines the body of the function: for all outcomes of the conditions its run
makes the visits of the source and ends where the source ends. A run of the source that is cut
off is a prefix of a run of the graph that goes on. Every block that can be reached ends in
exactly one terminator. -/
structure Refines (F : ControlFlowGraph) (lim : Nat) (body : List Stmt) : Prop where
  outcome : ∀ choose fuel, (execFunction ⟨choose, lim⟩ fuel body).1 = .done ∨
    (execFunction ⟨choose, lim⟩ fuel body).1 = .timeout
  done : ∀ choose t, (∃ fuel, execFunction ⟨choose, lim⟩ fuel body = (.done, t)) ↔
    Reach (stepSwitch F ⟨choose, lim⟩) 0 start (.done, t)
  timeout : ∀ choose fuel t, execFunction ⟨choose, lim⟩ fuel body = (.timeout, t) →
    ∃ q, Reach (stepSwitch F ⟨choose, lim⟩) fuel start (q, t)
  ended : ∀ b bs, F.Path b bs → Ended (F.block b).instr

/-- A function is only left for good. -/
theorem execFunction_outcome (h : allResolved false body = true) (o : Oracle) (fuel : Nat) :
    (execFunction o fuel body).1 = .done ∨ (execFunction o fuel body).1 = .timeout := by
  have hexit := exits_execAll o fuel body []
  obtain ⟨hb, hc⟩ := allExits_of_resolved body h
  unfold execFunction
  generalize execAll o fuel body [] = r at hexit
  obtain ⟨oc, t⟩ := r
  cases oc with
  | normal | done => exact .inl rfl
  | «break» => cases hb.symm.trans hexit
  | «continue» => cases hc.symm.trans hexit
  | timeout => exact .inr rfl

/-- The state in which the lowering of a function ends -/
def finalState (body : List Stmt) (returns : List Expression) (nextId : Nat) : Lower :=
  let s := lowerStatements (.return returns) (processStatements true body).1 (entryState nextId)
  if (processStatements true body).2 then s.add (.return returns) else s

theorem yulFunctionCfg_eq :
    yulFunctionCfg body returns nextId = (finalState body returns nextId).cfg := by
  unfold yulFunctionCfg finalState resolveYulBlock
  simp only [isNextReachable_eq, lowerBlock_asBlock]
  rfl

theorem shape_yulFunctionCfg (b : Nat) :
    ∀ i ∈ ((yulFunctionCfg body returns nextId).block b).instr.dropLast, i.targets = none := by
  obtain ⟨h1, ho1⟩ := stmtShape_statements (.return returns) body [] (entryState nextId)
    ready_entryState
  rw [yulFunctionCfg_eq]
  exact (Shaped.addIf (i := .return returns) h1 ho1).shape b

theorem lands_function (hres : allResolved false body = true) (hok : allPostsLowered body = true)
    (returns : List Expression) (nextId : Nat) (choose : Trace → Bool) (fuel : Nat) :
    Lands (stepSwitch (yulFunctionCfg body returns nextId) ⟨choose, nextId⟩) fuel start .done 0 0
      (execFunction ⟨choose, nextId⟩ fuel body) := by
  let F := yulFunctionCfg body returns nextId
  let s1 := lowerStatements (.return returns) (processStatements true body).1 (entryState nextId)
  have hin : In F (finalState body returns nextId) := by
    intro b
    simp only [F, yulFunctionCfg_eq]
    exact List.prefix_rfl
  have v1 : s1.Valid := ((framed_lowerStatements (.return returns) _).grows _ valid_entryState).valid
  have h : Lands (stepSwitch F ⟨choose, nextId⟩) fuel ((entryState nextId).here, []) s1.here 0 0
      (execAll ⟨choose, nextId⟩ fuel body []) :=
    sim_statements body hres hok (entryState nextId) [] 0 0 valid_entryState (Nat.le_refl _)
      (fun h => absurd h Bool.false_ne_true) (hin.of_addIf v1)
  rw [here_entryState] at h
  refine h.seqThen fun t ht => ?_
  have hr := next_of_execAll _ t ht
  have hin' : In F (s1.add (.return returns)) := by simpa [finalState, hr] using hin
  have hend : Reach (step F ⟨choose, nextId⟩) 1 (s1.here, t) (.done, t ++ [.returned]) :=
    reach_final rfl v1 hin'
  exact (hend.of_step stepSwitch_of_step).mono (Nat.zero_le 1)

variable {choose : Trace → Bool} {n b k : Nat} {F : ControlFlowGraph} {t : Trace}

/-- The run of the graph goes on until the function is left. -/
theorem progress (hres : allResolved false body = true) (hok : allPostsLowered body = true)
    {q : Position × Trace}
    (h : StepsN (stepSwitch (yulFunctionCfg body returns nextId) ⟨choose, nextId⟩) n start q)
    (hq : q.1 ≠ .done) :
    (stepSwitch (yulFunctionCfg body returns nextId) ⟨choose, nextId⟩ q).isSome := by
  have hl := lands_function hres hok returns nextId choose (n + 1)
  have ho := execFunction_outcome hres ⟨choose, nextId⟩ (n + 1)
  generalize execFunction _ _ body = r at hl ho
  obtain ⟨oc, t⟩ := r
  obtain rfl | rfl := ho
  · obtain ⟨m, -, hm⟩ := hl
    by_cases hnm : n < m
    · exact h.isSome_of_lt hm hnm
    · rw [hm.eq_of_stuck h (Nat.not_lt.mp hnm) rfl] at hq
      exact absurd rfl hq
  · obtain ⟨q', m, hnm, hm⟩ := hl
    exact h.isSome_of_lt hm (by omega)

/-- The instructions of a block that is entered, up to its end -/
theorem stepsSwitch_straight {o : Oracle} (hk : k ≤ (F.block b).instr.length)
    (hi : ∀ i ∈ (F.block b).instr.take k, i.targets = none) :
    StepsN (stepSwitch F o) k (.at b 0, t) (.at b k, o.visitAll ((F.block b).instr.take k) t) :=
  (stepsN_straight hk hi).of_step stepSwitch_of_step

/-- A block that a run can enter is executed to its terminator. -/
theorem ended_of_stepsN (hres : allResolved false body = true) (hok : allPostsLowered body = true)
    (h : StepsN (stepSwitch (yulFunctionCfg body returns nextId) ⟨choose, nextId⟩) n start
      (.at b 0, t)) :
    Ended ((yulFunctionCfg body returns nextId).block b).instr := by
  let F := yulFunctionCfg body returns nextId
  have hshape : ∀ i ∈ (F.block b).instr.dropLast, i.targets = none := shape_yulFunctionCfg b
  -- otherwise the run would be stuck behind the last instruction
  have hlast : ¬ ∀ i ∈ (F.block b).instr, i.targets = none := by
    intro hall
    have hrun := h.trans (stepsSwitch_straight (Nat.le_refl _) (by simpa [F] using hall))
    have hsome := progress hres hok hrun nofun
    simp [stepSwitch, step] at hsome
  obtain hnil | ⟨init, last, hcat⟩ := List.eq_nil_or_concat' (F.block b).instr
  · simp [hnil] at hlast
  · rw [hcat, List.dropLast_concat] at hshape
    refine ⟨init, last, hcat, hshape, ?_⟩
    rw [Option.isSome_iff_ne_none]
    intro hnone
    refine hlast fun i hi => ?_
    rw [hcat] at hi
    obtain hi | hi := List.mem_append.mp hi
    · exact hshape i hi
    · rwa [List.mem_singleton.mp hi]

/-- Whatever the last instruction of a block is, some outcomes take it to any successor. -/
theorem exists_step_to {e : Nat} {last : Instr} (lim : Nat) (u : Trace) (choose : Trace → Bool)
    (hk : (F.block b).instr[k]? = some last) (he : e ∈ last.targets.getD []) :
    ∃ choose' : Trace → Bool, (∀ v, v.length < u.length → choose' v = choose v) ∧
      ∃ t, stepSwitch F ⟨choose', lim⟩ (.at b k, u) = some (.at e 0, t) := by
  -- as before up to `u`, and by the length of the trace from there on
  let after : (Nat → Bool) → Trace → Bool := fun f v =>
    if v.length < u.length then choose v else f v.length
  have hbefore : ∀ f v, v.length < u.length → after f v = choose v := fun f v hv => if_pos hv
  have hafter : ∀ f v, u.length ≤ v.length → after f v = f v.length := fun f v hv =>
    if_neg (Nat.not_lt.mpr hv)
  cases last with
  | branch e' =>
    obtain rfl : e = e' := by simpa [Instr.targets] using he
    refine ⟨choose, fun _ _ => rfl, u, stepSwitch_of_step _ _ ?_⟩
    rw [step, hk]
  | branchCond c e1 e2 =>
    have hmem : e = e1 ∨ e = e2 := by simpa [Instr.targets] using he
    let o : Oracle := ⟨after fun _ => e == e1, lim⟩
    refine ⟨o.choose, hbefore fun _ => e == e1, o.decided u, stepSwitch_of_step _ _ ?_⟩
    rw [step, hk]
    have hto : (if o.choose u then e1 else e2) = e := by
      have hch : o.choose u = (e == e1) := hafter (fun _ => e == e1) u (Nat.le_refl _)
      rw [hch]
      obtain rfl | rfl := hmem
      · simp
      · split
        next h => exact (beq_iff_eq.mp h).symm
        next => rfl
    rw [← hto]
  | switch c cases d =>
    obtain ⟨f, hf⟩ := exists_selectCase (by simpa [Instr.targets] using he) u.length
    let o : Oracle := ⟨after f, lim⟩
    have hto : (selectCase o d cases u).1 = e := hf o u rfl fun v hv => hafter f v hv
    refine ⟨o.choose, hbefore f, (selectCase o d cases u).2, ?_⟩
    rw [stepSwitch, hk, ← hto]
  | unimplemented r => cases r <;> simp [Instr.targets] at he
  | _ => simp [Instr.targets] at he

/-- Some outcomes of the conditions take a run along any path. -/
theorem exists_run_of_path (hres : allResolved false body = true)
    (hok : allPostsLowered body = true) {bs : List Nat}
    (h : (yulFunctionCfg body returns nextId).Path b bs) :
    ∃ choose n t, StepsN (stepSwitch (yulFunctionCfg body returns nextId) ⟨choose, nextId⟩) n start
      (.at b 0, t) := by
  let F := yulFunctionCfg body returns nextId
  induction h with
  | entry => exact ⟨fun _ => true, 0, [], .refl _⟩
  | @step b e bs _ he ih =>
    obtain ⟨choose, n, t, h⟩ := ih
    obtain ⟨init, last, hcat, hinit, -⟩ := ended_of_stepsN hres hok h
    have htake : (F.block b).instr.take init.length = init := by simp [F, hcat]
    have hk : (F.block b).instr[init.length]? = some last := by simp [F, hcat]
    have hle : init.length ≤ (F.block b).instr.length := by simp [F, hcat]
    have hrun := h.trans (stepsSwitch_straight hle (by rwa [htake]))
    rw [htake] at hrun
    have hedge : e ∈ last.targets.getD [] := by
      simpa [ControlFlowGraph.Edge, BasicBlock.successors, hcat] using he
    generalize Oracle.visitAll _ init t = u at hrun
    obtain ⟨choose', hsame, t', hs⟩ := exists_step_to nextId u choose hk hedge
    have hrun' := stepsSwitch_congr (u := ⟨choose', nextId⟩) hrun rfl hsame
    exact ⟨choose', _, t', hrun'.trans (.step hs (.refl _))⟩

theorem refines_of_postsLowered (returns : List Expression) (nextId : Nat)
    (hres : allResolved false body = true) (hok : allPostsLowered body = true) :
    Refines (yulFunctionCfg body returns nextId) nextId body where
  outcome choose fuel := execFunction_outcome hres ⟨choose, nextId⟩ fuel
  done choose t := by
    constructor
    · rintro ⟨fuel, hf⟩
      have hl := lands_function hres hok returns nextId choose fuel
      rwa [hf] at hl
    · rintro ⟨n, -, hn⟩
      -- the run that ended is too short for one that was cut off
      have hl := lands_function hres hok returns nextId choose (n + 1)
      have ho := execFunction_outcome hres ⟨choose, nextId⟩ (n + 1)
      refine ⟨n + 1, ?_⟩
      generalize execFunction _ _ body = r at hl ho
      obtain ⟨oc, t'⟩ := r
      obtain rfl | rfl := ho
      · obtain ⟨m, -, hm⟩ := hl
        obtain hnm | hnm := Nat.le_total n m
        · cases hn.eq_of_stuck hm hnm rfl
          rfl
        · cases hm.eq_of_stuck hn hnm rfl
          rfl
      · obtain ⟨q, m, hnm, hm⟩ := hl
        have hsome := hn.isSome_of_lt hm (by omega)
        cases hsome
  timeout choose fuel t hf := by
    have hl := lands_function hres hok returns nextId choose fuel
    rwa [hf] at hl
  ended b bs hp := by
    obtain ⟨choose, n, t, h⟩ := exists_run_of_path hres hok hp
    exact ended_of_stepsN hres hok h

end Function

end Solang.Codegen.Yul
