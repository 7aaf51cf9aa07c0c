import Solang.Codegen.Statements

/-!
# Meaning of the source statements

Structured semantics of the statements, over the same traces as the runs of a
graph. Every loop may go round `fuel` times; a run that needs more is cut off
there with its trace so far.
-/

namespace Solang.Codegen

/-- How a statement is left. -/
inductive Outcome where
  | normal
  | break
  | continue
  /-- The function returned or aborted. -/
  | done
  | timeout
  deriving DecidableEq

/-- The visits of an expression. -/
def eval (o : Oracle) : SrcExpr → Trace → Trace
  | .basic code, t => o.visitAll code.instrs t
  | .operands first second, t => eval o second (eval o first t)
  | .or left right, t =>
    let t := eval o left t
    if o.choose t then o.decided t else eval o right (o.decided t)
  | .and left right, t =>
    let t := eval o left t
    if o.choose t then eval o right (o.decided t) else o.decided t
  | .conditionalOperator _ cond left right, t =>
    let t := eval o cond t
    if o.choose t then eval o left (o.decided t) else eval o right (o.decided t)

def perform (o : Oracle) (e : Effect) (t : Trace) : Outcome × Trace :=
  match e.noreturn with
  | none => (.normal, eval o e.expr t)
  | some i => (.done, eval o e.expr t ++ [endEvent i.instr])

/-- Go on with `k` unless the statement was left early. -/
def seqThen (r : Outcome × Trace) (k : Trace → Outcome × Trace) : Outcome × Trace :=
  match r with
  | (.normal, t) => k t
  | r => r

/-- Go on with `k` at the end of a loop's body, also after `continue`. -/
def bodyThen (r : Outcome × Trace) (k : Trace → Outcome × Trace) : Outcome × Trace :=
  match r with
  | (.normal, t) | (.continue, t) => k t
  | r => r

/-- Leave the loop when the condition does not hold. -/
def guarded (o : Oracle) (cond : Trace → Trace) (k : Trace → Outcome × Trace) (t : Trace) :
    Outcome × Trace :=
  let t := cond t
  if o.choose t then k (o.decided t) else (.break, o.decided t)

/-- Repeat `round` until it breaks. -/
def iterate (round : Trace → Outcome × Trace) : Nat → Trace → Outcome × Trace
  | 0, t => (.timeout, t)
  | n + 1, t =>
    match round t with
    | (.normal, t) | (.continue, t) => iterate round n t
    | (.break, t) => (.normal, t)
    | r => r

/-- The next-expression of a `for`. -/
def performNext (o : Oracle) (next : Option Effect) (t : Trace) : Outcome × Trace :=
  match next with
  | none => (.normal, t)
  | some e => perform o e t

mutual

def exec (o : Oracle) (fuel : Nat) : Stmt → Trace → Outcome × Trace
  | .block stmts, t => execAll o fuel stmts t
  | .expression effect, t => perform o effect t
  | .return none, t => (.done, t ++ [.returned])
  | .return (some expr), t => (.done, eval o expr t ++ [.returned])
  | .break, t => (.break, t)
  | .continue, t => (.continue, t)
  | .ifThen cond thenStmt, t =>
    let t := eval o cond t
    if o.choose t then exec o fuel thenStmt (o.decided t) else (.normal, o.decided t)
  | .ifThenElse cond thenStmt elseStmt, t =>
    let t := eval o cond t
    if o.choose t then exec o fuel thenStmt (o.decided t) else exec o fuel elseStmt (o.decided t)
  | .doWhile body cond, t =>
    iterate (fun t => bodyThen (exec o fuel body t) (guarded o (eval o cond) fun t => (.normal, t)))
      fuel t
  | .while cond body, t => iterate (guarded o (eval o cond) (exec o fuel body)) fuel t
  | .for init none next body, t =>
    seqThen (execOpt o fuel init t)
      (iterate (fun t => bodyThen (execOpt o fuel body t) (performNext o next)) fuel)
  | .for init (some cond) next body, t =>
    seqThen (execOpt o fuel init t)
      (iterate (guarded o (eval o cond) fun t =>
        bodyThen (execOpt o fuel body t) (performNext o next)) fuel)

def execAll (o : Oracle) (fuel : Nat) : List Stmt → Trace → Outcome × Trace
  | [], t => (.normal, t)
  | stmt :: stmts, t => seqThen (exec o fuel stmt t) (execAll o fuel stmts)

def execOpt (o : Oracle) (fuel : Nat) : Option Stmt → Trace → Outcome × Trace
  | none, t => (.normal, t)
  | some stmt, t => exec o fuel stmt t

end

/-- A function body, with the implicit return at its end. -/
def execFunction (o : Oracle) (fuel : Nat) (body : Stmt) : Outcome × Trace :=
  seqThen (exec o fuel body []) fun t => (.done, t ++ [.returned])

/-! ## Static conditions -/

namespace Stmt

mutual

/-- `break` and `continue` are only accepted in a loop. -/
def resolved (inLoop : Bool) : Stmt → Bool
  | block stmts => allResolved inLoop stmts
  | .break | .continue => inLoop
  | ifThen _ thenStmt => thenStmt.resolved inLoop
  | ifThenElse _ thenStmt elseStmt => thenStmt.resolved inLoop && elseStmt.resolved inLoop
  | doWhile body _ | .while _ body => body.resolved true
  | .for init _ _ body => optResolved inLoop init && optResolved true body
  | expression _ | .return _ => true

def allResolved (inLoop : Bool) : List Stmt → Bool
  | [] => true
  | s :: ss => s.resolved inLoop && allResolved inLoop ss

def optResolved (inLoop : Bool) : Option Stmt → Bool
  | none => true
  | some s => s.resolved inLoop

end

/-- The ways in which control can leave a statement, other than for good. -/
structure Exits where
  normal : Bool
  breaks : Bool
  continues : Bool

mutual

def exits : Stmt → Exits
  | block stmts => allExits stmts
  | expression effect => ⟨effect.reachable, false, false⟩
  | .return _ => ⟨false, false, false⟩
  | .break => ⟨false, true, false⟩
  | .continue => ⟨false, false, true⟩
  | ifThen _ thenStmt => ⟨true, thenStmt.exits.breaks, thenStmt.exits.continues⟩
  | ifThenElse _ thenStmt elseStmt =>
    ⟨thenStmt.exits.normal || elseStmt.exits.normal,
      thenStmt.exits.breaks || elseStmt.exits.breaks,
      thenStmt.exits.continues || elseStmt.exits.continues⟩
  | doWhile body _ =>
    ⟨body.exits.normal || body.exits.breaks || body.exits.continues, false, false⟩
  | .while _ _ => ⟨true, false, false⟩
  | .for init cond _ body =>
    ⟨(optExits init).normal && (cond.isSome || (optExits body).breaks),
      (optExits init).breaks, (optExits init).continues⟩

def allExits : List Stmt → Exits
  | [] => ⟨true, false, false⟩
  | s :: ss =>
    ⟨s.exits.normal && (allExits ss).normal,
      s.exits.breaks || (s.exits.normal && (allExits ss).breaks),
      s.exits.continues || (s.exits.normal && (allExits ss).continues)⟩

def optExits : Option Stmt → Exits
  | none => ⟨true, false, false⟩
  | some s => s.exits

end

mutual

/-- How many loop scopes the lowering of the statement leaves entered: one for
each `do` loop that is lowered. -/
def leaks : Stmt → Nat
  | block stmts => allLeaks stmts
  | ifThen _ thenStmt => thenStmt.leaks
  | ifThenElse _ thenStmt elseStmt => thenStmt.leaks + elseStmt.leaks
  | doWhile body _ => body.leaks + 1
  | .while _ body => body.leaks
  | .for init _ _ body => optLeaks init + optLeaks body
  | expression _ | .return _ | .break | .continue => 0

def allLeaks : List Stmt → Nat
  | [] => 0
  | s :: ss => s.leaks + if s.reachable then allLeaks ss else 0

def optLeaks : Option Stmt → Nat
  | none => 0
  | some s => s.leaks

end

mutual

/-- The lowering handles the loops of the statement, when `d` scopes were left
entered in the loop around it: no `break` or `continue` is lowered after a
`do` loop in the same loop body, the initialiser of a `for` does not end
execution, and a `for` without condition that has a next-expression and whose
body does not reach its end has no `continue` that can be executed. -/
def loopsOk (d : Nat) : Stmt → Bool
  | block stmts => allLoopsOk d stmts
  | .break | .continue => d == 0
  | ifThen _ thenStmt => thenStmt.loopsOk d
  | ifThenElse _ thenStmt elseStmt => thenStmt.loopsOk d && elseStmt.loopsOk (d + thenStmt.leaks)
  | doWhile body _ | .while _ body => body.loopsOk 0
  | .for init cond next body =>
    optLoopsOk d init && init.all reachable && optLoopsOk 0 body &&
      (cond.isSome || next.isNone || body.all reachable || !(optExits body).continues)
  | expression _ | .return _ => true

def allLoopsOk (d : Nat) : List Stmt → Bool
  | [] => true
  | s :: ss => s.loopsOk d && (!s.reachable || allLoopsOk (d + s.leaks) ss)

def optLoopsOk (d : Nat) : Option Stmt → Bool
  | none => true
  | some s => s.loopsOk d

end

end Stmt

end Solang.Codegen

/-!
## Static facts about how statements are left

What the reachability flags and `exits` say about the meaning of a statement.
-/

namespace Solang.Codegen

/-! ### Combinators -/

theorem iterate_ne_break {round : Trace → Outcome × Trace} {n : Nat} {t : Trace} :
    (iterate round n t).1 ≠ .break ∧ (iterate round n t).1 ≠ .continue := by
  induction n generalizing t with
  | zero => simp [iterate]
  | succ n ih =>
    simp only [iterate]
    rcases round t with ⟨oc, t'⟩
    cases oc with
    | normal => exact ih
    | «continue» => exact ih
    | «break» => simp
    | done | timeout => simp

/-- A loop only ends normally by leaving a round with `break`. -/
theorem exists_break_of_iterate {round : Trace → Outcome × Trace} {n : Nat} {t : Trace}
    (h : (iterate round n t).1 = .normal) : ∃ t', (round t').1 = .break := by
  induction n generalizing t with
  | zero => simp [iterate] at h
  | succ n ih =>
    simp only [iterate] at h
    rcases hr : round t with ⟨oc, t'⟩
    rw [hr] at h
    cases oc with
    | normal => exact ih h
    | «continue» => exact ih h
    | «break» => exact ⟨t, by rw [hr]⟩
    | done | timeout => cases h

theorem bodyThen_break {r : Outcome × Trace} {k : Trace → Outcome × Trace}
    (hk : ∀ t, (k t).1 ≠ .break) (h : (bodyThen r k).1 = .break) : r.1 = .break := by
  obtain ⟨oc, t⟩ := r
  cases oc with
  | normal => exact absurd h (hk t)
  | «continue» => exact absurd h (hk t)
  | «break» => rfl
  | done | timeout => cases h

theorem perform_outcome (o : Oracle) (e : Effect) (t : Trace) :
    (perform o e t).1 = if e.reachable then .normal else .done := by
  unfold perform Effect.reachable
  cases e.noreturn <;> rfl

theorem performNext_outcome (o : Oracle) (next : Option Effect) (t : Trace) :
    (performNext o next t).1 = .normal ∨ (performNext o next t).1 = .done := by
  cases next with
  | none => exact .inl rfl
  | some e =>
    rw [performNext, perform_outcome]
    cases e.reachable
    · exact .inr rfl
    · exact .inl rfl

/-! ### Flags -/

namespace Stmt

mutual

theorem resolvedReachable_of_reachable : ∀ {s : Stmt}, s.reachable = true →
    s.resolvedReachable = true
  | .block stmts, h => by
    simp only [reachable] at h
    simp only [resolvedReachable]
    exact resolvedReachableLast_of_allReachable h
  | .expression _, h | .return _, h | .break, h | .continue, h | .ifThen _ _, h
  | .ifThenElse _ _ _, h | .doWhile _ _, h | .while _ _, h | .for _ _ _ _, h => by
    simpa only [reachable] using h

theorem resolvedReachableLast_of_allReachable : ∀ {ss : List Stmt}, allReachable ss = true →
    resolvedReachableLast ss = true
  | [], _ => rfl
  | [s], h => by
    simp only [allReachable, Bool.and_true] at h
    simp only [resolvedReachableLast]
    exact resolvedReachable_of_reachable h
  | _ :: s :: ss, h => by
    simp only [allReachable, Bool.and_eq_true] at h
    simp only [resolvedReachableLast]
    exact resolvedReachableLast_of_allReachable (by simp [allReachable, h])

end

/-- The flags allow the statement to be left in this way. -/
structure Allows (reachable hasBreak : Bool) (e : Exits) (oc : Outcome) : Prop where
  normal : oc = .normal → reachable = true ∧ e.normal = true
  breaks : oc = .break → hasBreak = true ∧ e.breaks = true
  continues : oc = .continue → e.continues = true

theorem Allows.of_other {r b : Bool} {e : Exits} {oc : Outcome} (h : oc = .done ∨ oc = .timeout) :
    Allows r b e oc := by
  rcases h with rfl | rfl <;> exact ⟨nofun, nofun, nofun⟩

/-- A loop that can be left normally. -/
theorem Allows.of_loop {b : Bool} {e : Exits} {round : Trace → Outcome × Trace} {n : Nat}
    {t : Trace} {r : Bool} (h : (iterate round n t).1 = .normal → r = true ∧ e.normal = true) :
    Allows r b e (iterate round n t).1 where
  normal := h
  breaks hb := absurd hb iterate_ne_break.1
  continues hc := absurd hc iterate_ne_break.2

/-- `init; loop`, as a `for` statement is executed. -/
theorem Allows.of_for {ri bi r : Bool} {ei e : Exits} {x : Outcome × Trace}
    {k : Trace → Outcome × Trace} (hx : Allows ri bi ei x.1) (hb : ei.breaks = e.breaks)
    (hc : ei.continues = e.continues) {b : Bool} (hbi : bi = true → b = true)
    (hk : ∀ t, ei.normal = true → Allows r false ⟨e.normal, false, false⟩ (k t).1) :
    Allows r b e (seqThen x k).1 := by
  obtain ⟨oc, t⟩ := x
  cases oc with
  | normal =>
    have h := hk t (hx.normal rfl).2
    refine ⟨h.normal, fun hn => ?_, fun hn => ?_⟩
    · exact absurd (h.breaks hn).2 (by simp)
    · exact absurd (h.continues hn) (by simp)
  | «break» => exact ⟨nofun, fun _ => ⟨hbi (hx.breaks rfl).1, hb ▸ (hx.breaks rfl).2⟩, nofun⟩
  | «continue» => exact ⟨nofun, nofun, fun _ => hc ▸ hx.continues rfl⟩
  | done => exact .of_other (.inl rfl)
  | timeout => exact .of_other (.inr rfl)

variable (o : Oracle) (fuel : Nat)

mutual

theorem allows_exec : ∀ (s : Stmt) (t : Trace),
    Allows s.reachable s.hasBreak s.exits (exec o fuel s t).1
  | .block stmts, t => by
    simp only [reachable, hasBreak, exits, exec]
    exact allows_execAll stmts t
  | .expression effect, t => by
    simp only [exec, perform_outcome, reachable, resolvedReachable, exits]
    cases h : effect.reachable with
    | false => exact .of_other (.inl rfl)
    | true => exact ⟨fun _ => ⟨h, rfl⟩, nofun, nofun⟩
  | .return none, t => by
    simp only [exec]
    exact .of_other (.inl rfl)
  | .return (some expr), t => by
    simp only [exec]
    exact .of_other (.inl rfl)
  | .break, t => by
    simp only [exec, hasBreak, exits]
    exact ⟨nofun, fun _ => ⟨rfl, rfl⟩, nofun⟩
  | .continue, t => by
    simp only [exec, exits]
    exact ⟨nofun, nofun, fun _ => rfl⟩
  | .ifThen cond thenStmt, t => by
    simp only [exec, reachable, resolvedReachable, hasBreak, exits]
    split
    · have h := allows_exec thenStmt (o.decided (eval o cond t))
      exact ⟨fun _ => ⟨rfl, rfl⟩, h.breaks, h.continues⟩
    · exact ⟨fun _ => ⟨rfl, rfl⟩, nofun, nofun⟩
  | .ifThenElse cond thenStmt elseStmt, t => by
    simp only [exec, reachable, resolvedReachable, hasBreak, exits]
    split
    · have h := allows_exec thenStmt (o.decided (eval o cond t))
      refine ⟨fun hn => ⟨?_, by simp [h.normal hn]⟩, fun hb => ?_, fun hc => ?_⟩
      · simp [resolvedReachable_of_reachable (h.normal hn).1]
      · simp [h.breaks hb]
      · simp [h.continues hc]
    · have h := allows_exec elseStmt (o.decided (eval o cond t))
      refine ⟨fun hn => ⟨?_, by simp [h.normal hn]⟩, fun hb => ?_, fun hc => ?_⟩
      · simp [resolvedReachable_of_reachable (h.normal hn).1]
      · simp [h.breaks hb]
      · simp [h.continues hc]
  | .doWhile body cond, t => by
    simp only [exec, reachable, resolvedReachable, exits]
    refine .of_loop fun hn => ⟨rfl, ?_⟩
    obtain ⟨t', hb⟩ := exists_break_of_iterate hn
    have h := allows_exec body t'
    generalize exec o fuel body t' = r at hb h
    obtain ⟨oc, t''⟩ := r
    cases oc with
    | normal => simp [h.normal rfl]
    | «continue» => simp [h.continues rfl]
    | «break» => simp [h.breaks rfl]
    | done | timeout => cases hb
  | .while cond body, t => by
    simp only [exec, reachable, resolvedReachable, exits]
    exact .of_loop fun _ => ⟨rfl, rfl⟩
  | .for init none next body, t => by
    simp only [exec, reachable, resolvedReachable, exits]
    refine Allows.of_for (allows_execOpt init t) ?_ ?_ ?_ fun t hi => .of_loop fun hn => ?_
    · rfl
    · rfl
    · cases init <;> simp [hasBreak]
    · obtain ⟨t', hb⟩ := exists_break_of_iterate hn
      have hb := bodyThen_break (fun t => by
        rcases performNext_outcome o next t with h | h <;> simp [h]) hb
      have h := (allows_execOpt body t').breaks hb
      refine ⟨?_, by simp [hi, h.2]⟩
      cases body with
      | none => exact h.1
      | some body => exact h.1
  | .for init (some cond) next body, t => by
    simp only [exec, reachable, resolvedReachable, exits]
    refine Allows.of_for (allows_execOpt init t) ?_ ?_ ?_ fun t hi => .of_loop fun _ => ?_
    · rfl
    · rfl
    · cases init <;> simp [hasBreak]
    · exact ⟨rfl, by simp [hi]⟩

theorem allows_execAll : ∀ (ss : List Stmt) (t : Trace),
    Allows (allReachable ss) (hasBreaks ss) (allExits ss) (execAll o fuel ss t).1
  | [], t => by
    simp only [execAll, allReachable, allExits]
    exact ⟨fun _ => ⟨rfl, rfl⟩, nofun, nofun⟩
  | s :: ss, t => by
    simp only [execAll, allReachable, hasBreaks, allExits]
    have h := allows_exec s t
    generalize exec o fuel s t = r at h
    obtain ⟨oc, t'⟩ := r
    cases oc with
    | normal =>
      have hs := h.normal rfl
      have h' := allows_execAll ss t'
      simp only [seqThen]
      refine ⟨fun hn => ?_, fun hb => ?_, fun hc => ?_⟩
      · simp [hs, h'.normal hn]
      · simp [hs, h'.breaks hb]
      · simp [hs, h'.continues hc]
    | «break» => exact ⟨nofun, fun _ => by simp [h.breaks rfl], nofun⟩
    | «continue» => exact ⟨nofun, nofun, fun _ => by simp [h.continues rfl]⟩
    | done => exact .of_other (.inl rfl)
    | timeout => exact .of_other (.inr rfl)

theorem allows_execOpt : ∀ (s : Option Stmt) (t : Trace),
    Allows (s.all reachable) (s.any hasBreak) (optExits s) (execOpt o fuel s t).1
  | none, t => by
    simp only [execOpt, optExits]
    exact ⟨fun _ => ⟨rfl, rfl⟩, nofun, nofun⟩
  | some s, t => by
    simp only [execOpt, optExits]
    exact allows_exec s t

end

mutual

/-- Outside of loops nothing is left by `break` or `continue`. -/
theorem exits_of_resolved : ∀ s : Stmt, s.resolved false = true →
    s.exits.breaks = false ∧ s.exits.continues = false
  | .block stmts, h => allExits_of_resolved stmts h
  | .expression _, _ | .return _, _ | .doWhile _ _, _ | .while _ _, _ => ⟨rfl, rfl⟩
  | .break, h | .continue, h => by cases h
  | .ifThen _ thenStmt, h => exits_of_resolved thenStmt h
  | .ifThenElse _ thenStmt elseStmt, h => by
    simp only [resolved, Bool.and_eq_true] at h
    simp [exits, exits_of_resolved thenStmt h.1, exits_of_resolved elseStmt h.2]
  | .for init _ _ _, h => by
    simp only [resolved, Bool.and_eq_true] at h
    exact optExits_of_resolved init h.1

theorem allExits_of_resolved : ∀ ss : List Stmt, allResolved false ss = true →
    (allExits ss).breaks = false ∧ (allExits ss).continues = false
  | [], _ => ⟨rfl, rfl⟩
  | s :: ss, h => by
    simp only [allResolved, Bool.and_eq_true] at h
    simp [allExits, exits_of_resolved s h.1, allExits_of_resolved ss h.2]

theorem optExits_of_resolved : ∀ s : Option Stmt, optResolved false s = true →
    (optExits s).breaks = false ∧ (optExits s).continues = false
  | none, _ => ⟨rfl, rfl⟩
  | some s, h => exits_of_resolved s h

end

end Stmt

open Stmt

/-- A function is only left for good. -/
theorem execFunction_outcome {body : Stmt} (h : body.resolved false = true) (o : Oracle)
    (fuel : Nat) :
    (execFunction o fuel body).1 = .done ∨ (execFunction o fuel body).1 = .timeout := by
  have ha : Allows body.reachable body.hasBreak body.exits (exec o fuel body []).1 :=
    allows_exec o fuel body []
  obtain ⟨hb, hc⟩ := exits_of_resolved body h
  unfold execFunction
  generalize exec o fuel body [] = r at ha
  obtain ⟨oc, t⟩ := r
  cases oc with
  | normal | done => exact .inl rfl
  | «break» => cases hb.symm.trans (ha.breaks rfl).2
  | «continue» => cases hc.symm.trans (ha.continues rfl)
  | timeout => exact .inr rfl

end Solang.Codegen
