import Solang.Codegen.StatementsSource

/-!
# Where a statement lands

The place that a run of the graph gets to when the source is left with some
outcome. `st` is the step of the machine that runs the graph.
-/

namespace Solang.Codegen

open Runs

variable {st : Position × Trace → Option (Position × Trace)} {fuel : Nat}

/-- From `start`, the run makes the visits of the result `r` and lands where
it says: `p` is the place after the statement. -/
def Lands (st : Position × Trace → Option (Position × Trace)) (fuel : Nat) (start : Position × Trace)
    (p : Position) (brk cont : Nat) (r : Outcome × Trace) : Prop :=
  match r with
  | (.normal, t) => Reach st 0 start (p, t)
  | (.break, t) => Reach st 1 start (.at brk 0, t)
  | (.continue, t) => Reach st 1 start (.at cont 0, t)
  | (.done, t) => Reach st 0 start (.done, t)
  | (.timeout, t) => ∃ q, Reach st fuel start (q, t)

theorem Lands.prepend {n : Nat} {a b : Position × Trace} {p : Position} {brk cont : Nat}
    {r : Outcome × Trace} (h : Reach st n a b) (hl : Lands st fuel b p brk cont r) :
    Lands st fuel a p brk cont r := by
  obtain ⟨oc, t⟩ := r
  cases oc with
  | normal | done => exact h.then hl
  | «break» => exact h.then hl
  | «continue» => exact h.then hl
  | timeout =>
    obtain ⟨q, hq⟩ := hl
    exact ⟨q, h.then hq⟩

/-- A machine that can do more lands at the same place. -/
theorem Lands.of_step {st' : Position × Trace → Option (Position × Trace)}
    (h : ∀ a b, st a = some b → st' a = some b) {a : Position × Trace} {p : Position}
    {brk cont : Nat} {r : Outcome × Trace} (hl : Lands st fuel a p brk cont r) :
    Lands st' fuel a p brk cont r := by
  obtain ⟨oc, t⟩ := r
  cases oc with
  | normal | done => exact Reach.of_step h hl
  | «break» => exact Reach.of_step h hl
  | «continue» => exact Reach.of_step h hl
  | timeout =>
    obtain ⟨q, hq⟩ := hl
    exact ⟨q, hq.of_step h⟩

/-- Run on from the place after the statement. -/
theorem Lands.append {a : Position × Trace} {p q : Position} {brk cont : Nat}
    {r : Outcome × Trace} (hl : Lands st fuel a p brk cont r)
    (h : ∀ t, r = (.normal, t) → Reach st 0 (p, t) (q, t)) :
    Lands st fuel a q brk cont r := by
  obtain ⟨oc, t⟩ := r
  cases oc with
  | normal => exact Reach.seq hl (h t rfl)
  | «break» => exact hl
  | «continue» => exact hl
  | done | timeout => exact hl

theorem Lands.seqThen {a : Position × Trace} {p q : Position} {brk cont : Nat}
    {r : Outcome × Trace} {k : Trace → Outcome × Trace} (hl : Lands st fuel a p brk cont r)
    (hk : ∀ t, r = (.normal, t) → Lands st fuel (p, t) q brk cont (k t)) :
    Lands st fuel a q brk cont (seqThen r k) := by
  obtain ⟨oc, t⟩ := r
  cases oc with
  | normal => exact (hk t rfl).prepend hl
  | «break» => exact hl
  | «continue» => exact hl
  | done | timeout => exact hl

end Solang.Codegen
