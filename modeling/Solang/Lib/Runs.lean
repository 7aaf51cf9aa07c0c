import Mathlib.Data.Finset.Card

/-!
# Updates that accumulate facts

A state is read through the facts that hold of it. An update of a state and a
`changed` flag *accumulates* a set of facts when exactly those facts are added
and the flag is raised exactly when one of them is new.
-/

/-- `step` adds the facts `E` and reports whether one of them is new. -/
structure Accumulates {α φ : Type} (H : α → φ → Prop) (E : φ → Prop)
    (step : α × Bool → α × Bool) : Prop where
  holds : ∀ r k, H (step r).1 k ↔ H r.1 k ∨ E k
  changed : ∀ r, (step r).2 = true ↔ r.2 = true ∨ ∃ k, E k ∧ ¬ H r.1 k

namespace Accumulates

variable {α β φ : Type} {H : α → φ → Prop} {E E₁ E₂ : φ → Prop} {f g : α × Bool → α × Bool}

theorem id : Accumulates H (fun _ => False) (fun r => r) where
  holds := by simp
  changed := by simp

theorem congr (hf : Accumulates H E₁ f) (h : ∀ k, E₁ k ↔ E₂ k) : Accumulates H E₂ f where
  holds r k := by rw [hf.holds, h]
  changed r := by simp only [hf.changed, h]

theorem comp (hf : Accumulates H E₁ f) (hg : Accumulates H E₂ g) :
    Accumulates H (fun k => E₁ k ∨ E₂ k) (fun r => g (f r)) where
  holds r k := by rw [hg.holds, hf.holds, or_assoc]
  changed r := by
    rw [hg.changed, hf.changed]
    constructor
    · rintro ((h | ⟨k, h1, h2⟩) | ⟨k, h1, h2⟩)
      · exact .inl h
      · exact .inr ⟨k, .inl h1, h2⟩
      · exact .inr ⟨k, .inr h1, fun h => h2 ((hf.holds r k).mpr (.inl h))⟩
    · rintro (h | ⟨k, h1, h2⟩)
      · exact .inl (.inl h)
      · -- a fact of `g` may already have been added by `f`
        by_cases hk : E₁ k
        · exact .inl (.inr ⟨k, hk, h2⟩)
        · refine .inr ⟨k, h1.resolve_left hk, fun h => ?_⟩
          exact ((hf.holds r k).mp h).elim h2 hk

theorem foldl {E : β → φ → Prop} {step : α × Bool → β → α × Bool}
    (h : ∀ e, Accumulates H (E e) (step · e)) (l : List β) :
    Accumulates H (fun k => ∃ e ∈ l, E e k) (fun r => l.foldl step r) := by
  induction l with
  | nil => exact id.congr (by simp)
  | cons e l ih => exact ((h e).comp ih).congr (by simp)

end Accumulates

/-! ## Counting the facts still unknown -/

section Unknown

variable {σ φ : Type} {holds : σ → φ → Prop} {U : Finset φ} {s s' : σ}

open Classical in
/-- How many facts of the finite universe `U` do not hold yet. -/
noncomputable def unknown (holds : σ → φ → Prop) (U : Finset φ) (s : σ) : Nat :=
  (U.filter fun f => ¬ holds s f).card

theorem unknown_le (h : ∀ f, holds s f → holds s' f) : unknown holds U s' ≤ unknown holds U s := by
  classical
  refine Finset.card_le_card fun f hf => ?_
  rw [Finset.mem_filter] at hf ⊢
  exact ⟨hf.1, fun hs => hf.2 (h f hs)⟩

theorem unknown_lt (h : ∀ f, holds s f → holds s' f) {f : φ} (hU : f ∈ U) (hf : holds s' f)
    (hn : ¬ holds s f) : unknown holds U s' < unknown holds U s := by
  classical
  refine Finset.card_lt_card (Finset.ssubset_iff_of_subset ?_ |>.mpr ⟨f, ?_, ?_⟩)
  · intro g hg
    rw [Finset.mem_filter] at hg ⊢
    exact ⟨hg.1, fun hs => hg.2 (h g hs)⟩
  · simp [hU, hn]
  · simp [hf]

end Unknown

/-!
## Runs of a deterministic machine

`StepsN step n a b`: `n` steps lead from `a` to `b`. `Reach step n a b`: at
least `n` do. Counting the steps from below is what carries results about
terminating runs over to diverging ones.
-/

namespace Runs

variable {σ : Type} {step : σ → Option σ}

inductive StepsN (step : σ → Option σ) : Nat → σ → σ → Prop where
  | refl (a : σ) : StepsN step 0 a a
  | step {n : Nat} {a b c : σ} : step a = some b → StepsN step n b c → StepsN step (n + 1) a c

variable {m n : Nat}

theorem StepsN.trans {a b c : σ} (h1 : StepsN step m a b) (h2 : StepsN step n b c) :
    StepsN step (m + n) a c := by
  induction h1 with
  | refl => simpa using h2
  | step hs _ ih =>
    rw [Nat.add_right_comm]
    exact .step hs (ih h2)

/-- A longer run passes through the end of a shorter one. -/
theorem StepsN.prefix_of_le {a b c : σ} (h1 : StepsN step m a b) (h2 : StepsN step n a c)
    (hmn : m ≤ n) : StepsN step (n - m) b c := by
  induction h1 generalizing n with
  | refl => simpa using h2
  | step hs _ ih =>
    cases h2 with
    | refl => omega
    | step hs' h2 =>
      rw [hs] at hs'
      cases hs'
      rw [Nat.add_sub_add_right]
      exact ih h2 (by omega)

/-- A run that goes on after `b` takes a step from `b`. -/
theorem StepsN.isSome_of_lt {a b c : σ} (h1 : StepsN step m a b) (h2 : StepsN step n a c)
    (hmn : m < n) : (step b).isSome := by
  have h := h1.prefix_of_le h2 (by omega)
  obtain ⟨k, hk⟩ : ∃ k, n - m = k + 1 := ⟨n - m - 1, by omega⟩
  rw [hk] at h
  cases h with
  | step hs _ => simp [hs]

/-- Nothing comes after a state without a step. -/
theorem StepsN.eq_of_stuck {a b c : σ} (h1 : StepsN step m a b) (h2 : StepsN step n a c)
    (hmn : m ≤ n) (hb : step b = none) : c = b := by
  have h := h1.prefix_of_le h2 hmn
  generalize n - m = k at h
  cases h with
  | refl => rfl
  | step hs _ =>
    rw [hb] at hs
    cases hs

/-- A state that steps to itself is not left. -/
theorem StepsN.eq_of_loop {a b : σ} (h : StepsN step n a b) (ha : step a = some a) :
    b = a := by
  induction h with
  | refl => rfl
  | step hs _ ih =>
    rw [ha] at hs
    cases hs
    exact ih ha

/-- A machine that can do more. -/
theorem StepsN.of_step {step' : σ → Option σ} (h : ∀ a b, step a = some b → step' a = some b)
    {a b : σ} (hr : StepsN step n a b) : StepsN step' n a b := by
  induction hr with
  | refl => exact .refl _
  | step hs _ ih => exact .step (h _ _ hs) ih

/-- At least `n` steps lead from `a` to `b`. -/
def Reach (step : σ → Option σ) (n : Nat) (a b : σ) : Prop := ∃ m, n ≤ m ∧ StepsN step m a b

theorem Reach.refl (step : σ → Option σ) (a : σ) : Reach step 0 a a := ⟨0, Nat.le_refl _, .refl a⟩

theorem Reach.single {a b : σ} (h : step a = some b) : Reach step 1 a b :=
  ⟨1, Nat.le_refl _, .step h (.refl b)⟩

theorem Reach.trans {m n : Nat} {a b c : σ} (h1 : Reach step m a b) (h2 : Reach step n b c) :
    Reach step (m + n) a c := by
  obtain ⟨k, hk, h1⟩ := h1
  obtain ⟨l, hl, h2⟩ := h2
  exact ⟨k + l, by omega, h1.trans h2⟩

theorem Reach.mono {a b : σ} (h : Reach step n a b) (hmn : m ≤ n) :
    Reach step m a b := by
  obtain ⟨k, hk, h⟩ := h
  exact ⟨k, by omega, h⟩

theorem Reach.of_step {step' : σ → Option σ} (h : ∀ a b, step a = some b → step' a = some b)
    {n : Nat} {a b : σ} (hr : Reach step n a b) : Reach step' n a b := by
  obtain ⟨m, hm, hr⟩ := hr
  exact ⟨m, hm, hr.of_step h⟩

/-- Composition when only the steps of the second run count. -/
theorem Reach.then {a b c : σ} (h1 : Reach step m a b) (h2 : Reach step n b c) :
    Reach step n a c := (h1.trans h2).mono (by omega)

/-- Composition when the steps do not count. -/
theorem Reach.seq {a b c : σ} (h1 : Reach step m a b) (h2 : Reach step n b c) :
    Reach step 0 a c := (h1.trans h2).mono (by omega)

end Runs
