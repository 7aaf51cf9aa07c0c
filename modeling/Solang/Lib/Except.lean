import Mathlib.Data.List.Forall2

/-!
# Computations that end with a result or an error

When a sequence of computations has a result, and what the results of a list are.
-/

namespace Except

variable {ε α β : Type} {f : α → Except ε β} {b : β}

theorem bind_eq_ok_iff {x : Except ε α} : x >>= f = .ok b ↔ ∃ a, x = .ok a ∧ f a = .ok b := by
  cases x with
  | error e =>
    refine ⟨fun h => ?_, ?_⟩
    · cases h
    · rintro ⟨a, h, -⟩
      cases h
  | ok a =>
    refine ⟨fun h => ⟨a, rfl, h⟩, ?_⟩
    rintro ⟨a', h, hb⟩
    cases h
    exact hb

theorem bind_eq_error_iff {x : Except ε α} {e : ε} :
    x >>= f = .error e ↔ x = .error e ∨ ∃ a, x = .ok a ∧ f a = .error e := by
  cases x with
  | error e' =>
    refine ⟨fun h => .inl ?_, ?_⟩
    · cases h
      rfl
    · rintro (h | ⟨a, h, -⟩)
      · cases h
        rfl
      · cases h
  | ok a =>
    refine ⟨fun h => .inr ⟨a, rfl, h⟩, ?_⟩
    rintro (h | ⟨a', h, he⟩)
    · cases h
    · cases h
      exact he

theorem mapM_eq_ok_iff {l : List α} {bs : List β} :
    l.mapM f = .ok bs ↔ List.Forall₂ (fun a b => f a = .ok b) l bs := by
  induction l generalizing bs with
  | nil =>
    rw [List.mapM_nil, List.forall₂_nil_left_iff]
    refine ⟨fun h => ?_, fun h => h ▸ rfl⟩
    cases h
    rfl
  | cons a l ih =>
    rw [List.mapM_cons, bind_eq_ok_iff, List.forall₂_cons_left_iff]
    refine exists_congr fun b => ?_
    constructor
    · rintro ⟨ha, h⟩
      obtain ⟨bs', hl, h⟩ := bind_eq_ok_iff.mp h
      cases h
      exact ⟨bs', ha, ih.mp hl, rfl⟩
    · rintro ⟨bs', ha, hl, rfl⟩
      exact ⟨ha, bind_eq_ok_iff.mpr ⟨bs', ih.mpr hl, rfl⟩⟩

end Except

/-!
## Computations that keep an invariant

A computation over a state may fail, and leaves a state also then. `Keeps I m Q`: from a state with
the invariant it leaves one with the invariant, and `Q` holds of its result.
-/

variable {ε σ α β : Type}

def Keeps (I : σ → Prop) (m : ExceptT ε (StateM σ) α) (Q : Except ε α → Prop) : Prop :=
  ∀ s, I s → Q (m.run.run s).1 ∧ I (m.run.run s).2

namespace Keeps

variable {I : σ → Prop} {m : ExceptT ε (StateM σ) α} {f : α → ExceptT ε (StateM σ) β}
  {Q : Except ε α → Prop} {R : Except ε β → Prop}

theorem pure {a : α} (h : Q (.ok a)) : Keeps I (Pure.pure a) Q := fun _ hs => ⟨h, hs⟩

theorem throw {e : ε} (h : Q (.error e)) : Keeps I (MonadExcept.throw e) Q := fun _ hs => ⟨h, hs⟩

theorem imp {Q' : Except ε α → Prop} (h : Keeps I m Q) (hQ : ∀ r, Q r → Q' r) : Keeps I m Q' :=
  fun s hs => ⟨hQ _ (h s hs).1, (h s hs).2⟩

/-- An error of the first computation is an error of both. -/
theorem bind (h : Keeps I m Q) (hok : ∀ a, Q (.ok a) → Keeps I (f a) R)
    (herror : ∀ e, Q (.error e) → R (.error e)) : Keeps I (m >>= f) R := by
  intro s hs
  obtain ⟨hQ, hI⟩ := h s hs
  have hrun : (m >>= f).run.run s = match (m.run.run s).1 with
      | .ok a => (f a).run.run (m.run.run s).2
      | .error e => (.error e, (m.run.run s).2) := by
    show (match (m.run.run s).1 with
      | .ok a => (f a).run
      | .error e => Pure.pure (.error e) : StateM σ (Except ε β)) (m.run.run s).2 = _
    cases (m.run.run s).1 <;> rfl
  rw [hrun]
  cases hr : (m.run.run s).1 with
  | ok a => exact hok a (hr ▸ hQ) _ hI
  | error e => exact ⟨herror e (hr ▸ hQ), hI⟩

/-- The state that is read has the invariant. -/
theorem get_bind {g : σ → ExceptT ε (StateM σ) β} (h : ∀ s, I s → Keeps I (g s) R) :
    Keeps I (get >>= g) R := fun s hs => h s hs s hs

theorem modify_bind {g : σ → σ} {k : Unit → ExceptT ε (StateM σ) β} (hg : ∀ s, I s → I (g s))
    (h : Keeps I (k ()) R) : Keeps I (modify g >>= k) R := fun s hs => h (g s) (hg s hs)

end Keeps
