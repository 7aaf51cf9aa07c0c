import Mathlib.Data.List.Nodup

/-!
# Worklist loops

`run pick step` serves a set of pending keys until it is empty. Serving a key
updates the state and may put keys back. Which pending key is served next is
up to `pick`, so that results about `run` hold for every iteration order of a
hash set.
-/

namespace Worklist

variable {κ σ : Type} [DecidableEq κ]

/-- A schedule only serves pending keys. -/
def Fair (pick : Nat → List κ → κ) : Prop :=
  ∀ n k ks, pick n (k :: ks) ∈ k :: ks

/-- The first pending key, as long as there are any -/
def first [Inhabited κ] (_ : Nat) (todo : List κ) : κ := todo.headI

omit [DecidableEq κ] in
theorem fair_first [Inhabited κ] : Fair (first (κ := κ)) := by simp [Fair, first]

/-- `todo` without `k` and with the keys `new`. -/
def requeue (k : κ) (new todo : List κ) : List κ :=
  new.foldr List.insert (todo.filter (· ≠ k))

/-- Serve keys until none is pending; `none` when that takes more than the
given number of steps. -/
def run (pick : Nat → List κ → κ) (step : κ → σ → σ × List κ) : Nat → List κ → σ → Option σ
  | _, [], s => some s
  | 0, _ :: _, _ => none
  | n + 1, k :: ks, s =>
    let next := pick n (k :: ks)
    let r := step next s
    run pick step n (requeue next r.2 (k :: ks)) r.1

@[simp] theorem mem_requeue {k j : κ} {new todo : List κ} :
    j ∈ requeue k new todo ↔ j ∈ new ∨ (j ∈ todo ∧ j ≠ k) := by
  unfold requeue
  induction new with
  | nil => simp
  | cons a new ih => simp only [List.foldr_cons, List.mem_insert_iff, ih, List.mem_cons, or_assoc]

theorem length_requeue_le (k : κ) (new todo : List κ) :
    (requeue k new todo).length ≤ new.length + (todo.filter (· ≠ k)).length := by
  unfold requeue
  induction new with
  | nil => simp
  | cons a new ih =>
    simp only [List.foldr_cons, List.length_cons, List.length_insert]
    split <;> omega

theorem length_filter_ne_lt {k : κ} {todo : List κ} (h : k ∈ todo) :
    (todo.filter (· ≠ k)).length < todo.length := by
  refine List.length_filter_lt_length_iff_exists.mpr ⟨k, h, by simp⟩

section Total

variable {pick : Nat → List κ → κ} {step : κ → σ → σ × List κ} {Inv : List κ → σ → Prop}
  {rank : σ → Nat} {width : Nat}

/-- The number of steps that suffices when `rank` bounds how often keys can
still be put back and `width` how many at a time. -/
def fuelBound (rank : σ → Nat) (width : Nat) (todo : List κ) (s : σ) : Nat :=
  rank s * (width + 1) + todo.length

/-- Serving one key shrinks the bound: either keys are put back and the rank
falls, or the set of pending keys gets smaller. -/
theorem fuelBound_step {k : κ} {todo : List κ} {s : σ} (hk : k ∈ todo)
    (hw : (step k s).2.length ≤ width) (hle : rank (step k s).1 ≤ rank s)
    (hlt : (step k s).2 ≠ [] → rank (step k s).1 < rank s) :
    fuelBound rank width (requeue k (step k s).2 todo) (step k s).1
      < fuelBound rank width todo s := by
  have h1 := length_requeue_le k (step k s).2 todo
  have h2 := length_filter_ne_lt hk
  unfold fuelBound
  by_cases hn : (step k s).2 = []
  · rw [hn] at h1 ⊢
    have h3 := Nat.mul_le_mul_right (width + 1) hle
    simp only [List.length_nil] at h1
    omega
  · have h3 := Nat.mul_le_mul_right (width + 1) (hlt hn)
    rw [Nat.succ_mul] at h3
    omega

/-- The loop ends under every schedule, and what each step preserves holds at
the end. -/
theorem run_total (hp : Fair pick)
    (hinv : ∀ k todo s, Inv todo s → k ∈ todo →
      Inv (requeue k (step k s).2 todo) (step k s).1)
    (hw : ∀ k todo s, Inv todo s → k ∈ todo → (step k s).2.length ≤ width)
    (hle : ∀ k todo s, Inv todo s → k ∈ todo → rank (step k s).1 ≤ rank s)
    (hlt : ∀ k todo s, Inv todo s → k ∈ todo → (step k s).2 ≠ [] → rank (step k s).1 < rank s) :
    ∀ (fuel : Nat) (todo : List κ) (s : σ), Inv todo s → fuelBound rank width todo s ≤ fuel →
      ∃ s', run pick step fuel todo s = some s' ∧ Inv [] s' := by
  intro fuel
  induction fuel with
  | zero =>
    intro todo s hi hf
    cases todo with
    | nil => exact ⟨s, by simp [run], hi⟩
    | cons k ks => simp [fuelBound] at hf
  | succ n ih =>
    intro todo s hi hf
    cases todo with
    | nil => exact ⟨s, by simp [run], hi⟩
    | cons k ks =>
      have hk := hp n k ks
      have hb := fuelBound_step hk (hw _ _ _ hi hk) (hle _ _ _ hi hk) (hlt _ _ _ hi hk)
      exact ih _ _ (hinv _ _ _ hi hk) (by omega)

end Total

end Worklist
