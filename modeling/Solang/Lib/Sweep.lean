import Mathlib.Algebra.Order.Group.Nat
import Mathlib.Data.List.Basic

/-!
# Sweeps over a system of equations

The unknowns of a system `x i = F x i` are updated one after the other in place, again and again, until
a sweep changes nothing. When every unknown depends only on unknowns of smaller rank this ends, whatever
the order of the updates: after `k` sweeps the unknowns of rank below `k` are those of the solution.
-/

namespace Sweep

variable {ι α : Type} (F : (ι → α) → ι → α) (rank : ι → Nat) (l : List ι)

/-- Every unknown of the list depends only on those of smaller rank. -/
def Local : Prop := ∀ x y, ∀ i ∈ l, (∀ j ∈ l, rank j < rank i → x j = y j) → F x i = F y i

def Solves (x : ι → α) : Prop := ∀ i ∈ l, F x i = x i

/-- The unknowns of rank below `k` are those of `T`. -/
def Below (T : ι → α) (k : Nat) (x : ι → α) : Prop := ∀ i ∈ l, rank i < k → x i = T i

variable {F rank l}

theorem exists_rank_lt (rank : ι → Nat) (l : List ι) : ∃ n, ∀ i ∈ l, rank i < n := by
  induction l with
  | nil => exact ⟨0, nofun⟩
  | cons i l ih =>
    obtain ⟨n, hn⟩ := ih
    refine ⟨max n (rank i + 1), List.forall_mem_cons.mpr ⟨by omega, fun j hj => ?_⟩⟩
    have hlt := hn j hj
    omega

/-- There is a solution: updating all unknowns at once often enough leads to it. -/
theorem Local.exists_solves (hF : Local F rank l) (x : ι → α) : ∃ T, Solves F l T := by
  have hstable : ∀ k, ∀ i ∈ l, rank i < k → F (F^[k] x) i = F^[k] x i := by
    intro k
    induction k with
    | zero => exact fun i _ h => absurd h (Nat.not_lt_zero _)
    | succ k ih =>
      intro i hi hrank
      rw [Function.iterate_succ_apply']
      exact hF _ _ i hi fun j hj hlt => ih j hj (by omega)
  obtain ⟨n, hn⟩ := exists_rank_lt rank l
  exact ⟨F^[n] x, fun i hi => hstable n i hi (hn i hi)⟩

variable [DecidableEq ι] [DecidableEq α]

variable (F l) in
def update (s : (ι → α) × Bool) (i : ι) : (ι → α) × Bool :=
  if F s.1 i = s.1 i then s else (Function.update s.1 i (F s.1 i), true)

variable (F l) in
/-- One sweep, with whether anything changed -/
def sweep (s : (ι → α) × Bool) : (ι → α) × Bool := l.foldl (update F) s

theorem update_apply_self (s : (ι → α) × Bool) (i : ι) : (update F s i).1 i = F s.1 i := by
  unfold update
  split
  next h => exact h.symm
  next => exact Function.update_self ..

theorem update_apply_of_ne (s : (ι → α) × Bool) {i j : ι} (h : j ≠ i) : (update F s i).1 j = s.1 j := by
  unfold update
  split
  next => rfl
  next => exact Function.update_of_ne h ..

theorem update_eq (s : (ι → α) × Bool) (i : ι) :
    update F s i = (Function.update s.1 i (F s.1 i), s.2 || decide (F s.1 i ≠ s.1 i)) := by
  unfold update
  split
  next h => rw [h, Function.update_eq_self, decide_eq_false (not_not.mpr rfl), Bool.or_false]
  next h => rw [decide_eq_true h, Bool.or_true]

theorem update_snd {s : (ι → α) × Bool} {i : ι} (h : (update F s i).2 = false) :
    F s.1 i = s.1 i ∧ update F s i = s := by
  unfold update at h ⊢
  split
  next heq => exact ⟨heq, rfl⟩
  next hne =>
    rw [if_neg hne] at h
    exact Bool.noConfusion h

/-- A sweep that changes nothing was done on a solution. -/
theorem sweep_snd {s : (ι → α) × Bool} (h : (sweep F l s).2 = false) :
    Solves F l s.1 ∧ sweep F l s = s := by
  unfold sweep Solves at *
  induction l generalizing s with
  | nil => exact ⟨nofun, rfl⟩
  | cons i l ih =>
    obtain ⟨hsolves, heq⟩ := ih h
    rw [List.foldl_cons] at h ⊢
    rw [heq] at h ⊢
    obtain ⟨hi, hupdate⟩ := update_snd h
    rw [hupdate] at hsolves ⊢
    exact ⟨List.forall_mem_cons.mpr ⟨hi, hsolves⟩, rfl⟩

theorem sweep_solves {s : (ι → α) × Bool} (h : Solves F l s.1) : sweep F l s = s := by
  unfold sweep Solves at *
  induction l with
  | nil => rfl
  | cons i l ih =>
    obtain ⟨hi, hl⟩ := List.forall_mem_cons.mp h
    have hupdate : update F s i = s := if_pos hi
    rw [List.foldl_cons, hupdate]
    exact ih hl

section Rank

variable (hF : Local F rank l)
include hF

variable {T : ι → α} (hT : Solves F l T)
include hT

omit [DecidableEq ι] [DecidableEq α] in
theorem Local.below_update {k : Nat} {s : (ι → α) × Bool} (hs : Below rank l T k s.1) {i : ι} (hi : i ∈ l)
    (hrank : rank i < k + 1) : F s.1 i = T i := by
  rw [← hT i hi]
  exact hF _ _ i hi fun j hj hlt => hs j hj (by omega)

/-- An update keeps what is right about ranks below `k + 1`. -/
theorem Local.keeps {k : Nat} {s : (ι → α) × Bool} (hs : Below rank l T k s.1) {i : ι} (hi : i ∈ l) {j : ι}
    (hrank : rank j < k + 1) (hj : s.1 j = T j) : (update F s i).1 j = T j := by
  by_cases hij : j = i
  · subst hij
    rw [update_apply_self]
    exact hF.below_update hT hs hi hrank
  · rwa [update_apply_of_ne s hij]

/-- A sweep makes the unknowns of one more rank right. -/
theorem Local.below_sweep {k : Nat} {s : (ι → α) × Bool} (hs : Below rank l T k s.1) :
    Below rank l T (k + 1) (sweep F l s).1 := by
  -- of a part of the list: what was right stays right, and what is updated becomes right
  have hpart : ∀ l' : List ι, (∀ i ∈ l', i ∈ l) → ∀ s : (ι → α) × Bool, Below rank l T k s.1 → ∀ j, rank j < k + 1 →
      s.1 j = T j ∨ j ∈ l' → (l'.foldl (update F) s).1 j = T j := by
    intro l'
    induction l' with
    | nil =>
      rintro - s - j - (hj | hj)
      · exact hj
      · exact absurd hj List.not_mem_nil
    | cons i l' ih =>
      intro hsub s hs j hrank hj
      obtain ⟨hi, hl'⟩ := List.forall_mem_cons.mp hsub
      refine ih hl' (update F s i) (fun j hj hlt => hF.keeps hT hs hi (by omega) (hs j hj hlt)) j hrank ?_
      rcases hj with hj | hj
      · exact .inl (hF.keeps hT hs hi hrank hj)
      · rcases List.mem_cons.mp hj with rfl | hj
        · left
          rw [update_apply_self]
          exact hF.below_update hT hs hi hrank
        · exact .inr hj
  exact fun i hi hrank => hpart l (fun _ h => h) s hs i hrank (.inr hi)

omit hT

/-- Sweeping until nothing changes ends: what holds of `x` when it holds of what a sweep that changes
something makes of `x` holds of every `x`. -/
theorem Local.sweeps_end {P : (ι → α) → Prop}
    (h : ∀ x, ((sweep F l (x, false)).2 = true → P (sweep F l (x, false)).1) → P x) (x : ι → α) : P x := by
  obtain ⟨T, hT⟩ := hF.exists_solves x
  obtain ⟨n, hn⟩ := exists_rank_lt rank l
  have hend : ∀ m k x, n ≤ k + m → Below rank l T k x → P x := by
    intro m
    induction m with
    | zero =>
      intro k x hk hx
      have hright : ∀ i ∈ l, x i = T i := fun i hi => hx i hi (Nat.lt_of_lt_of_le (hn i hi) hk)
      have hsolves : Solves F l x := fun i hi => by
        rw [hright i hi, ← hT i hi]
        exact hF _ _ i hi fun j hj _ => hright j hj
      refine h x fun hchanged => ?_
      rw [sweep_solves hsolves] at hchanged
      exact Bool.noConfusion hchanged
    | succ m ih =>
      intro k x hk hx
      exact h x fun _ => ih (k + 1) _ (by omega) (hF.below_sweep hT (s := (x, false)) hx)
  exact hend n 0 x (by omega) fun i _ hlt => absurd hlt (Nat.not_lt_zero _)

end Rank

end Sweep
