import Mathlib.Algebra.Order.BigOperators.Group.Finset

/-!
# Breadth-first traversal

`run succ fuel queue visited` takes nodes from the queue and puts their
successors there that have not been in it. With enough fuel it comes to every
node that can be reached; a node is taken once, so the fuel need not exceed the
number of edges and one.
-/

namespace Bfs

open Relation

variable {α : Type} [DecidableEq α]

/-- The end of an edge goes to the queue when it has not been there. -/
def push (s : List α × List α) (edge : α) : List α × List α :=
  if edge ∈ s.2 then s else (s.1 ++ [edge], s.2 ++ [edge])

/-- The nodes in the order in which they are taken -/
def run (succ : α → List α) : Nat → List α → List α → List α
  | 0, _, _ => []
  | _, [], _ => []
  | fuel + 1, cur :: queue, visited =>
    let next := (succ cur).foldl push (queue, visited)
    cur :: run succ fuel next.1 next.2

/-- What the edges of a node add to the queue -/
theorem foldl_push (l queue visited : List α) :
    ∃ new : List α, l.foldl push (queue, visited) = (queue ++ new, visited ++ new) ∧
      new.Nodup ∧ (∀ x ∈ new, x ∉ visited ∧ x ∈ l) ∧ (∀ x ∈ l, x ∈ visited ++ new) ∧
      new.length ≤ l.length := by
  induction l generalizing queue visited with
  | nil => exact ⟨[], by simp, by simp, by simp, by simp, by simp⟩
  | cons a l ih =>
    rw [List.foldl_cons]
    by_cases ha : a ∈ visited
    · obtain ⟨new, heq, hnd, hnew, hl, hlen⟩ := ih queue visited
      refine ⟨new, ?_, hnd, fun x hx => ⟨(hnew x hx).1, by simp [(hnew x hx).2]⟩, ?_, ?_⟩
      · rw [show push (queue, visited) a = (queue, visited) from if_pos ha]
        exact heq
      · intro x hx
        obtain rfl | hx := List.mem_cons.mp hx
        · exact List.mem_append_left _ ha
        · exact hl x hx
      · rw [List.length_cons]
        omega
    · obtain ⟨new, heq, hnd, hnew, hl, hlen⟩ := ih (queue ++ [a]) (visited ++ [a])
      have hanew : a ∉ new := fun h => (hnew a h).1 (by simp)
      refine ⟨a :: new, ?_, List.nodup_cons.mpr ⟨hanew, hnd⟩, ?_, ?_, ?_⟩
      · rw [show push (queue, visited) a = (queue ++ [a], visited ++ [a]) from if_neg ha, heq]
        simp
      · intro x hx
        obtain rfl | hx := List.mem_cons.mp hx
        · exact ⟨ha, by simp⟩
        · exact ⟨fun hxv => (hnew x hx).1 (by simp [hxv]), by simp [(hnew x hx).2]⟩
      · intro x hx
        obtain rfl | hx := List.mem_cons.mp hx
        · simp
        · have := hl x hx
          simpa [or_assoc] using this
      · simpa using hlen

section Complete

variable {succ : α → List α} {U : Finset α}

/-- The edges of the nodes that have not been taken -/
def edgesLeft (succ : α → List α) (U : Finset α) (queue visited : List α) : Nat :=
  ∑ b ∈ U with b ∉ visited ∨ b ∈ queue, (succ b).length

theorem edgesLeft_step (hU : ∀ b ∉ U, succ b = []) {cur : α} {queue visited new : List α}
    (hcur : cur ∈ visited) (hqn : (cur :: queue).Nodup) (hnew : ∀ x ∈ new, x ∉ visited) :
    (succ cur).length + edgesLeft succ U (queue ++ new) (visited ++ new) ≤
      edgesLeft succ U (cur :: queue) visited := by
  have hcurq : cur ∉ queue := (List.nodup_cons.mp hqn).1
  have hcurn : cur ∉ new := fun h => hnew cur h hcur
  have hsub : (U.filter fun b => b ∉ visited ++ new ∨ b ∈ queue ++ new) ⊆
      (U.filter fun b => b ∉ visited ∨ b ∈ cur :: queue).erase cur := by
    intro b hb
    rw [Finset.mem_filter] at hb
    rw [Finset.mem_erase, Finset.mem_filter]
    have hbcur : b ≠ cur := by
      rintro rfl
      simp [hcur, hcurq, hcurn] at hb
    refine ⟨hbcur, hb.1, ?_⟩
    obtain h | h := hb.2
    · exact .inl fun hv => h (List.mem_append_left _ hv)
    · obtain h | h := List.mem_append.mp h
      · exact .inr (List.mem_cons_of_mem _ h)
      · exact .inl (hnew b h)
  unfold edgesLeft
  by_cases hcU : cur ∈ U
  · have hmem : cur ∈ U.filter fun b => b ∉ visited ∨ b ∈ cur :: queue := by
      simp [hcU]
    rw [← Finset.add_sum_erase _ _ hmem]
    exact Nat.add_le_add_left (Finset.sum_le_sum_of_subset hsub) _
  · rw [hU cur hcU, List.length_nil, Nat.zero_add]
    exact Finset.sum_le_sum_of_subset (hsub.trans (Finset.erase_subset _ _))

/-- With enough fuel the queue is emptied, and the edges of what was taken end in nodes that
have been taken. -/
theorem run_closed (hU : ∀ b ∉ U, succ b = []) :
    ∀ (fuel : Nat) (queue visited : List α), queue.Nodup → (∀ a ∈ queue, a ∈ visited) →
      queue.length + edgesLeft succ U queue visited ≤ fuel →
      (∀ a ∈ queue, a ∈ run succ fuel queue visited) ∧
      ∀ a ∈ run succ fuel queue visited, ∀ b ∈ succ a,
        b ∈ run succ fuel queue visited ∨ (b ∈ visited ∧ b ∉ queue) := by
  intro fuel
  induction fuel with
  | zero =>
    intro queue visited _ _ hfuel
    have hq : queue = [] := List.length_eq_zero_iff.mp (by omega)
    subst hq
    simp [run]
  | succ fuel ih =>
    intro queue visited hqn hqv hfuel
    cases queue with
    | nil => simp [run]
    | cons cur queue =>
      obtain ⟨new, heq, hnd, hnew, hl, hlen⟩ := foldl_push (succ cur) queue visited
      have hstep := edgesLeft_step hU (hqv cur (by simp)) hqn fun x hx => (hnew x hx).1
      rw [List.length_cons] at hfuel
      obtain ⟨ihq, ihc⟩ := ih (queue ++ new) (visited ++ new)
        (List.nodup_append.mpr ⟨(List.nodup_cons.mp hqn).2, hnd, fun x hx y hy hxy =>
          (hnew y hy).1 (hxy ▸ hqv x (by simp [hx]))⟩)
        (by
          intro a ha
          obtain ha | ha := List.mem_append.mp ha
          · exact List.mem_append_left _ (hqv a (by simp [ha]))
          · exact List.mem_append_right _ ha)
        (by
          rw [List.length_append]
          omega)
      have hrun : run succ (fuel + 1) (cur :: queue) visited =
          cur :: run succ fuel (queue ++ new) (visited ++ new) := by
        rw [run, heq]
      rw [hrun]
      refine ⟨?_, ?_⟩
      · intro a ha
        obtain rfl | ha := List.mem_cons.mp ha
        · simp
        · exact List.mem_cons_of_mem _ (ihq a (by simp [ha]))
      · -- a node that was visited before is taken now, later, or has been
        have hvisited : ∀ b, b ∈ visited ++ new →
            b ∈ cur :: run succ fuel (queue ++ new) (visited ++ new) ∨
              (b ∈ visited ∧ b ∉ cur :: queue) := by
          intro b hb
          by_cases hbq : b ∈ cur :: queue ++ new
          · refine .inl ?_
            rw [List.cons_append] at hbq
            obtain rfl | hbq := List.mem_cons.mp hbq
            · simp
            · exact List.mem_cons_of_mem _ (ihq b hbq)
          · have hbn : b ∉ new := fun h => hbq (List.mem_append_right _ h)
            have hbv : b ∈ visited := (List.mem_append.mp hb).resolve_right hbn
            exact .inr ⟨hbv, fun h => hbq (List.mem_append_left _ h)⟩
        intro a ha b hb
        obtain rfl | ha := List.mem_cons.mp ha
        · exact hvisited b (hl b hb)
        · obtain h | ⟨h, -⟩ := ihc a ha b hb
          · exact .inl (List.mem_cons_of_mem _ h)
          · exact hvisited b h

theorem mem_run_of_reach (hU : ∀ b ∉ U, succ b = []) {fuel : Nat}
    (hfuel : 1 + ∑ b ∈ U, (succ b).length ≤ fuel) {a b : α}
    (h : ReflTransGen (fun x y => y ∈ succ x) a b) : b ∈ run succ fuel [a] [a] := by
  have hleft : edgesLeft succ U [a] [a] ≤ ∑ b ∈ U, (succ b).length :=
    Finset.sum_le_sum_of_subset (Finset.filter_subset _ _)
  obtain ⟨hq, hc⟩ := run_closed hU fuel [a] [a] (List.nodup_singleton a) (by simp)
    (by rw [List.length_singleton]; omega)
  induction h with
  | refl => exact hq a (by simp)
  | tail _ hbc ih =>
    obtain h | ⟨hv, hn⟩ := hc _ ih _ hbc
    · exact h
    · exact absurd hv hn

end Complete

end Bfs
