import Mathlib.Algebra.BigOperators.Ring.List
import Mathlib.Tactic.Linarith
import Mathlib.Tactic.Ring

/-!
# Flow through a graph without cycles

Each node passes its flow on to its parents in equal parts, in an order in which a node comes before its
parents. What arrives at a node is the share of the walks up the graph that come by there, so all of it
arrives exactly at the nodes that are on every path.
-/

namespace Flow

variable {α : Type}

/-- No repetitions, and a node comes before its parents. -/
inductive Upward (parents : α → List α) : List α → Prop where
  | nil : Upward parents []
  | cons {a : α} {order : List α} (ha : a ∉ order) (hparents : ∀ p ∈ parents a, p ∈ order)
    (h : Upward parents order) : Upward parents (a :: order)

/-- The path from a node without parents down to `a`, from its end -/
inductive Path (parents : α → List α) : α → List α → Prop where
  | root {a : α} (h : parents a = []) : Path parents a [a]
  | step {a p : α} {path : List α} (hp : p ∈ parents a) (h : Path parents p path) : Path parents a (a :: path)

def OnEveryPath (parents : α → List α) (v a : α) : Prop := ∀ path, Path parents a path → v ∈ path

variable {parents : α → List α} {order : List α} {a v : α}

theorem onEveryPath_self (v : α) : OnEveryPath parents v v := by
  intro path h
  cases h with
  | root | step => exact List.mem_cons_self

theorem not_onEveryPath_root (h : parents a = []) (hv : v ≠ a) : ¬ OnEveryPath parents v a := fun hall =>
  hv (List.mem_singleton.mp (hall [a] (.root h)))

theorem onEveryPath_step (h : parents a ≠ []) (hv : v ≠ a) :
    OnEveryPath parents v a ↔ ∀ p ∈ parents a, OnEveryPath parents v p := by
  constructor
  · intro hall p hp path hpath
    exact (List.mem_cons.mp (hall _ (.step hp hpath))).resolve_left hv
  · intro hall path hpath
    cases hpath with
    | root hroot => exact absurd hroot h
    | step hp hpath => exact List.mem_cons_of_mem _ (hall _ hp _ hpath)

theorem Upward.nodup (h : Upward parents order) : order.Nodup := by
  induction h with
  | nil => exact List.nodup_nil
  | cons ha _ _ ih => exact List.nodup_cons.mpr ⟨ha, ih⟩

/-- An average of numbers up to one is one when all of them are. -/
theorem sum_eq_length_iff {l : List α} {f : α → ℚ} (h : ∀ p ∈ l, 0 ≤ f p ∧ f p ≤ 1) :
    (0 ≤ (l.map f).sum ∧ (l.map f).sum ≤ l.length) ∧ ((l.map f).sum = l.length ↔ ∀ p ∈ l, f p = 1) := by
  induction l with
  | nil => simp
  | cons p l ih =>
    obtain ⟨⟨hnonneg, hle⟩, heq⟩ := ih fun q hq => h q (List.mem_cons_of_mem p hq)
    obtain ⟨hp, hp1⟩ := h p List.mem_cons_self
    rw [List.map_cons, List.sum_cons, List.length_cons, List.forall_mem_cons, ← heq]
    push_cast
    refine ⟨⟨by linarith, by linarith⟩, fun hsum => ⟨by linarith, by linarith⟩, fun ⟨h1, h2⟩ => by linarith⟩

variable [DecidableEq α]

/-- `a` passes its flow on. -/
def divide (parents : α → List α) (flow : α → ℚ) (a : α) : α → ℚ :=
  let divided := flow a / (parents a).length
  (parents a).foldl (fun flow p => Function.update flow p (flow p + divided)) flow

def spread (parents : α → List α) (order : List α) (flow : α → ℚ) : α → ℚ := order.foldl (divide parents) flow

/-- The share of the walks up from a node of `order` that come by `v` -/
def share (parents : α → List α) (v : α) : List α → α → ℚ
  | [] => 0
  | a :: order =>
    let share := share parents v order
    Function.update share a (if a = v then 1 else ((parents a).map share).sum / (parents a).length)

/-! ## Sums -/

theorem foldl_update (l : List α) (flow : α → ℚ) (d : ℚ) (u : α) :
    l.foldl (fun flow p => Function.update flow p (flow p + d)) flow u = flow u + l.count u * d := by
  induction l generalizing flow with
  | nil => simp
  | cons p l ih =>
    rw [List.foldl_cons, ih, List.count_cons]
    by_cases hu : u = p
    · subst hu
      simp only [Function.update_self, BEq.rfl, if_true]
      push_cast
      ring
    · rw [Function.update_of_ne hu, if_neg (by simpa using Ne.symm hu), Nat.add_zero]

theorem divide_apply (flow : α → ℚ) (a u : α) :
    divide parents flow a u = flow u + (parents a).count u * (flow a / (parents a).length) :=
  foldl_update _ flow _ u

theorem sum_count (l : List α) (hl : l.Nodup) {m : List α} (hm : ∀ p ∈ m, p ∈ l) (f : α → ℚ) :
    (l.map fun u => (m.count u : ℚ) * f u).sum = (m.map f).sum := by
  induction m with
  | nil => simp
  | cons p m ih =>
    have hone : (l.map fun u => if p = u then f u else 0).sum = f p := by
      have hp := hm p List.mem_cons_self
      clear ih hm
      induction l with
      | nil => cases hp
      | cons x l ih =>
        obtain ⟨hx, hl⟩ := List.nodup_cons.mp hl
        rw [List.map_cons, List.sum_cons]
        obtain rfl | hp := List.mem_cons.mp hp
        · rw [if_pos rfl, List.sum_eq_zero, add_zero]
          intro y hy
          obtain ⟨u, hu, rfl⟩ := List.mem_map.mp hy
          exact if_neg fun h : p = u => hx (h ▸ hu)
        · rw [if_neg fun h : p = x => hx (h ▸ hp), zero_add, ih hl hp]
    rw [List.map_cons, List.sum_cons, ← ih fun q hq => hm q (List.mem_cons_of_mem p hq), ← hone,
      ← List.sum_map_add]
    refine congrArg List.sum (List.map_congr_left fun u _ => ?_)
    rw [List.count_cons]
    by_cases hu : p = u
    · simp only [hu, BEq.rfl, if_true]
      push_cast
      ring
    · simp [hu]

/-! ## Shares -/

theorem share_cons_of_ne {u : α} (h : u ≠ a) : share parents v (a :: order) u = share parents v order u :=
  Function.update_of_ne h _ _

theorem share_cons_self : share parents v (a :: order) a =
    if a = v then 1 else ((parents a).map (share parents v order)).sum / (parents a).length :=
  Function.update_self _ _ _

theorem share_eq_zero (hv : v ∉ order) (u : α) : share parents v order u = 0 := by
  induction order generalizing u with
  | nil => rfl
  | cons a order ih =>
    obtain ⟨hne, hv'⟩ := List.ne_and_not_mem_of_not_mem_cons hv
    by_cases hu : u = a
    · subst hu
      have hsum : ((parents u).map (share parents v order)).sum = 0 :=
        List.sum_eq_zero fun x hx => by
          obtain ⟨p, -, rfl⟩ := List.mem_map.mp hx
          exact ih hv' p
      rw [share_cons_self, if_neg hne.symm, hsum, zero_div]
    · rw [share_cons_of_ne hu, ih hv']

theorem share_spec (h : Upward parents order) (v : α) : ∀ u ∈ order,
    (0 ≤ share parents v order u ∧ share parents v order u ≤ 1) ∧
      (share parents v order u = 1 ↔ OnEveryPath parents v u) := by
  induction h with
  | nil => exact fun u hu => absurd hu List.not_mem_nil
  | @cons a order ha hparents _ ih =>
    intro u hu
    obtain rfl | hu := List.mem_cons.mp hu
    · rw [share_cons_self]
      by_cases huv : u = v
      · subst huv
        rw [if_pos rfl]
        exact ⟨⟨zero_le_one, le_rfl⟩, iff_of_true rfl (onEveryPath_self u)⟩
      rw [if_neg huv]
      by_cases hroot : parents u = []
      · rw [hroot, List.map_nil, List.sum_nil, zero_div]
        exact ⟨⟨le_rfl, zero_le_one⟩, iff_of_false zero_ne_one (not_onEveryPath_root hroot (Ne.symm huv))⟩
      have hsum := sum_eq_length_iff fun p hp => (ih p (hparents p hp)).1
      have hlen : (0 : ℚ) < (parents u).length := by exact_mod_cast List.length_pos_iff.mpr hroot
      refine ⟨⟨div_nonneg hsum.1.1 hlen.le, (div_le_one₀ hlen).mpr hsum.1.2⟩, ?_⟩
      rw [div_eq_one_iff_eq hlen.ne', hsum.2, onEveryPath_step hroot (Ne.symm huv)]
      exact forall₂_congr fun p hp => (ih p (hparents p hp)).2
    · rw [share_cons_of_ne fun h : u = a => ha (h ▸ hu)]
      exact ih u hu

/-- What arrives at `v`: the shares of what starts at the nodes -/
theorem spread_eq (h : Upward parents order) (v : α) (flow : α → ℚ) :
    spread parents order flow v =
      (order.map fun u => flow u * share parents v order u).sum + if v ∈ order then 0 else flow v := by
  induction h generalizing flow with
  | nil => simp [spread]
  | @cons a order ha hparents h ih =>
    have hrest : order.map (fun u => flow u * share parents v (a :: order) u) =
        order.map fun u => flow u * share parents v order u :=
      List.map_congr_left fun u hu => by rw [share_cons_of_ne fun h : u = a => ha (h ▸ hu)]
    have hpassed : (order.map fun u => divide parents flow a u * share parents v order u).sum =
        (order.map fun u => flow u * share parents v order u).sum +
          flow a / (parents a).length * ((parents a).map (share parents v order)).sum := by
      rw [← sum_count order h.nodup hparents, ← List.sum_map_mul_left, ← List.sum_map_add]
      refine congrArg List.sum (List.map_congr_left fun u _ => ?_)
      rw [divide_apply]
      ring
    have hkept : v ∉ order → divide parents flow a v = flow v := fun hv => by
      rw [divide_apply, List.count_eq_zero_of_not_mem fun hp => hv (hparents v hp), Nat.cast_zero, zero_mul, add_zero]
    show spread parents order (divide parents flow a) v = _
    rw [ih, hpassed, List.map_cons, List.sum_cons, hrest, share_cons_self]
    by_cases hav : a = v
    · subst hav
      have hzero : ((parents a).map (share parents a order)).sum = 0 :=
        List.sum_eq_zero fun x hx => by
          obtain ⟨p, -, rfl⟩ := List.mem_map.mp hx
          exact share_eq_zero ha p
      rw [if_pos rfl, if_neg ha, hkept ha, hzero, if_pos List.mem_cons_self]
      ring
    · rw [if_neg hav]
      by_cases hv : v ∈ order
      · rw [if_pos hv, if_pos (List.mem_cons_of_mem a hv)]
        ring
      · rw [if_neg hv, if_neg (by simp [hv, Ne.symm hav]), hkept hv]
        ring

/-- Nothing arrives at a node that is no parent. -/
theorem spread_of_no_parent (hv : ∀ u ∈ order, v ∉ parents u) (flow : α → ℚ) :
    spread parents order flow v = flow v := by
  induction order generalizing flow with
  | nil => rfl
  | cons a order ih =>
    show spread parents order (divide parents flow a) v = _
    rw [ih fun u hu => hv u (List.mem_cons_of_mem a hu), divide_apply,
      List.count_eq_zero_of_not_mem (hv a List.mem_cons_self), Nat.cast_zero, zero_mul, add_zero]

end Flow
