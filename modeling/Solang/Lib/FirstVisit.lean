import Mathlib

/-!
# Weights at the first visit

A depth-first walk of a graph whose nodes have weights and whose edges have multipliers, where a
node counts when it is met for the first time only. The total of several walks, each with marks of
its own, is that of one walk over all of them when no node with a weight is met in two of them.
-/

namespace FirstVisit

open Relation

variable {α : Type} {own : α → ℕ} {children : α → List (ℕ × α)} {es es' : List (ℕ × α)} {V V' W : Set α}
  {m m' k : ℕ} {a b : α}

/-- The walk along the edges from the marks `V`: its total is `m`, and its marks after it are `V'`. -/
inductive Visits (own : α → ℕ) (children : α → List (ℕ × α)) :
    List (ℕ × α) → Set α → ℕ → Set α → Prop where
  | nil (V : Set α) : Visits own children [] V 0 V
  | skip {k m : ℕ} {a : α} {es : List (ℕ × α)} {V V' : Set α} : a ∈ V → Visits own children es V m V' →
      Visits own children ((k, a) :: es) V m V'
  | visit {k c m : ℕ} {a : α} {es : List (ℕ × α)} {V V₁ V' : Set α} : a ∉ V →
      Visits own children (children a) (insert a V) c V₁ → Visits own children es V₁ m V' →
      Visits own children ((k, a) :: es) V (k * (own a + c) + m) V'

def Child (children : α → List (ℕ × α)) (a b : α) : Prop := ∃ k, (k, b) ∈ children a

/-- The nodes that edges lead to -/
def Reached (children : α → List (ℕ × α)) (es : List (ℕ × α)) (b : α) : Prop :=
  ∃ e ∈ es, ReflTransGen (Child children) e.2 b

theorem Reached.tail (h : Reached children es a) (hb : ReflTransGen (Child children) a b) :
    Reached children es b := by
  obtain ⟨e, he, ha⟩ := h
  exact ⟨e, he, ha.trans hb⟩

theorem Reached.mono (h : Reached children es a) (hes : es ⊆ es') : Reached children es' a := by
  obtain ⟨e, he, ha⟩ := h
  exact ⟨e, hes he, ha⟩

theorem Reached.of_children (h : Reached children (children a) b) : ReflTransGen (Child children) a b := by
  obtain ⟨e, he, hb⟩ := h
  exact .head ⟨e.1, he⟩ hb

theorem reached_append : Reached children (es ++ es') a ↔ Reached children es a ∨ Reached children es' a := by
  constructor
  · rintro ⟨e, he, ha⟩
    exact (List.mem_append.mp he).imp (fun h => ⟨e, h, ha⟩) fun h => ⟨e, h, ha⟩
  · rintro (h | h)
    · exact h.mono (List.subset_append_left _ _)
    · exact h.mono (List.subset_append_right _ _)

namespace Visits

theorem append (h : Visits own children es V m V') (h' : Visits own children es' V' m' W) :
    Visits own children (es ++ es') V (m + m') W := by
  induction h with
  | nil => rwa [Nat.zero_add]
  | skip ha _ ih => exact .skip ha (ih h')
  | visit ha hc _ _ ih =>
    rw [Nat.add_assoc]
    exact .visit ha hc (ih h')

theorem of_append (h : Visits own children (es ++ es') V m W) :
    ∃ m₁ m₂ V', m = m₁ + m₂ ∧ Visits own children es V m₁ V' ∧ Visits own children es' V' m₂ W := by
  induction es generalizing V m with
  | nil => exact ⟨0, m, V, (Nat.zero_add m).symm, .nil V, h⟩
  | cons e es ih =>
    cases h with
    | skip ha h =>
      obtain ⟨m₁, m₂, V', hm, h₁, h₂⟩ := ih h
      exact ⟨m₁, m₂, V', hm, .skip ha h₁, h₂⟩
    | visit ha hc h =>
      obtain ⟨m₁, m₂, V', rfl, h₁, h₂⟩ := ih h
      exact ⟨_, m₂, V', (Nat.add_assoc _ _ _).symm, .visit ha hc h₁, h₂⟩

theorem scale (k : ℕ) (h : Visits own children es V m V') :
    Visits own children (es.map fun e => (k * e.1, e.2)) V (k * m) V' := by
  induction h with
  | nil => exact .nil _
  | skip ha _ ih => exact .skip ha ih
  | visit ha hc _ _ ih =>
    rw [Nat.mul_add, ← Nat.mul_assoc]
    exact .visit ha hc ih

theorem subset (h : Visits own children es V m V') : V ⊆ V' := by
  induction h with
  | nil => exact subset_rfl
  | skip _ _ ih => exact ih
  | visit _ _ _ ihc ih => exact (Set.subset_insert _ _).trans (ihc.trans ih)

/-- What is new has been reached. -/
theorem reached (h : Visits own children es V m V') (hb : b ∈ V') (hnew : b ∉ V) : Reached children es b := by
  induction h with
  | nil => exact absurd hb hnew
  | skip _ _ ih => exact (ih hb hnew).mono (List.subset_cons_self _ _)
  | @visit k c m a es V V₁ V' _ _ _ ihc ih =>
    by_cases hb₁ : b ∈ V₁
    · refine ⟨(k, a), List.mem_cons_self, ?_⟩
      by_cases hba : b = a
      · rw [hba]
      · exact (ihc hb₁ fun h => h.elim hba hnew).of_children
    · exact (ih hb hb₁).mono (List.subset_cons_self _ _)

/-- The marks after the walk are closed: the edges lead to them, and those of what is new. -/
theorem closed (h : Visits own children es V m V') :
    (∀ e ∈ es, e.2 ∈ V') ∧ ∀ a ∈ V', a ∉ V → ∀ b, Child children a b → b ∈ V' := by
  induction h with
  | nil => exact ⟨fun e he => absurd he List.not_mem_nil, fun a ha hnew => absurd ha hnew⟩
  | skip ha h ih =>
    refine ⟨fun e he => ?_, ih.2⟩
    rcases List.mem_cons.mp he with rfl | he
    · exact h.subset ha
    · exact ih.1 e he
  | @visit k c m a es V V₁ V' _ hc h ihc ih =>
    have ha : a ∈ V₁ := hc.subset (Set.mem_insert _ _)
    constructor
    · intro e he
      rcases List.mem_cons.mp he with rfl | he
      · exact h.subset ha
      · exact ih.1 e he
    · intro x hx hnew b hb
      by_cases hx₁ : x ∈ V₁
      · by_cases hxa : x = a
        · obtain ⟨k', hk'⟩ := hb
          exact h.subset (ihc.1 (k', b) (hxa ▸ hk'))
        · exact h.subset (ihc.2 x hx₁ (fun h => h.elim hxa hnew) b hb)
      · exact ih.2 x hx hx₁ b hb

/-- Without marks before it, the walk meets what the edges lead to. -/
theorem eq_reached (h : Visits own children es ∅ m V') : V' = {b | Reached children es b} := by
  ext b
  refine ⟨fun hb => h.reached hb (Set.notMem_empty b), ?_⟩
  rintro ⟨e, he, hb⟩
  induction hb with
  | refl => exact h.closed.1 e he
  | tail _ hstep ih => exact h.closed.2 _ ih (Set.notMem_empty _) _ hstep

/-- Multipliers are positive. -/
def Positive (children : α → List (ℕ × α)) (es : List (ℕ × α)) : Prop :=
  (∀ e ∈ es, 0 < e.1) ∧ ∀ a, ∀ e ∈ children a, 0 < e.1

theorem Positive.tail {e : ℕ × α} (h : Positive children (e :: es)) : Positive children es :=
  ⟨fun e he => h.1 e (List.mem_cons_of_mem _ he), h.2⟩

theorem Positive.below (h : Positive children es) (a : α) : Positive children (children a) := ⟨h.2 a, h.2⟩

theorem eq_zero_iff (h : Visits own children es V m V') (hpos : Positive children es) :
    m = 0 ↔ ∀ a ∈ V', a ∉ V → own a = 0 := by
  induction h with
  | nil => exact ⟨fun _ a ha hnew => absurd ha hnew, fun _ => rfl⟩
  | skip _ _ ih => exact ih hpos.tail
  | @visit k c m a es V V₁ V' ha hc h ihc ih =>
    have hk : k ≠ 0 := Nat.pos_iff_ne_zero.mp (hpos.1 (k, a) List.mem_cons_self)
    rw [Nat.add_eq_zero_iff, Nat.mul_eq_zero, or_iff_right hk, Nat.add_eq_zero_iff, ihc (hpos.below a),
      ih hpos.tail]
    have haV : a ∈ V₁ := hc.subset (Set.mem_insert _ _)
    constructor
    · rintro ⟨⟨hown, hc0⟩, h0⟩ x hx hnew
      by_cases hx₁ : x ∈ V₁
      · by_cases hxa : x = a
        · rw [hxa, hown]
        · exact hc0 x hx₁ fun hmem => hmem.elim hxa hnew
      · exact h0 x hx hx₁
    · intro h0
      refine ⟨⟨h0 a (h.subset haV) ha, fun x hx hnew => ?_⟩, fun x hx hnew => ?_⟩
      · exact h0 x (h.subset hx) fun hV => hnew (Set.mem_insert_of_mem _ hV)
      · exact h0 x hx fun hV => hnew (hc.subset (Set.mem_insert_of_mem _ hV))

end Visits

/-- What the marks lead to is marked, as far as the edges lead to it. -/
def ClosedFor (children : α → List (ℕ × α)) (es : List (ℕ × α)) (V : Set α) : Prop :=
  ∀ a ∈ V, Reached children es a → ∀ b, ReflTransGen (Child children) a b → b ∈ V

theorem ClosedFor.mono (h : ClosedFor children es V) (hes : ∀ a, Reached children es' a → Reached children es a) :
    ClosedFor children es' V :=
  fun a ha hreached => h a ha (hes a hreached)

/-- More marks lower the total by what is not counted any more. -/
theorem Visits.compare {W' U' : Set α} {n : ℕ} (h : Visits own children es W n W')
    (h' : Visits own children es (V ∪ W) m U') (hclosed : ClosedFor children es V)
    (hpos : Visits.Positive children es) :
    U' = V ∪ W' ∧ m ≤ n ∧ (m = n ↔ ∀ a ∈ V, a ∈ W' → a ∉ W → own a = 0) := by
  induction h generalizing m U' with
  | nil W =>
    cases h'
    exact ⟨rfl, le_rfl, fun _ a _ ha hnew => absurd ha hnew, fun _ => rfl⟩
  | @skip k n a es W W' ha h ih =>
    cases h' with
    | skip _ h' => exact ih h' (hclosed.mono fun b hb => hb.mono (List.subset_cons_self _ _)) hpos.tail
    | visit hna => exact absurd (Or.inr ha) hna
  | @visit k c n a es W W₁ W' ha hc h ihc ih =>
    have hk : 0 < k := hpos.1 (k, a) List.mem_cons_self
    have htail : ClosedFor children es V := hclosed.mono fun b hb => hb.mono (List.subset_cons_self _ _)
    have haW : a ∈ W₁ := hc.subset (Set.mem_insert _ _)
    have hreach : Reached children ((k, a) :: es) a := ⟨(k, a), List.mem_cons_self, .refl⟩
    cases h' with
    | skip hmem h' =>
      have haV : a ∈ V := hmem.resolve_right ha
      -- everything below `a` is marked already
      have hbelow : ∀ x ∈ W₁, x ∉ W → x ∈ V := by
        intro x hx hnew
        by_cases hxa : x = a
        · rwa [hxa]
        · exact hclosed a haV hreach x (hc.reached hx fun h => h.elim hxa hnew).of_children
      have hunion : V ∪ W = V ∪ W₁ := by
        ext x
        refine ⟨Or.imp id fun hx => hc.subset (Set.mem_insert_of_mem _ hx), ?_⟩
        rintro (hx | hx)
        · exact .inl hx
        · exact or_iff_not_imp_right.mpr (hbelow x hx)
      rw [hunion] at h'
      obtain ⟨hU, hle, heq⟩ := ih h' htail hpos.tail
      refine ⟨hU, Nat.le_trans hle (Nat.le_add_left _ _), ?_⟩
      have hsplit : m = k * (own a + c) + n ↔ k * (own a + c) = 0 ∧ m = n := by omega
      rw [hsplit, heq, Nat.mul_eq_zero, or_iff_right hk.ne', Nat.add_eq_zero_iff,
        hc.eq_zero_iff (hpos.below a)]
      constructor
      · rintro ⟨⟨hown, hc0⟩, h0⟩ x hxV hx hnew
        by_cases hx₁ : x ∈ W₁
        · by_cases hxa : x = a
          · rw [hxa, hown]
          · exact hc0 x hx₁ fun hmem => hmem.elim hxa hnew
        · exact h0 x hxV hx hx₁
      · intro h0
        refine ⟨⟨h0 a haV (h.subset haW) ha, fun x hx hnew => ?_⟩, fun x hxV hx hnew => ?_⟩
        · have hxW : x ∉ W := fun hW => hnew (Set.mem_insert_of_mem _ hW)
          exact h0 x (hbelow x hx hxW) (h.subset hx) hxW
        · exact h0 x hxV hx fun hW => hnew (hc.subset (Set.mem_insert_of_mem _ hW))
    | @visit _ c' m' _ _ _ U₁ _ hna hc' h' =>
      have hinsert : insert a (V ∪ W) = V ∪ insert a W := Set.union_insert.symm
      rw [hinsert] at hc'
      have hbelow : ClosedFor children (children a) V := hclosed.mono fun b hb => hreach.tail hb.of_children
      obtain ⟨hU₁, hle₁, heq₁⟩ := ihc hc' hbelow (hpos.below a)
      rw [hU₁] at h'
      obtain ⟨hU, hle, heq⟩ := ih h' htail hpos.tail
      have hmul : k * (own a + c') ≤ k * (own a + c) := Nat.mul_le_mul_left k (Nat.add_le_add_left hle₁ _)
      refine ⟨hU, Nat.add_le_add hmul hle, ?_⟩
      have hsplit : k * (own a + c') + m' = k * (own a + c) + n ↔ c' = c ∧ m' = n := by
        constructor
        · intro hsum
          have hmul' : k * (own a + c') = k * (own a + c) := by omega
          exact ⟨Nat.add_left_cancel (Nat.eq_of_mul_eq_mul_left hk hmul'), by omega⟩
        · rintro ⟨rfl, rfl⟩
          rfl
      rw [hsplit, heq₁, heq]
      constructor
      · rintro ⟨h₁, h₂⟩ x hxV hx hnew
        by_cases hx₁ : x ∈ W₁
        · refine h₁ x hxV hx₁ fun hmem => hmem.elim (fun hxa => ?_) hnew
          exact hna (.inl (hxa ▸ hxV))
        · exact h₂ x hxV hx hx₁
      · intro h0
        refine ⟨fun x hxV hx hnew => ?_, fun x hxV hx hnew => ?_⟩
        · exact h0 x hxV (h.subset hx) fun hW => hnew (Set.mem_insert_of_mem _ hW)
        · exact h0 x hxV hx fun hW => hnew (hc.subset (Set.mem_insert_of_mem _ hW))

/-- One walk over several lists of edges, and a walk for each of them -/
theorem Visits.flatten_le {blocks : List (List (ℕ × α))} {ns : List ℕ}
    (h : Visits own children blocks.flatten V m V') (hclosed : ClosedFor children blocks.flatten V)
    (hpos : Visits.Positive children blocks.flatten)
    (hns : List.Forall₂ (fun es n => ∃ W, Visits own children es ∅ n W) blocks ns) :
    m ≤ ns.sum ∧ (m = ns.sum ↔
      (∀ a ∈ V, Reached children blocks.flatten a → own a = 0) ∧
        blocks.Pairwise fun es es' => ∀ a, Reached children es a → Reached children es' a → own a = 0) := by
  induction hns generalizing V m with
  | nil =>
    cases h
    refine ⟨le_rfl, fun _ => ⟨fun a _ hreached => ?_, .nil⟩, fun _ => rfl⟩
    obtain ⟨e, he, -⟩ := hreached
    exact absurd he List.not_mem_nil
  | @cons es n blocks ns hn hns ih =>
    rw [List.flatten_cons] at h hclosed hpos
    obtain ⟨W, hn⟩ := hn
    obtain ⟨m₁, m₂, V₁, rfl, h₁, h₂⟩ := h.of_append
    have hpos₁ : Visits.Positive children es := ⟨fun e he => hpos.1 e (List.mem_append_left _ he), hpos.2⟩
    have hpos₂ : Visits.Positive children blocks.flatten := ⟨fun e he => hpos.1 e (List.mem_append_right _ he), hpos.2⟩
    rw [← Set.union_empty V] at h₁
    obtain ⟨hV₁, hle₁, heq₁⟩ := hn.compare h₁ (hclosed.mono fun a ha => reached_append.mpr (.inl ha)) hpos₁
    rw [hn.eq_reached] at hV₁ heq₁
    have hclosed₂ : ClosedFor children blocks.flatten V₁ := by
      intro a ha hreached b hb
      rw [hV₁] at ha ⊢
      rcases ha with ha | ha
      · exact .inl (hclosed a ha (reached_append.mpr (.inr hreached)) b hb)
      · exact .inr (ha.tail hb)
    obtain ⟨hle₂, heq₂⟩ := ih h₂ hclosed₂ hpos₂
    rw [List.sum_cons]
    refine ⟨Nat.add_le_add hle₁ hle₂, ?_⟩
    have hsplit : m₁ + m₂ = n + ns.sum ↔ m₁ = n ∧ m₂ = ns.sum := by omega
    rw [hsplit, heq₁, heq₂, hV₁, List.pairwise_cons]
    simp only [List.flatten_cons, reached_append, Set.mem_union, Set.mem_ofPred_eq, Set.mem_empty_iff_false,
      not_false_eq_true, forall_const]
    have hblocks : (∀ a, Reached children es a → Reached children blocks.flatten a → own a = 0) ↔
        ∀ es' ∈ blocks, ∀ a, Reached children es a → Reached children es' a → own a = 0 := by
      constructor
      · exact fun h es' hes' a ha ha' => h a ha (ha'.mono fun e he => List.mem_flatten.mpr ⟨es', hes', he⟩)
      · rintro h a ha ⟨e, he, hreach⟩
        obtain ⟨es', hes', he'⟩ := List.mem_flatten.mp he
        exact h es' hes' a ha ⟨e, he', hreach⟩
    rw [← hblocks]
    constructor
    · rintro ⟨h₁, h₂, h₃⟩
      exact ⟨fun a ha hreached => hreached.elim (h₁ a ha) (h₂ a (.inl ha)),
        fun a ha hreached => h₂ a (.inr ha) hreached, h₃⟩
    · rintro ⟨h₁, h₂, h₃⟩
      refine ⟨fun a ha hreached => h₁ a ha (.inl hreached), fun a ha hreached => ?_, h₃⟩
      exact ha.elim (fun ha => h₁ a ha (.inr hreached)) fun ha => h₂ a ha hreached

end FirstVisit
