import Solang.Lib.Fuel
import Mathlib.Order.WellFounded
import Mathlib.Data.Fintype.EquivFin

/-!
# Acyclic graphs and depth-first post-order

`Acyclic r`: no path of `r` returns to its start. An edge may be added to an
acyclic graph when its end does not lead back to its start.

`visit succ fuel a order` walks the graph of `succ` depth first from `a` and
appends what is not in `order` yet once its successors are. The walk keeps no
marks; it is `none` when `fuel` does not suffice, which on an acyclic graph
happens only for small `fuel`.
-/

namespace PostOrder

open Relation Fuel

section Acyclic

variable {α : Type} {r r' : α → α → Prop} {a b c : α}

def Acyclic (r : α → α → Prop) : Prop := ∀ a, ¬ TransGen r a a

/-- Paths after adding the edge from `c` to `b`. -/
theorem transGen_insert (hr : ∀ x y, r' x y → r x y ∨ x = c ∧ y = b) (hbc : ¬ ReflTransGen r b c)
    {x y : α} (h : TransGen r' x y) :
    TransGen r x y ∨ ReflTransGen r x c ∧ ReflTransGen r b y := by
  induction h with
  | single h =>
    obtain h | ⟨rfl, rfl⟩ := hr _ _ h
    · exact .inl (.single h)
    · exact .inr ⟨.refl, .refl⟩
  | tail _ h ih =>
    obtain h | ⟨rfl, rfl⟩ := hr _ _ h
    · exact ih.imp (fun hx => hx.tail h) fun ⟨hx, hy⟩ => ⟨hx, hy.tail h⟩
    · obtain hx | ⟨-, hy⟩ := ih
      · exact .inr ⟨hx.to_reflTransGen, .refl⟩
      · exact absurd hy hbc

theorem Acyclic.insert (h : Acyclic r) (hr : ∀ x y, r' x y → r x y ∨ x = c ∧ y = b)
    (hbc : ¬ ReflTransGen r b c) : Acyclic r' := by
  intro a ha
  obtain ha | ⟨hac, hba⟩ := transGen_insert hr hbc ha
  · exact h a ha
  · exact hbc (hba.trans hac)

/-- On finitely many nodes, following edges of an acyclic graph comes to an end. -/
theorem Acyclic.wellFounded [Finite α] (h : Acyclic r) : WellFounded fun y x => r x y := by
  have htrans : IsTrans α (fun y x => TransGen r x y) := ⟨fun _ _ _ hxy hyz => hyz.trans hxy⟩
  have hirrefl : Std.Irrefl (fun y x => TransGen r x y) := ⟨fun x hx => h x hx⟩
  have hwf := Finite.wellFounded_of_trans_of_irrefl fun y x => TransGen r x y
  exact Subrelation.wf (fun h => TransGen.single h) hwf

end Acyclic

variable {α : Type} {succ : α → List α} {a : α} {order : List α}

/-- No repetitions, and the successors of a node come before it. -/
structure Ordered (succ : α → List α) (order : List α) : Prop where
  nodup : order.Nodup
  before : ∀ l x l', order = l ++ x :: l' → ∀ y ∈ succ x, y ∈ l

theorem ordered_nil : Ordered succ [] :=
  ⟨List.nodup_nil, fun l x l' h => by simp at h⟩

theorem Ordered.append (h : Ordered succ order) (ha : a ∉ order) (hs : ∀ b ∈ succ a, b ∈ order) :
    Ordered succ (order ++ [a]) where
  nodup := by
    refine List.nodup_append.mpr ⟨h.nodup, List.nodup_singleton a, fun x hx y hy hxy => ?_⟩
    rw [hxy, List.mem_singleton.mp hy] at hx
    exact ha hx
  before l x l' heq y hy := by
    rw [List.append_eq_append_iff] at heq
    obtain ⟨m, rfl, hm⟩ | ⟨m, rfl, hm⟩ := heq
    · cases m with
      | nil =>
        obtain ⟨rfl, -⟩ := List.cons.inj hm
        simpa using hs y hy
      | cons z m => simp at hm
    · cases m with
      | nil =>
        obtain ⟨rfl, -⟩ := List.cons.inj hm
        simpa using hs y hy
      | cons z m =>
        obtain ⟨rfl, rfl⟩ := List.cons.inj hm
        exact h.before l x m rfl y hy

theorem Ordered.mem_of_reach (h : Ordered succ order) {x y : α} (hx : x ∈ order)
    (hxy : ReflTransGen (fun x y => y ∈ succ x) x y) : y ∈ order := by
  induction hxy with
  | refl => exact hx
  | tail _ hyz ih =>
    obtain ⟨l, l', heq⟩ := List.append_of_mem ih
    rw [heq]
    exact List.mem_append_left _ (h.before l _ l' heq _ hyz)

/-- All a node leads to comes before it. -/
theorem Ordered.before_trans (h : Ordered succ order) {l l' : List α} {x y : α}
    (heq : order = l ++ x :: l') (hxy : TransGen (fun x y => y ∈ succ x) x y) : y ∈ l := by
  induction hxy with
  | single hy => exact h.before l x l' heq _ hy
  | tail _ hyz ih =>
    obtain ⟨m, m', rfl⟩ := List.append_of_mem ih
    refine List.mem_append_left _ (h.before m _ (m' ++ x :: l') ?_ _ hyz)
    rw [heq, List.append_assoc, List.cons_append]

/-- What a walk from the nodes `bs` adds to `order`. -/
structure Adds (succ : α → List α) (bs order order' : List α) : Prop where
  grows : order <+: order'
  ordered : Ordered succ order'
  visited : ∀ b ∈ bs, b ∈ order'
  reached : ∀ x ∈ order', x ∈ order ∨ ∃ b ∈ bs, ReflTransGen (fun x y => y ∈ succ x) b x

theorem Adds.cons {b : α} {bs order₁ order₂ : List α} (h : Adds succ [b] order order₁)
    (h' : Adds succ bs order₁ order₂) : Adds succ (b :: bs) order order₂ where
  grows := h.grows.trans h'.grows
  ordered := h'.ordered
  visited c hc := by
    obtain rfl | hc := List.mem_cons.mp hc
    · exact h'.grows.subset (h.visited c (List.mem_singleton_self c))
    · exact h'.visited c hc
  reached x hx := by
    obtain hx | ⟨c, hc, hcx⟩ := h'.reached x hx
    · refine (h.reached x hx).imp_right fun ⟨c, hc, hcx⟩ => ⟨c, ?_, hcx⟩
      exact List.mem_singleton.mp hc ▸ List.mem_cons_self
    · exact .inr ⟨c, List.mem_cons_of_mem b hc, hcx⟩

variable [DecidableEq α]

def visit (succ : α → List α) : Nat → α → List α → Option (List α)
  | 0, _, _ => none
  | fuel + 1, a, order => do
    let order ← (succ a).foldlM (fun order b => visit succ fuel b order) order
    pure (if a ∈ order then order else order ++ [a])

/-- A walk over a list of nodes, each of which can be walked. -/
theorem settles_walk (bs order : List α) (ho : Ordered succ order)
    (h : ∀ b ∈ bs, ∀ order, Ordered succ order →
      ∃ order', Adds succ [b] order order' ∧ Settles (fun fuel => visit succ fuel b order) order') :
    ∃ order', Adds succ bs order order' ∧
      Settles (fun fuel => bs.foldlM (fun order b => visit succ fuel b order) order) order' := by
  induction bs generalizing order with
  | nil =>
    refine ⟨order, ⟨List.prefix_refl _, ho, ?_, fun x hx => .inl hx⟩, settles_const order⟩
    intro b hb
    cases hb
  | cons b bs ih =>
    obtain ⟨order₁, hadd, h₁⟩ := h b List.mem_cons_self order ho
    obtain ⟨order₂, hadd', h₂⟩ := ih order₁ hadd.ordered fun c hc => h c (List.mem_cons_of_mem b hc)
    exact ⟨order₂, hadd.cons hadd', h₁.bind h₂⟩

/-- The walk from `a` comes to an end and adds `a` after everything `a` leads to. -/
theorem visit_adds (hwf : WellFounded fun y x => y ∈ succ x) (a : α) (order : List α)
    (ho : Ordered succ order) :
    ∃ order', Settles (fun fuel => visit succ fuel a order) order' ∧ Adds succ [a] order order' ∧
      (a ∉ order → order'.getLast? = some a) := by
  induction a using hwf.induction generalizing order with
  | _ a ih =>
    obtain ⟨order', hadd, hsettles⟩ := settles_walk (succ a) order ho fun b hb order ho => by
      obtain ⟨order', hs, hadd, -⟩ := ih b hb order ho
      exact ⟨order', hadd, hs⟩
    -- what the successors lead to is below `a`, so the walk does not come across `a`
    have hnew : a ∈ order' → a ∈ order := by
      intro ha
      obtain ha | ⟨b, hb, hba⟩ := hadd.reached a ha
      · exact ha
      · have hcycle : TransGen (fun x y => y ∈ succ x) a a := TransGen.head' hb hba
        exact absurd (transGen_swap.mpr hcycle) (hwf.transGen.irrefl.irrefl a)
    have hreach : ∀ x ∈ order', x ∈ order ∨ ∃ b ∈ [a], ReflTransGen (fun x y => y ∈ succ x) b x := by
      intro x hx
      refine (hadd.reached x hx).imp_right fun ⟨b, hb, hbx⟩ => ⟨a, List.mem_singleton_self a, ?_⟩
      exact ReflTransGen.head hb hbx
    refine ⟨if a ∈ order' then order' else order' ++ [a], ?_, ?_⟩
    · exact Settles.succ (hsettles.bind (settles_const _)) fun fuel => rfl
    by_cases ha : a ∈ order'
    · rw [if_pos ha]
      exact ⟨⟨hadd.grows, hadd.ordered, by simpa using ha, hreach⟩, fun hna => absurd (hnew ha) hna⟩
    · rw [if_neg ha]
      refine ⟨⟨hadd.grows.trans (List.prefix_append _ _), hadd.ordered.append ha hadd.visited,
        by simp, fun x hx => ?_⟩, fun _ => by simp⟩
      obtain hx | hx := List.mem_append.mp hx
      · exact hreach x hx
      · exact .inr ⟨a, List.mem_singleton_self a, List.mem_singleton.mp hx ▸ .refl⟩

/-- The walk from `a` lists exactly what `a` leads to, `a` itself last. -/
theorem visit_nil (hwf : WellFounded fun y x => y ∈ succ x) (a : α) :
    ∃ order, Settles (fun fuel => visit succ fuel a []) order ∧ Ordered succ order ∧
      order.getLast? = some a ∧
      ∀ b, b ∈ order ↔ ReflTransGen (fun x y => y ∈ succ x) a b := by
  obtain ⟨order, hs, hadd, hlast⟩ := visit_adds hwf a [] ordered_nil
  refine ⟨order, hs, hadd.ordered, hlast List.not_mem_nil, fun b => ⟨fun hb => ?_, fun hb => ?_⟩⟩
  · obtain hb | ⟨c, hc, hcb⟩ := hadd.reached b hb
    · cases hb
    · exact List.mem_singleton.mp hc ▸ hcb
  · exact hadd.ordered.mem_of_reach (hadd.visited a (List.mem_singleton_self a)) hb

end PostOrder
