import Mathlib.Data.List.Nodup
import Mathlib.Order.WellFounded

/-!
# Ways through a graph

A walk that follows every edge and keeps no marks comes to an edge once for every way that leads
there. `Way next es w`: the edges `w` follow each other from one of `es`. `Meets next marked es l`: the
walk from `es` comes to the marked edges `l`, in that order.
-/

namespace Ways

variable {E : Type} {next : E → List E} {marked : E → Prop} {es es' l w : List E} {d e : E}

inductive Way (next : E → List E) : List E → List E → Prop where
  | single {es : List E} {e : E} : e ∈ es → Way next es [e]
  | cons {es w : List E} {e : E} : e ∈ es → Way next (next e) w → Way next es (e :: w)

def Leads (next : E → List E) (es : List E) (e : E) : Prop := ∃ w, Way next es (w ++ [e])

/-- No marked edge is reached on two ways. -/
def OneWay (next : E → List E) (marked : E → Prop) (es : List E) : Prop :=
  ∀ e, marked e → ∀ w w', Way next es (w ++ [e]) → Way next es (w' ++ [e]) → w = w'

inductive Meets (next : E → List E) (marked : E → Prop) : List E → List E → Prop where
  | nil : Meets next marked [] []
  | skip {e : E} {es l l' : List E} : ¬ marked e → Meets next marked (next e) l → Meets next marked es l' →
      Meets next marked (e :: es) (l ++ l')
  | mark {e : E} {es l l' : List E} : marked e → Meets next marked (next e) l → Meets next marked es l' →
      Meets next marked (e :: es) (e :: l ++ l')

namespace Way

theorem mono (h : Way next es w) (hes : es ⊆ es') : Way next es' w := by
  cases h with
  | single he => exact .single (hes he)
  | cons he hw => exact .cons (hes he) hw

theorem head_mem (h : Way next es (e :: w)) : e ∈ es := by
  cases h with
  | single he | cons he _ => exact he

theorem tail (h : Way next es (e :: w)) (hw : w ≠ []) : Way next (next e) w := by
  cases h with
  | single _ => exact absurd rfl hw
  | cons _ hw => exact hw

/-- A way starts with the first of the edges, or with another. -/
theorem cons_append_iff : Way next (d :: es) (w ++ [e]) ↔
    w = [] ∧ e = d ∨ (∃ v, w = d :: v ∧ Way next (next d) (v ++ [e])) ∨ Way next es (w ++ [e]) := by
  constructor
  · intro h
    cases w with
    | nil =>
      obtain rfl | he := List.mem_cons.mp h.head_mem
      · exact .inl ⟨rfl, rfl⟩
      · exact .inr (.inr (.single he))
    | cons c v =>
      have hv := h.tail (by simp)
      obtain rfl | hc := List.mem_cons.mp h.head_mem
      · exact .inr (.inl ⟨v, rfl, hv⟩)
      · exact .inr (.inr (.cons hc hv))
  · rintro (⟨rfl, rfl⟩ | ⟨v, rfl, hv⟩ | hw)
    · exact .single List.mem_cons_self
    · exact .cons List.mem_cons_self hv
    · exact hw.mono (List.subset_cons_self d es)

/-- What holds of the first edges, and of those after an edge it holds of, holds all the way. -/
theorem forall_mem {P : E → Prop} (h : Way next es w) (hes : ∀ e ∈ es, P e)
    (hnext : ∀ e, P e → ∀ d ∈ next e, P d) : ∀ e ∈ w, P e := by
  induction h with
  | single he => exact List.forall_mem_singleton.mpr (hes _ he)
  | cons he _ ih => exact List.forall_mem_cons.mpr ⟨hes _ he, ih (hnext _ (hes _ he))⟩

end Way

theorem not_leads_nil : ¬ Leads next [] e := by
  rintro ⟨w, hw⟩
  cases w with
  | nil => exact absurd hw.head_mem List.not_mem_nil
  | cons d w => exact absurd hw.head_mem List.not_mem_nil

theorem leads_cons : Leads next (d :: es) e ↔ e = d ∨ Leads next (next d) e ∨ Leads next es e := by
  constructor
  · rintro ⟨w, hw⟩
    obtain ⟨-, he⟩ | ⟨v, -, hv⟩ | hw := Way.cons_append_iff.mp hw
    · exact .inl he
    · exact .inr (.inl ⟨v, hv⟩)
    · exact .inr (.inr ⟨w, hw⟩)
  · rintro (he | ⟨v, hv⟩ | ⟨w, hw⟩)
    · exact ⟨[], Way.cons_append_iff.mpr (.inl ⟨rfl, he⟩)⟩
    · exact ⟨d :: v, Way.cons_append_iff.mpr (.inr (.inl ⟨v, rfl, hv⟩))⟩
    · exact ⟨w, Way.cons_append_iff.mpr (.inr (.inr hw))⟩

theorem Leads.of_forall {P : E → Prop} (h : Leads next es e) (hes : ∀ e ∈ es, P e)
    (hnext : ∀ e, P e → ∀ d ∈ next e, P d) : P e := by
  obtain ⟨w, hw⟩ := h
  exact hw.forall_mem hes hnext e (List.mem_append_right w (List.mem_singleton_self e))

/-- There is one way only when there is one behind the first edge, one from the others, and what one
of these leads to the other does not. -/
theorem oneWay_cons (hd : d ∉ es) : OneWay next marked (d :: es) ↔
    OneWay next marked (next d) ∧ OneWay next marked es ∧
      (∀ e, marked e → Leads next (next d) e → ¬ Leads next es e) ∧
      (marked d → ¬ Leads next (next d) d ∧ ¬ Leads next es d) := by
  have hother : ∀ {v : List E} {e : E}, ¬ Way next es (d :: v ++ [e]) := fun h => hd h.head_mem
  constructor
  · intro h
    refine ⟨fun e he w w' hw hw' => ?_, fun e he w w' hw hw' => ?_, fun e he hl hl' => ?_,
      fun hm => ⟨?_, ?_⟩⟩
    · have heq := h e he (d :: w) (d :: w') (.cons List.mem_cons_self hw) (.cons List.mem_cons_self hw')
      exact (List.cons.inj heq).2
    · exact h e he w w' (hw.mono (List.subset_cons_self d es)) (hw'.mono (List.subset_cons_self d es))
    · obtain ⟨v, hv⟩ := hl
      obtain ⟨w, hw⟩ := hl'
      have heq := h e he (d :: v) w (.cons List.mem_cons_self hv) (hw.mono (List.subset_cons_self d es))
      subst heq
      exact hother hw
    · rintro ⟨v, hv⟩
      have heq := h d hm [] (d :: v) (.single List.mem_cons_self) (.cons List.mem_cons_self hv)
      cases heq
    · rintro ⟨w, hw⟩
      have heq := h d hm [] w (.single List.mem_cons_self) (hw.mono (List.subset_cons_self d es))
      subst heq
      exact hd hw.head_mem
  · rintro ⟨hnext, hes, hapart, hself⟩ e he w w' hw hw'
    -- by where each of the two ways starts
    obtain ⟨rfl, rfl⟩ | ⟨v, rfl, hv⟩ | hu := Way.cons_append_iff.mp hw <;>
      obtain ⟨rfl, heq⟩ | ⟨v', rfl, hv'⟩ | hu' := Way.cons_append_iff.mp hw'
    · rfl
    · exact absurd ⟨v', hv'⟩ (hself he).1
    · exact absurd ⟨w', hu'⟩ (hself he).2
    · subst heq
      exact absurd ⟨v, hv⟩ (hself he).1
    · rw [hnext e he v v' hv hv']
    · exact absurd ⟨w', hu'⟩ (hapart e he ⟨v, hv⟩)
    · subst heq
      exact absurd ⟨w, hu⟩ (hself he).2
    · exact absurd ⟨w, hu⟩ (hapart e he ⟨v', hv'⟩)
    · exact hes e he w w' hu hu'

namespace Meets

theorem marked_of_mem (h : Meets next marked es l) : ∀ e ∈ l, marked e := by
  induction h with
  | nil => exact List.forall_mem_nil _
  | skip _ _ _ ih ih' => exact List.forall_mem_append.mpr ⟨ih, ih'⟩
  | mark hd _ _ ih ih' => exact List.forall_mem_cons.mpr ⟨hd, List.forall_mem_append.mpr ⟨ih, ih'⟩⟩

/-- The walk comes to what some way leads to. -/
theorem mem_iff (h : Meets next marked es l) (he : marked e) : e ∈ l ↔ Leads next es e := by
  induction h with
  | nil => exact iff_of_false List.not_mem_nil not_leads_nil
  | @skip d es l l' hd _ _ ih ih' =>
    have hne : e ≠ d := by
      rintro rfl
      exact hd he
    rw [List.mem_append, leads_cons, ih, ih', or_iff_right hne]
  | mark _ _ _ ih ih' => rw [List.cons_append, List.mem_cons, List.mem_append, leads_cons, ih, ih']

/-- The walk comes to an edge twice when there are two ways to it. -/
theorem nodup_iff (h : Meets next marked es l) (hes : es.Nodup) (hnext : ∀ e, (next e).Nodup) :
    l.Nodup ↔ OneWay next marked es := by
  induction h with
  | nil =>
    refine iff_of_true List.nodup_nil fun e _ w w' hw _ => ?_
    exact absurd ⟨w, hw⟩ not_leads_nil
  | @skip d es l l' hd h h' ih ih' =>
    obtain ⟨hnot, hes⟩ := List.nodup_cons.mp hes
    rw [List.nodup_append', oneWay_cons hnot, ih (hnext d), ih' hes]
    refine and_congr_right fun _ => and_congr_right fun _ => ?_
    constructor
    · intro hdis
      refine ⟨fun e he hl hl' => hdis ((h.mem_iff he).mpr hl) ((h'.mem_iff he).mpr hl'), ?_⟩
      exact fun hm => absurd hm hd
    · rintro ⟨hapart, -⟩ e he he'
      have hm := h.marked_of_mem e he
      exact hapart e hm ((h.mem_iff hm).mp he) ((h'.mem_iff hm).mp he')
  | @mark d es l l' hd h h' ih ih' =>
    obtain ⟨hnot, hes⟩ := List.nodup_cons.mp hes
    rw [List.cons_append, List.nodup_cons, List.nodup_append', oneWay_cons hnot, ih (hnext d), ih' hes,
      List.mem_append, h.mem_iff hd, h'.mem_iff hd, not_or]
    constructor
    · rintro ⟨hself, hone, hone', hdis⟩
      refine ⟨hone, hone', fun e he hl hl' => ?_, fun _ => hself⟩
      exact hdis ((h.mem_iff he).mpr hl) ((h'.mem_iff he).mpr hl')
    · rintro ⟨hone, hone', hapart, hself⟩
      refine ⟨hself hd, hone, hone', fun e he he' => ?_⟩
      have hm := h.marked_of_mem e he
      exact hapart e hm ((h.mem_iff hm).mp he) ((h'.mem_iff hm).mp he')

end Meets

theorem exists_meets_list (es : List E) (h : ∀ d ∈ es, ∃ l, Meets next marked (next d) l) :
    ∃ l, Meets next marked es l := by
  induction es with
  | nil => exact ⟨[], .nil⟩
  | cons d es ih =>
    obtain ⟨l, hl⟩ := h d List.mem_cons_self
    obtain ⟨l', hl'⟩ := ih fun e he => h e (List.mem_cons_of_mem d he)
    by_cases hd : marked d
    · exact ⟨d :: l ++ l', .mark hd hl hl'⟩
    · exact ⟨l ++ l', .skip hd hl hl'⟩

/-- Where the edges come to an end, so does the walk. -/
theorem exists_meets (hwf : WellFounded fun d e => d ∈ next e) (es : List E) :
    ∃ l, Meets next marked es l := by
  refine exists_meets_list es fun d _ => ?_
  clear * - hwf
  induction d using hwf.induction with
  | _ d ih => exact exists_meets_list (next d) ih

end Ways
