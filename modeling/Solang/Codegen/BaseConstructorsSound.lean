import Solang.Codegen.BaseConstructors

/-!
# Bases are created as declared

The calls of `function_cfg` are read off as a plan: the places whose arguments are evaluated, derived
contracts first, and the constructors that are called, bases first. A run of the plan passes the values of
the arguments when parameters have names and keep what they are bound to. The arguments that the walk
collects are those of the places it reaches, as long as it comes to each on one way only.
-/

namespace Solang.Codegen

open Relation PostOrder Fuel Ways Solang.Sema

section Code

variable {n m : Nat} {h : Hierarchy n m} {c : Fin n} {baseArgs : Fin n → Option (BaseOrModifier n m)}
  {l : List (Fin n)}

/-- The instructions that evaluate the arguments of `a` -/
def argumentCode (h : Hierarchy n m) (a : BaseOrModifier n m) : List (BaseInstr n m) :=
  List.zipWith BaseInstr.set (h.functions a.callingConstructorNo).arguments a.args

def pendingCall (h : Hierarchy n m) (a : BaseOrModifier n m) : Fin m × List (Option Nat) :=
  (a.callingConstructorNo, (h.functions a.callingConstructorNo).arguments)

theorem foldl_evaluateArgs (hc : baseArgs c = none) (g : BaseCalls n m) :
    (l.foldl (evaluateArgs h c baseArgs) g).code
      = g.code ++ (l.filterMap baseArgs).flatMap (argumentCode h) ∧
    ∀ b, (l.foldl (evaluateArgs h c baseArgs) g).genBaseArgs b
      = if b ∈ l then ((baseArgs b).map (pendingCall h)).or (g.genBaseArgs b) else g.genBaseArgs b := by
  induction l generalizing g with
  | nil => simp
  | cons b l ih =>
    have hstep : evaluateArgs h c baseArgs g b = (baseArgs b).elim g fun a =>
        ⟨g.code ++ argumentCode h a, Function.update g.genBaseArgs b (some (pendingCall h a))⟩ := by
      unfold evaluateArgs
      by_cases hb : b = c
      · rw [if_pos hb, hb, hc, Option.elim_none]
      · rw [if_neg hb]
        cases baseArgs b <;> rfl
    obtain ⟨hcode, hgen⟩ := ih (evaluateArgs h c baseArgs g b)
    rw [List.foldl_cons]
    cases ha : baseArgs b with
    | none =>
      simp only [hstep, ha, Option.elim_none] at hcode hgen ⊢
      refine ⟨by rw [hcode, List.filterMap_cons_none ha], fun b' => ?_⟩
      rw [hgen]
      by_cases hb' : b' = b
      · subst hb'
        simp [ha]
      · simp [hb']
    | some a =>
      simp only [hstep, ha, Option.elim_some] at hcode hgen ⊢
      refine ⟨by rw [hcode, List.filterMap_cons_some ha, List.flatMap_cons, List.append_assoc],
        fun b' => ?_⟩
      rw [hgen]
      by_cases hb' : b' = b
      · subst hb'
        simp [ha]
      · simp [hb']

/-- The call for the base `b`, when its arguments are those in `gen`. -/
def callCode (h : Hierarchy n m) (c : Fin n) (gen : Fin n → Option (Fin m × List (Option Nat)))
    (b : Fin n) : Option (Fin m × List (Option Nat)) :=
  if b = c then none else (gen b).or ((h.noArgsConstructor b).map fun k => (k, []))

theorem foldl_callBase (hl : l.Nodup) (g : BaseCalls n m) :
    (l.foldl (callBase h c) g).code
      = g.code ++ (l.filterMap (callCode h c g.genBaseArgs)).map fun kc => .call kc.1 kc.2 := by
  induction l generalizing g with
  | nil => simp
  | cons b l ih =>
    obtain ⟨hb, hl⟩ := List.nodup_cons.mp hl
    rw [List.foldl_cons, ih hl]
    -- taking the arguments of `b` out does not change those of the others
    have hcongr : ∀ gen, (∀ b' ∈ l, gen b' = g.genBaseArgs b') →
        l.filterMap (callCode h c gen) = l.filterMap (callCode h c g.genBaseArgs) := by
      refine fun gen hgen => List.filterMap_congr fun b' hb' => ?_
      unfold callCode
      rw [hgen b' hb']
    have hupdate : ∀ b' ∈ l, Function.update g.genBaseArgs b none b' = g.genBaseArgs b' := by
      intro b' hb'
      exact Function.update_of_ne (by rintro rfl; exact hb hb') _ _
    unfold callBase
    by_cases hbc : b = c
    · have hnone : callCode h c g.genBaseArgs b = none := by rw [callCode, if_pos hbc]
      rw [if_pos hbc, List.filterMap_cons_none hnone]
    · rw [if_neg hbc]
      cases hg : g.genBaseArgs b with
      | some kc =>
        have hsome : callCode h c g.genBaseArgs b = some kc := by
          rw [callCode, if_neg hbc, hg, Option.some_or]
        rw [List.filterMap_cons_some hsome]
        simp only [hcongr _ hupdate, List.map_cons, List.append_assoc, List.singleton_append]
      | none =>
        cases hk : h.noArgsConstructor b with
        | some k =>
          have hsome : callCode h c g.genBaseArgs b = some (k, []) := by
            rw [callCode, if_neg hbc, hg, hk, Option.none_or, Option.map_some]
          rw [List.filterMap_cons_some hsome]
          simp only [List.map_cons, List.append_assoc, List.singleton_append]
        | none =>
          have hnone : callCode h c g.genBaseArgs b = none := by
            rw [callCode, if_neg hbc, hg, hk, Option.none_or, Option.map_none]
          rw [List.filterMap_cons_none hnone]

end Code

theorem filterMap_map_sublist {α β : Type} {f : α → Option β} {g : β → α}
    (hg : ∀ a b, f a = some b → g b = a) (l : List α) : ((l.filterMap f).map g).Sublist l := by
  induction l with
  | nil => exact List.Sublist.slnil
  | cons a l ih =>
    cases hf : f a with
    | none =>
      rw [List.filterMap_cons_none hf]
      exact ih.cons a
    | some b =>
      rw [List.filterMap_cons_some hf, List.map_cons, hg a b hf]
      exact ih.cons_cons a

section Plan

variable {n m : Nat} {h : Hierarchy n m}

/-- The arguments at the places `ps` are evaluated, and the constructors `ks` called. -/
structure Plan (q : h.Construction) (order : List (Fin n)) (ps : List (Place n m)) (ks : List (Fin m)) :
    Prop where
  settles : Settles (fun fuel => h.ns.contractBases fuel q.contractNo) order
  linearises : h.ns.Linearises q.contractNo order
  mem_places : ∀ p, p ∈ ps ↔ q.Reached p
  places_sorted : (ps.map Place.base).Sublist order.reverse
  calls_sorted : (ks.map fun k => (h.functions k).contractNo).Sublist order
  inherits_of_mem : ∀ k ∈ ks, TransGen h.ns.Inherits q.contractNo (h.functions k).contractNo
  given_of_mem : ∀ k ∈ ks, ∀ p, q.Reached p → p.base = (h.functions k).contractNo → h.given p = some k
  mem_of_given : ∀ p, q.Reached p → ∀ k, h.given p = some k → k ∈ ks
  given_or_nil : ∀ k ∈ ks, (∃ p, q.Reached p ∧ h.given p = some k) ∨ (h.functions k).arguments = []
  complete : ∀ b, TransGen h.ns.Inherits q.contractNo b → h.constructors b ≠ [] →
    ∃ k ∈ ks, (h.functions k).contractNo = b

def planCode (h : Hierarchy n m) (ps : List (Place n m)) (ks : List (Fin m)) : List (BaseInstr n m) :=
  (bindings h ps).map (fun b => .set b.1 b.2) ++ ks.map fun k => .call k (h.functions k).arguments

/-- `baseArgs` has the arguments of every place that is reached. -/
def HasArguments (q : h.Construction) (baseArgs : Fin n → Option (BaseOrModifier n m)) : Prop :=
  ∀ b a, baseArgs b = some a ↔ ∃ p, q.Reached p ∧ p.base = b ∧ h.entry p = some a

/-- The constructor that is called of the base `b` -/
def callee (h : Hierarchy n m) (c : Fin n) (baseArgs : Fin n → Option (BaseOrModifier n m)) (b : Fin n) :
    Option (Fin m) :=
  if b = c then none
  else ((baseArgs b).map BaseOrModifier.callingConstructorNo).or (h.noArgsConstructor b)

theorem entry_iff {p : Place n m} {a : BaseOrModifier n m} :
    h.entry p = some a ↔ ∃ k, h.given p = some k ∧ a = ⟨p, k, h.args p k⟩ := by
  rw [Hierarchy.entry, Option.map_eq_some_iff]
  simp only [eq_comm]

variable {q : h.Construction} {baseArgs : Fin n → Option (BaseOrModifier n m)} {b : Fin n} {k : Fin m}

theorem ne_of_inherits (hb : TransGen h.ns.Inherits q.contractNo b) : b ≠ q.contractNo := by
  rintro rfl
  exact h.acyclic _ hb

theorem callee_of_given (ha : HasArguments q baseArgs) {p : Place n m} (hp : q.Reached p)
    (hk : h.given p = some k) : callee h q.contractNo baseArgs p.base = some k := by
  have hsome := (ha p.base _).mpr ⟨p, hp, rfl, entry_iff.mpr ⟨k, hk, rfl⟩⟩
  rw [callee, if_neg (ne_of_inherits (q.inherits_of_reached hp)), hsome, Option.map_some, Option.some_or]

theorem contractNo_of_callee (ha : HasArguments q baseArgs)
    (hk : callee h q.contractNo baseArgs b = some k) : (h.functions k).contractNo = b := by
  unfold callee at hk
  split at hk
  · cases hk
  cases hb : baseArgs b with
  | some a =>
    rw [hb, Option.map_some, Option.some_or] at hk
    obtain ⟨p, -, rfl, he⟩ := (ha b a).mp hb
    obtain ⟨k', hk', rfl⟩ := entry_iff.mp he
    obtain rfl := Option.some.inj hk
    exact h.contractNo_of_mem (h.mem_constructors_of_given hk')
  | none =>
    rw [hb, Option.map_none, Option.none_or] at hk
    exact h.contractNo_of_mem (h.noArgsConstructor_spec hk).1

theorem given_or_nil_of_callee (ha : HasArguments q baseArgs)
    (hk : callee h q.contractNo baseArgs b = some k) :
    (∃ p, q.Reached p ∧ h.given p = some k) ∨ (h.functions k).arguments = [] := by
  unfold callee at hk
  split at hk
  · cases hk
  cases hb : baseArgs b with
  | some a =>
    rw [hb, Option.map_some, Option.some_or] at hk
    obtain ⟨p, hp, -, he⟩ := (ha b a).mp hb
    obtain ⟨k', hk', rfl⟩ := entry_iff.mp he
    obtain rfl := Option.some.inj hk
    exact .inl ⟨p, hp, hk'⟩
  | none =>
    rw [hb, Option.map_none, Option.none_or] at hk
    exact .inr (h.noArgsConstructor_spec hk).2

/-- Every base that declares a constructor has one called: the one it has arguments for, else the one
without parameters. -/
theorem exists_callee (ha : HasArguments q baseArgs) (hmissing : ¬ q.Missing)
    (hb : TransGen h.ns.Inherits q.contractNo b) (hdecl : h.constructors b ≠ []) :
    ∃ k, callee h q.contractNo baseArgs b = some k := by
  by_cases hp : ∃ p, q.Reached p ∧ p.base = b
  · obtain ⟨p, hp, rfl⟩ := hp
    obtain ⟨k, hk⟩ := Option.isSome_iff_exists.mp hp.1
    exact ⟨k, callee_of_given ha hp hk⟩
  · have hnone : baseArgs b = none := by
      refine Option.eq_none_iff_forall_ne_some.mpr fun a hab => ?_
      obtain ⟨p, hreached, hpb, -⟩ := (ha b a).mp hab
      exact hp ⟨p, hreached, hpb⟩
    cases hk : h.noArgsConstructor b with
    | some k =>
      exact ⟨k, by rw [callee, if_neg (ne_of_inherits hb), hnone, hk, Option.map_none, Option.none_or]⟩
    | none =>
      refine absurd ⟨b, hb, ?_, fun p hreached hpb => hp ⟨p, hreached, hpb⟩⟩ hmissing
      simp [Hierarchy.constructorNeedsArguments, hk, hdecl]

/-- The calls with the arguments that were evaluated are those of the callees. -/
theorem callCode_eq {gen : Fin n → Option (Fin m × List (Option Nat))}
    (hgen : gen b = (baseArgs b).map (pendingCall h)) :
    callCode h q.contractNo gen b
      = (callee h q.contractNo baseArgs b).map fun k => (k, (h.functions k).arguments) := by
  unfold callCode callee
  split
  · rfl
  rw [hgen]
  cases hb : baseArgs b with
  | some a => rfl
  | none =>
    cases hk : h.noArgsConstructor b with
    | none => rfl
    | some k =>
      simp only [Option.map_none, Option.none_or, Option.map_some, (h.noArgsConstructor_spec hk).2]

theorem argumentCode_eq (ha : HasArguments q baseArgs) (l : List (Fin n)) :
    (l.filterMap baseArgs).flatMap (argumentCode h)
      = (bindings h ((l.filterMap baseArgs).map BaseOrModifier.loc)).map fun b => .set b.1 b.2 := by
  rw [bindings, List.flatMap_map, List.map_flatMap]
  refine List.flatMap_congr fun a hmem => ?_
  obtain ⟨b, -, hb⟩ := List.mem_filterMap.mp hmem
  obtain ⟨p, -, -, he⟩ := (ha b a).mp hb
  obtain ⟨k, hk, rfl⟩ := entry_iff.mp he
  rw [hk, Option.elim_some, List.zip_eq_zipWith, List.map_zipWith]
  rfl

/-- Without errors there is a plan, and the calls are those of the plan. -/
theorem exists_plan (hq : q.Accepted) : ∃ order ps ks, Plan q order ps ks ∧
    Settles (fun fuel => callBaseConstructors h fuel q.contractNo q.constructorNo) (planCode h ps ks) := by
  obtain ⟨hone, htwo, hmissing⟩ := hq
  obtain ⟨s, hs, hdup, hargs⟩ := q.collects
  have hd := hdup.mpr ⟨hone, htwo⟩
  have ha : HasArguments q s.baseArgs := hargs hd
  obtain ⟨order, hlin, hord⟩ := Namespace.contractBases_settles h.acyclic q.contractNo
  have hself : s.baseArgs q.contractNo = none := by
    refine Option.eq_none_iff_forall_ne_some.mpr fun a hsome => ?_
    obtain ⟨p, hp, hpb, -⟩ := (ha _ a).mp hsome
    exact ne_of_inherits (q.inherits_of_reached hp) hpb
  have hmem : ∀ {p}, q.Reached p → p.base ∈ order :=
    fun hp => (hlin.mem_iff _).mpr (.inr (q.inherits_of_reached hp))
  refine ⟨order, (order.reverse.filterMap s.baseArgs).map BaseOrModifier.loc,
    order.filterMap (callee h q.contractNo s.baseArgs), ⟨hord, hlin, fun p => ?_, ?_, ?_, fun k hk => ?_,
      fun k hk p hp hpb => ?_, fun p hp k hk => ?_, fun k hk => ?_, fun b hb hdecl => ?_⟩, ?_⟩
  · rw [List.mem_map]
    constructor
    · rintro ⟨a, hmem', rfl⟩
      obtain ⟨b, -, hb⟩ := List.mem_filterMap.mp hmem'
      obtain ⟨p, hp, -, he⟩ := (ha b a).mp hb
      obtain ⟨k, -, rfl⟩ := entry_iff.mp he
      exact hp
    · intro hp
      obtain ⟨a, he⟩ := Hierarchy.Construction.entry_of_given hp.1
      have hsome := (ha _ a).mpr ⟨p, hp, rfl, he⟩
      refine ⟨a, List.mem_filterMap.mpr ⟨p.base, List.mem_reverse.mpr (hmem hp), hsome⟩, ?_⟩
      obtain ⟨k, -, rfl⟩ := entry_iff.mp he
      rfl
  · rw [List.map_map]
    refine filterMap_map_sublist (fun b a hb => ?_) _
    obtain ⟨p, -, rfl, he⟩ := (ha b a).mp hb
    obtain ⟨k, -, rfl⟩ := entry_iff.mp he
    rfl
  · exact filterMap_map_sublist (fun b k hk => contractNo_of_callee ha hk) _
  · obtain ⟨b, hb, hk⟩ := List.mem_filterMap.mp hk
    rw [contractNo_of_callee ha hk]
    refine ((hlin.mem_iff b).mp hb).resolve_left ?_
    rintro rfl
    rw [callee, if_pos rfl] at hk
    cases hk
  · obtain ⟨b, hb, hk⟩ := List.mem_filterMap.mp hk
    obtain ⟨k', hk'⟩ := Option.isSome_iff_exists.mp hp.1
    rw [contractNo_of_callee ha hk] at hpb
    have hcallee := callee_of_given ha hp hk'
    rw [hpb, hk] at hcallee
    rw [hk', hcallee]
  · exact List.mem_filterMap.mpr ⟨p.base, hmem hp, callee_of_given ha hp hk⟩
  · obtain ⟨b, -, hk⟩ := List.mem_filterMap.mp hk
    exact given_or_nil_of_callee ha hk
  · obtain ⟨k, hk⟩ := exists_callee ha hmissing hb hdecl
    exact ⟨k, List.mem_filterMap.mpr ⟨b, (hlin.mem_iff b).mpr (.inr hb), hk⟩, contractNo_of_callee ha hk⟩
  · obtain ⟨hcode, hgen⟩ := @foldl_evaluateArgs _ _ h _ _ order.reverse hself ⟨[], fun _ => none⟩
    refine hs.bind ?_
    simp only [hd, List.isEmpty_nil, if_true]
    have hcalls : ∀ gen, (∀ b ∈ order, gen b = (s.baseArgs b).map (pendingCall h)) →
        order.filterMap (callCode h q.contractNo gen)
          = (order.filterMap (callee h q.contractNo s.baseArgs)).map
            fun k => (k, (h.functions k).arguments) := by
      intro gen hgen
      rw [List.map_filterMap]
      exact List.filterMap_congr fun b hb => callCode_eq (hgen b hb)
    have hall : ∀ b ∈ order, (order.reverse.foldl (evaluateArgs h q.contractNo s.baseArgs)
        ⟨[], fun _ => none⟩).genBaseArgs b = (s.baseArgs b).map (pendingCall h) := by
      intro b hb
      rw [hgen, if_pos (List.mem_reverse.mpr hb), Option.or_none]
    have heq := @foldl_callBase _ _ h q.contractNo _ hlin.nodup
      (order.reverse.foldl (evaluateArgs h q.contractNo s.baseArgs) ⟨[], fun _ => none⟩)
    rw [hcalls _ hall, hcode, List.nil_append, argumentCode_eq ha, List.map_map] at heq
    exact hord.bind (heq ▸ settles_const _)

end Plan

section Run

variable {n m : Nat} {h : Hierarchy n m} {V W : Type}
  {eval : Argument n m → BaseState V W → V × BaseState V W} {invoke : Fin m → List V → W → W}
  {bs : List (Option Nat × Argument n m)} {σ σ' : BaseState V W}

theorem runBase_append (code code' : List (BaseInstr n m)) (σ : BaseState V W) :
    runBase eval invoke (code ++ code') σ = (runBase eval invoke code σ).bind fun r =>
      (runBase eval invoke code' r.2).map fun r' => (r.1 ++ r'.1, r'.2) := by
  induction code generalizing σ with
  | nil => simp [runBase]
  | cons i code ih =>
    simp only [List.cons_append, runBase, ih, Option.bind_eq_bind, Option.bind_assoc, Option.pure_def,
      Option.bind_some, Option.map_eq_bind]
    rfl

/-- The events of evaluating the arguments `bs` -/
def evaluations (eval : Argument n m → BaseState V W → V × BaseState V W) :
    List (Option Nat × Argument n m) → BaseState V W → List (BaseEvent n m V)
  | [], _ => []
  | b :: bs, σ => .evaluated b.2 (eval b.2 σ).1 :: evaluations eval bs (bindArgument eval σ b)

theorem runBase_set (bs : List (Option Nat × Argument n m)) (σ : BaseState V W) :
    runBase eval invoke (bs.map fun b => .set b.1 b.2) σ
      = some (evaluations eval bs σ, bindArguments eval bs σ) := by
  induction bs generalizing σ with
  | nil => rfl
  | cons b bs ih =>
    rw [List.map_cons, runBase, BaseInstr.step]
    simp only [Option.bind_eq_bind, Option.bind_some]
    have hrest := ih (bindArgument eval σ b)
    rw [bindArgument] at hrest
    rw [hrest]
    rfl

/-- What the parameters `xs` with names hold -/
def values (vars : Nat → V) (xs : List (Option Nat)) : List V := xs.filterMap (Option.map vars)

theorem mapM_vars {vars : Nat → V} {xs : List (Option Nat)} (hxs : none ∉ xs) :
    xs.mapM (Option.map vars) = some (values vars xs) := by
  induction xs with
  | nil => rfl
  | cons x xs ih =>
    cases x with
    | none => exact absurd List.mem_cons_self hxs
    | some x =>
      rw [List.mapM_cons, ih fun hmem => hxs (List.mem_cons_of_mem _ hmem)]
      rfl

theorem none_notMem_of_mapM {vars : Nat → V} {xs : List (Option Nat)} {vs : List V}
    (hvs : xs.mapM (Option.map vars) = some vs) : none ∉ xs := by
  induction xs generalizing vs with
  | nil => exact List.not_mem_nil
  | cons x xs ih =>
    rw [List.mapM_cons] at hvs
    cases x with
    | none => cases hvs
    | some x =>
      simp only [Option.map_some, Option.bind_eq_bind, Option.bind_some, Option.pure_def] at hvs
      obtain ⟨vs', hvs', -⟩ := Option.bind_eq_some_iff.mp hvs
      intro hmem
      obtain hmem | hmem := List.mem_cons.mp hmem
      · cases hmem
      · exact ih hvs' hmem

variable (eval invoke) in
/-- The calls pass what the variables hold when all arguments are evaluated. -/
theorem runBase_call (ks : List (Fin m)) (hks : ∀ k ∈ ks, none ∉ (h.functions k).arguments)
    (σ : BaseState V W) : ∃ σ', runBase eval invoke (ks.map fun k => .call k (h.functions k).arguments) σ
      = some (ks.map fun k => .called k (values σ.vars (h.functions k).arguments), σ') := by
  induction ks generalizing σ with
  | nil => exact ⟨σ, rfl⟩
  | cons k ks ih =>
    obtain ⟨hk, hks⟩ := List.forall_mem_cons.mp hks
    obtain ⟨σ', hσ'⟩ := ih hks
      { σ with world := invoke k (values σ.vars (h.functions k).arguments) σ.world }
    refine ⟨σ', ?_⟩
    rw [List.map_cons, runBase, BaseInstr.step, mapM_vars hk]
    simp only [Option.bind_eq_bind, Option.bind_some, Option.pure_def, hσ']
    rfl

theorem named_of_runBase {ks : List (Fin m)} {r : List (BaseEvent n m V) × BaseState V W}
    (hr : runBase eval invoke (ks.map fun k => .call k (h.functions k).arguments) σ = some r) :
    ∀ k ∈ ks, none ∉ (h.functions k).arguments := by
  induction ks generalizing σ r with
  | nil => exact List.forall_mem_nil _
  | cons k ks ih =>
    rw [List.map_cons, runBase, BaseInstr.step] at hr
    simp only [Option.bind_eq_bind, Option.bind_eq_some_iff] at hr
    obtain ⟨_, ⟨vs, hvs, -⟩, ⟨r', hr', -⟩⟩ := hr
    exact List.forall_mem_cons.mpr ⟨none_notMem_of_mapM hvs, ih hr'⟩

theorem evaluated_mem_iff {a : Argument n m} {v : V} : .evaluated a v ∈ evaluations eval bs σ ↔
    ∃ l x l', bs = l ++ (x, a) :: l' ∧ (eval a (bindArguments eval l σ)).1 = v := by
  induction bs generalizing σ with
  | nil => simp [evaluations]
  | cons b bs ih =>
    rw [evaluations, List.mem_cons, ih]
    constructor
    · rintro (he | ⟨l, x, l', rfl, hv⟩)
      · cases he
        exact ⟨[], b.1, bs, rfl, rfl⟩
      · exact ⟨b :: l, x, l', rfl, hv⟩
    · rintro ⟨l, x, l', heq, hv⟩
      cases l with
      | nil =>
        obtain ⟨rfl, -⟩ := List.cons.inj heq
        exact .inl (by rw [← hv]; rfl)
      | cons c l =>
        obtain ⟨rfl, rfl⟩ := List.cons.inj heq
        exact .inr ⟨l, x, l', rfl, hv⟩

/-- The events of a plan -/
def planEvents (h : Hierarchy n m) (eval : Argument n m → BaseState V W → V × BaseState V W)
    (ps : List (Place n m)) (ks : List (Fin m)) (σ : BaseState V W) : List (BaseEvent n m V) :=
  evaluations eval (bindings h ps) σ ++ ks.map fun k =>
    .called k (values (bindArguments eval (bindings h ps) σ).vars (h.functions k).arguments)

variable (eval invoke) in
theorem runBase_planCode (ps : List (Place n m)) {ks : List (Fin m)}
    (hks : ∀ k ∈ ks, none ∉ (h.functions k).arguments) (σ : BaseState V W) :
    ∃ σ', runBase eval invoke (planCode h ps ks) σ = some (planEvents h eval ps ks σ, σ') := by
  obtain ⟨σ', hσ'⟩ := runBase_call eval invoke ks hks (bindArguments eval (bindings h ps) σ)
  refine ⟨σ', ?_⟩
  rw [planCode, runBase_append, runBase_set, Option.bind_some, hσ']
  rfl

theorem of_runBase_planCode {ps : List (Place n m)} {ks : List (Fin m)}
    {events : List (BaseEvent n m V)}
    (hr : runBase eval invoke (planCode h ps ks) σ = some (events, σ')) :
    (∀ k ∈ ks, none ∉ (h.functions k).arguments) ∧ events = planEvents h eval ps ks σ := by
  have hks : ∀ k ∈ ks, none ∉ (h.functions k).arguments := by
    rw [planCode, runBase_append, runBase_set, Option.bind_some] at hr
    obtain ⟨r, hr', -⟩ := Option.map_eq_some_iff.mp hr
    exact named_of_runBase hr'
  obtain ⟨σ₁, hσ₁⟩ := runBase_planCode eval invoke ps hks σ
  rw [hr] at hσ₁
  exact ⟨hks, congrArg Prod.fst (Option.some.inj hσ₁)⟩

end Run

section Bindings

variable {n m : Nat} {h : Hierarchy n m} {ps : List (Place n m)} {p : Place n m} {k : Fin m}
  {a : Argument n m}

theorem place_of_mem_args (ha : a ∈ h.args p k) : a.place = p := by
  obtain ⟨i, -, rfl⟩ := List.mem_map.mp ha
  rfl

theorem args_nodup (p : Place n m) (k : Fin m) : (h.args p k).Nodup :=
  List.nodup_range.map fun i j hij => by cases hij; rfl

theorem length_args (p : Place n m) (k : Fin m) :
    (h.args p k).length = (h.functions k).arguments.length := by
  rw [Hierarchy.args, List.length_map, List.length_range]

theorem bindings_map_snd (ps : List (Place n m)) :
    (bindings h ps).map Prod.snd = ps.flatMap fun p => (h.given p).elim [] (h.args p) := by
  rw [bindings, List.map_flatMap]
  refine List.flatMap_congr fun p _ => ?_
  cases h.given p with
  | none => rfl
  | some k =>
    rw [Option.elim_some, Option.elim_some, List.map_snd_zip]
    rw [length_args]

theorem mem_bindings {x : Option Nat} : (x, a) ∈ bindings h ps ↔
    ∃ p ∈ ps, ∃ k, h.given p = some k ∧ (x, a) ∈ (h.functions k).arguments.zip (h.args p k) := by
  rw [bindings, List.mem_flatMap]
  refine exists_congr fun p => and_congr_right fun _ => ?_
  cases h.given p with
  | none => simp
  | some k => simp

/-- Every argument is evaluated at one point only. -/
theorem bindings_nodup (hps : ps.Nodup) : ((bindings h ps).map Prod.snd).Nodup := by
  rw [bindings_map_snd, List.nodup_flatMap]
  have hplace : ∀ {p a}, a ∈ (h.given p).elim [] (h.args p) → a.place = p := by
    intro p a ha
    cases hp : h.given p with
    | none =>
      rw [hp] at ha
      cases ha
    | some k =>
      rw [hp] at ha
      exact place_of_mem_args ha
  refine ⟨fun p _ => ?_, hps.imp fun hne a ha hb => hne ((hplace ha).symm.trans (hplace hb))⟩
  cases h.given p with
  | none => exact List.nodup_nil
  | some k => exact args_nodup p k

end Bindings

section Spec

variable {n m : Nat} {h : Hierarchy n m} {V W : Type}
  {eval : Argument n m → BaseState V W → V × BaseState V W} {invoke : Fin m → List V → W → W}
  {q : h.Construction} {order : List (Fin n)} {ps : List (Place n m)} {ks : List (Fin m)}
  {bs : List (Option Nat × Argument n m)} {σ : BaseState V W}

/-- From `σ`, the parameters that are bound are left as they are. -/
def KeepsFrom (eval : Argument n m → BaseState V W → V × BaseState V W)
    (bs : List (Option Nat × Argument n m)) (σ : BaseState V W) : Prop :=
  ∀ l x a l', bs = l ++ (some x, a) :: l' →
    (bindArguments eval bs σ).vars x = (bindArguments eval (l ++ [(some x, a)]) σ).vars x

theorem bindArguments_vars (l : List (Option Nat × Argument n m)) (x : Nat) (a : Argument n m)
    (σ : BaseState V W) : (bindArguments eval (l ++ [(some x, a)]) σ).vars x
      = (eval a (bindArguments eval l σ)).1 := by
  rw [bindArguments, List.foldl_append]
  exact Function.update_self x _ _

/-- An argument of a nodup list is evaluated once, so its event tells its value. -/
theorem evaluated_iff_of_nodup (hbs : (bs.map Prod.snd).Nodup) {l l' : List (Option Nat × Argument n m)}
    {x : Option Nat} {a : Argument n m} {v : V} (heq : bs = l ++ (x, a) :: l') :
    .evaluated a v ∈ evaluations eval bs σ ↔ (eval a (bindArguments eval l σ)).1 = v := by
  rw [evaluated_mem_iff]
  refine ⟨fun ⟨l₁, x₁, l₁', heq₁, hv⟩ => ?_, fun hv => ⟨l, x, l', heq, hv⟩⟩
  -- both splits are at the index of `a`
  have hsplit : ∀ {l x l'}, bs = l ++ (x, a) :: l' → l = bs.take ((bs.map Prod.snd).idxOf a) := by
    intro l x l' heq
    rw [heq, List.map_append, List.map_cons, List.nodup_append] at hbs
    have ha : a ∉ l.map Prod.snd := fun hmem => hbs.2.2 a hmem a List.mem_cons_self rfl
    rw [heq, List.map_append, List.map_cons, List.idxOf_append_of_notMem ha, List.idxOf_cons_self,
      Nat.add_zero, List.length_map, List.take_left]
  rw [hsplit heq, ← hsplit heq₁]
  exact hv

theorem mem_evaluations {e : BaseEvent n m V} (he : e ∈ evaluations eval bs σ) :
    ∃ a v, e = .evaluated a v ∧ a ∈ bs.map Prod.snd := by
  induction bs generalizing σ with
  | nil => cases he
  | cons b bs ih =>
    obtain rfl | he := List.mem_cons.mp he
    · exact ⟨b.2, _, rfl, List.mem_cons_self⟩
    · obtain ⟨a, v, hav, hmem⟩ := ih he
      exact ⟨a, v, hav, List.mem_cons_of_mem _ hmem⟩

theorem evaluations_filter (bs : List (Option Nat × Argument n m)) (σ : BaseState V W)
    (a : Argument n m) : ((evaluations eval bs σ).filter (BaseEvent.evaluates a)).length
      = (bs.map Prod.snd).count a := by
  induction bs generalizing σ with
  | nil => rfl
  | cons b bs ih =>
    rw [evaluations, List.map_cons, List.count_cons, List.filter_cons]
    by_cases hb : b.2 = a
    · simp [BaseEvent.evaluates, hb, ih]
    · simp [BaseEvent.evaluates, hb, ih]

theorem evaluations_pairwise {R : BaseEvent n m V → BaseEvent n m V → Prop}
    {S : Argument n m → Argument n m → Prop}
    (hRS : ∀ a a' v v', S a a' → R (.evaluated a v) (.evaluated a' v'))
    (hbs : (bs.map Prod.snd).Pairwise S) (σ : BaseState V W) : (evaluations eval bs σ).Pairwise R := by
  induction bs generalizing σ with
  | nil => exact List.Pairwise.nil
  | cons b bs ih =>
    rw [List.map_cons, List.pairwise_cons] at hbs
    refine List.pairwise_cons.mpr ⟨fun e he => ?_, ih hbs.2 _⟩
    obtain ⟨a, v, rfl, hmem⟩ := mem_evaluations he
    exact hRS _ _ _ _ (hbs.1 a hmem)

/-- The values at a list of variables -/
theorem forall₂_values_iff {P : Argument n m → V → Prop} {vars : Nat → V} {xs : List (Option Nat)}
    {as : List (Argument n m)} (hlen : xs.length = as.length) (hxs : none ∉ xs) :
    List.Forall₂ P as (values vars xs) ↔ ∀ x a, (some x, a) ∈ xs.zip as → P a (vars x) := by
  induction xs generalizing as with
  | nil =>
    obtain rfl := List.length_eq_zero_iff.mp hlen.symm
    simp [values]
  | cons x xs ih =>
    cases as with
    | nil => cases hlen
    | cons a as =>
      cases x with
      | none => exact absurd List.mem_cons_self hxs
      | some x =>
        have hrest := ih (Nat.succ.inj hlen) fun hmem => hxs (List.mem_cons_of_mem _ hmem)
        have hval : values vars (some x :: xs) = vars x :: values vars xs := rfl
        rw [hval, List.forall₂_cons, hrest]
        simp [or_imp, forall_and]

theorem order_pairwise (hlin : h.ns.Linearises q.contractNo order) :
    order.Pairwise fun b b' => ¬ TransGen h.ns.Inherits b b' := by
  have hsuffix : ∀ l' l, order = l ++ l' → l'.Pairwise fun b b' => ¬ TransGen h.ns.Inherits b b' := by
    intro l'
    induction l' with
    | nil => exact fun _ _ => List.Pairwise.nil
    | cons b l' ih =>
      intro l heq
      refine List.pairwise_cons.mpr ⟨fun b' hb' htrans => ?_, ih (l ++ [b]) (by rw [heq]; simp)⟩
      have hmem := hlin.before l b l' heq b' htrans
      have hnd := hlin.nodup
      rw [heq, List.nodup_append] at hnd
      exact hnd.2.2 b' hmem b' (List.mem_cons_of_mem b hb') rfl
  exact hsuffix order [] rfl

/-- A constructor with a modifier belongs to a contract deriving from the base of the modifier. -/
theorem inherits_of_defined {p p' : Place n m} {k : Fin m} (hp : (h.given p).isSome)
    (hdef : p.definedConstructorNo = some k) (hk : h.given p' = some k) :
    TransGen h.ns.Inherits p'.base p.base := by
  cases p with
  | list c b => cases hdef
  | modifier k' b =>
    obtain rfl := Option.some.inj hdef
    obtain ⟨k₁, hk₁⟩ := Option.isSome_iff_exists.mp hp
    rw [← h.contractNo_of_mem (h.mem_constructors_of_given hk)]
    exact h.modifier_inherits hk₁

namespace Plan

theorem places_nodup (hp : Plan q order ps ks) : ps.Nodup :=
  (hp.places_sorted.nodup (List.nodup_reverse.mpr hp.linearises.nodup)).of_map

theorem calls_nodup (hp : Plan q order ps ks) : (ks.map fun k => (h.functions k).contractNo).Nodup :=
  hp.calls_sorted.nodup hp.linearises.nodup

theorem evaluationOrder (hp : Plan q order ps ks) : EvaluationOrder q ps :=
  ⟨hp.mem_places, order, hp.settles, hp.places_sorted⟩

theorem named_iff (hp : Plan q order ps ks) :
    NamedParameters q ↔ ∀ k ∈ ks, none ∉ (h.functions k).arguments := by
  constructor
  · intro hnamed k hk
    obtain ⟨p, hreached, hgiven⟩ | hnil := hp.given_or_nil k hk
    · exact hnamed p hreached k hgiven
    · rw [hnil]
      exact List.not_mem_nil
  · exact fun hks p hreached k hk => hks k (hp.mem_of_given p hreached k hk)

/-- An argument is evaluated after those of the constructor it stands on. -/
theorem arguments_sorted (hp : Plan q order ps ks) : ((bindings h ps).map Prod.snd).Pairwise fun a a' =>
    ∀ k, a.place.definedConstructorNo = some k → h.given a'.place ≠ some k := by
  have hplace : ∀ {p a}, a ∈ (h.given p).elim [] (h.args p) → (h.given p).isSome ∧ a.place = p := by
    intro p a ha
    cases hk : h.given p with
    | none =>
      rw [hk] at ha
      cases ha
    | some k =>
      rw [hk] at ha
      exact ⟨rfl, place_of_mem_args ha⟩
  rw [bindings_map_snd, List.pairwise_flatMap]
  refine ⟨fun p _ => List.pairwise_of_forall_mem_list fun a ha a' ha' k hdef hk => ?_, ?_⟩
  · rw [(hplace ha).2] at hdef
    rw [(hplace ha').2] at hk
    exact h.acyclic _ (inherits_of_defined (hplace ha).1 hdef hk)
  · have hsorted := (List.pairwise_reverse.mpr (order_pairwise hp.linearises)).sublist hp.places_sorted
    rw [List.pairwise_map] at hsorted
    refine hsorted.imp fun hnot a ha a' ha' k hdef hk => hnot ?_
    rw [(hplace ha).2] at hdef
    rw [(hplace ha').2] at hk
    exact inherits_of_defined (hplace ha).1 hdef hk

theorem calls_filter (hp : Plan q order ps ks) {b : Fin n}
    (hb : TransGen h.ns.Inherits q.contractNo b) (hdecl : h.constructors b ≠ []) :
    ((planEvents h eval ps ks σ).filter (BaseEvent.calls h b)).length = 1 := by
  obtain ⟨k, hk, hkb⟩ := hp.complete b hb hdecl
  have hnone : (evaluations eval (bindings h ps) σ).filter (BaseEvent.calls h b) = [] := by
    refine List.filter_eq_nil_iff.mpr fun e he => ?_
    obtain ⟨a, v, rfl, -⟩ := mem_evaluations he
    exact Bool.false_ne_true
  have hmem : b ∈ ks.map fun k => (h.functions k).contractNo := List.mem_map.mpr ⟨k, hk, hkb⟩
  have hcount := List.count_eq_one_of_mem hp.calls_nodup hmem
  rw [planEvents, List.filter_append, hnone, List.nil_append, ← List.countP_eq_length_filter,
    List.countP_map, ← hcount, List.count, List.countP_map]
  rfl

theorem evaluates_filter (hp : Plan q order ps ks) {p : Place n m} (hreached : q.Reached p) {k : Fin m}
    (hk : h.given p = some k) {a : Argument n m} (ha : a ∈ h.args p k) :
    ((planEvents h eval ps ks σ).filter (BaseEvent.evaluates a)).length = 1 := by
  have hnone : (ks.map fun k => BaseEvent.called (n := n) k (values
      (bindArguments eval (bindings h ps) σ).vars (h.functions k).arguments)).filter
      (BaseEvent.evaluates a) = [] := by
    refine List.filter_eq_nil_iff.mpr fun e he => ?_
    obtain ⟨k, -, rfl⟩ := List.mem_map.mp he
    exact Bool.false_ne_true
  have hmem : a ∈ (bindings h ps).map Prod.snd := by
    rw [bindings_map_snd]
    exact List.mem_flatMap.mpr ⟨p, (hp.mem_places p).mpr hreached, by rw [hk]; exact ha⟩
  rw [planEvents, List.filter_append, hnone, List.append_nil, evaluations_filter]
  exact List.count_eq_one_of_mem (bindings_nodup hp.places_nodup) hmem

/-- A run of the plan creates the bases when the parameters are kept. -/
theorem constructs_iff (hp : Plan q order ps ks) (hks : ∀ k ∈ ks, none ∉ (h.functions k).arguments) :
    Constructs q (planEvents h eval ps ks σ) ↔ KeepsFrom eval (bindings h ps) σ := by
  have hnodup := bindings_nodup (h := h) hp.places_nodup
  have hevaluated : ∀ a v, .evaluated a v ∈ planEvents h eval ps ks σ ↔
      .evaluated a v ∈ evaluations eval (bindings h ps) σ := by
    intro a v
    rw [planEvents, List.mem_append, or_iff_left]
    intro hmem
    obtain ⟨k, -, hk⟩ := List.mem_map.mp hmem
    cases hk
  constructor
  · intro hc l x a l' heq
    have hmem : (some x, a) ∈ bindings h ps := by
      rw [heq]
      exact List.mem_append_right l List.mem_cons_self
    obtain ⟨p, hps, k, hk, hzip⟩ := mem_bindings.mp hmem
    have hreached := (hp.mem_places p).mp hps
    have hks' := hp.mem_of_given p hreached k hk
    have hcall : .called k (values (bindArguments eval (bindings h ps) σ).vars (h.functions k).arguments)
        ∈ planEvents h eval ps ks σ :=
      List.mem_append_right _ (List.mem_map.mpr ⟨k, hks', rfl⟩)
    have hpass := (hc.passes k _ hcall p hreached
      (h.contractNo_of_mem (h.mem_constructors_of_given hk)).symm).2
    have hval := (forall₂_values_iff (length_args p k).symm (hks k hks')).mp hpass x a hzip
    rw [hevaluated, evaluated_iff_of_nodup hnodup heq] at hval
    rw [bindArguments_vars, hval]
  · intro hkeeps
    refine ⟨fun b hb hdecl => hp.calls_filter hb hdecl,
      fun p hreached k hk a ha => hp.evaluates_filter hreached hk ha,
      fun k vs hcall p hreached hpb => ?_, ?_⟩
    · obtain hcall | hcall := List.mem_append.mp hcall
      · obtain ⟨_, _, hcall, -⟩ := mem_evaluations hcall
        cases hcall
      obtain ⟨k', hk', hcall⟩ := List.mem_map.mp hcall
      cases hcall
      have hk := hp.given_of_mem k hk' p hreached hpb
      refine ⟨hk, (forall₂_values_iff (length_args p k).symm (hks k hk')).mpr fun x a hzip => ?_⟩
      obtain ⟨l, l', heq⟩ := List.append_of_mem
        (mem_bindings.mpr ⟨p, (hp.mem_places p).mpr hreached, k, hk, hzip⟩)
      rw [hevaluated, evaluated_iff_of_nodup hnodup heq, hkeeps l x a l' heq, bindArguments_vars]
    · refine List.pairwise_append.mpr ⟨?_, ?_, fun e he e' he' => ?_⟩
      · exact evaluations_pairwise (fun _ _ _ _ hS => hS) hp.arguments_sorted σ
      · have hsorted := (order_pairwise hp.linearises).sublist hp.calls_sorted
        rw [List.pairwise_map] at hsorted ⊢
        exact hsorted
      · obtain ⟨a, v, rfl, -⟩ := mem_evaluations he
        obtain ⟨k, -, rfl⟩ := List.mem_map.mp he'
        trivial

end Plan

theorem eq_of_sublist {α : Type} {l l₁ l₂ : List α} (hl : l.Nodup) (h₁ : l₁.Sublist l)
    (h₂ : l₂.Sublist l) (hmem : ∀ a, a ∈ l₁ ↔ a ∈ l₂) : l₁ = l₂ := by
  induction l generalizing l₁ l₂ with
  | nil => rw [List.sublist_nil.mp h₁, List.sublist_nil.mp h₂]
  | cons a l ih =>
    obtain ⟨ha, hl⟩ := List.nodup_cons.mp hl
    cases h₁ with
    | cons _ h₁ =>
      cases h₂ with
      | cons _ h₂ => exact ih hl h₁ h₂ hmem
      | cons_cons _ h₂ => exact absurd (h₁.subset ((hmem a).mpr List.mem_cons_self)) ha
    | @cons_cons l₁ _ _ h₁ =>
      cases h₂ with
      | cons _ h₂ => exact absurd (h₂.subset ((hmem a).mp List.mem_cons_self)) ha
      | @cons_cons l₂ _ _ h₂ =>
        rw [ih hl h₁ h₂ fun b => ?_]
        by_cases hb : b = a
        · subst hb
          exact iff_of_false (fun hb => ha (h₁.subset hb)) fun hb => ha (h₂.subset hb)
        · simpa [hb] using hmem b

theorem eq_of_map_eq {α β : Type} {f : α → β} {l l' : List α}
    (hf : ∀ a ∈ l, ∀ b ∈ l', f a = f b → a = b) (heq : l.map f = l'.map f) : l = l' := by
  induction l generalizing l' with
  | nil => exact (List.map_eq_nil_iff.mp heq.symm).symm
  | cons a l ih =>
    obtain ⟨b, l₁, rfl, hab, hrest⟩ := List.map_eq_cons_iff.mp heq.symm
    rw [hf a List.mem_cons_self b List.mem_cons_self hab.symm,
      ih (fun a ha b hb => hf a (List.mem_cons_of_mem _ ha) b (List.mem_cons_of_mem _ hb)) hrest.symm]

/-- The places are evaluated in one order. -/
theorem evaluationOrder_unique (htwo : ¬ q.TwoPlaces) {ps' : List (Place n m)}
    (hps : EvaluationOrder q ps) (hps' : EvaluationOrder q ps') : ps' = ps := by
  obtain ⟨order, hord, hsub⟩ := hps.sorted
  obtain ⟨order', hord', hsub'⟩ := hps'.sorted
  obtain rfl := hord.unique hord'
  obtain ⟨_, hlin, hord'⟩ := Namespace.contractBases_settles h.acyclic q.contractNo
  obtain rfl := hord.unique hord'
  have hmem : ∀ p, p ∈ ps' ↔ p ∈ ps := fun p => (hps'.mem_iff p).trans (hps.mem_iff p).symm
  have hbase : ps'.map Place.base = ps.map Place.base := by
    refine eq_of_sublist (List.nodup_reverse.mpr hlin.nodup) hsub' hsub fun b => ?_
    simp only [List.mem_map, hmem]
  refine eq_of_map_eq (fun p hp p' hp' hpp' => ?_) hbase
  by_contra hne
  exact htwo ⟨p, p', (hps'.mem_iff p).mp hp, (hps.mem_iff p').mp hp', hne, hpp'⟩

end Spec

/-- The bases are created as declared exactly when no place is met twice for nothing, parameters have
names, and evaluating an argument does not change a parameter that is already bound. -/
theorem createsBases_iff_met {n m : Nat} {h : Hierarchy n m} {V W : Type} [Inhabited V] [Inhabited W]
    (q : h.Construction) (eval : Argument n m → BaseState V W → V × BaseState V W)
    (invoke : Fin m → List V → W → W) : CreatesBases q eval invoke ↔ BasesMet q eval := by
  obtain ⟨s, hs, hdup, -⟩ := q.collects
  obtain ⟨ds, hds, hacc⟩ := q.checkConstructor_settles
  unfold CreatesBases BasesMet
  have hreports : (∃ s,
      Settles (fun fuel => h.collectBaseArgs fuel q.contractNo q.constructorNo .empty) s ∧
      (s.diagnostics ≠ [] ↔ q.TwoPlaces)) ↔ q.TwoPlaces ∨ q.OneWay := by
    constructor
    · rintro ⟨s', hs', hiff⟩
      obtain rfl := hs.unique hs'
      by_contra hnot
      rw [not_or] at hnot
      exact hnot.1 (hiff.mp fun hd => hnot.2 (hdup.mp hd).1)
    · intro hmet
      refine ⟨s, hs, ?_⟩
      rw [ne_eq, hdup, not_and_not_right]
      exact ⟨fun himp => hmet.elim id himp, fun htwo _ => htwo⟩
  rw [hreports]
  refine and_congr_right fun hmet => ?_
  by_cases htwo : q.TwoPlaces
  · exact iff_of_true ⟨ds, hds, fun hd => absurd htwo (hacc.mp hd).2.1⟩ (.inl htwo)
  by_cases hmissing : q.Missing
  · exact iff_of_true ⟨ds, hds, fun hd => absurd hmissing (hacc.mp hd).2.2⟩ (.inr (.inl hmissing))
  rw [or_iff_right htwo, or_iff_right hmissing]
  have haccepted : q.Accepted := ⟨hmet.resolve_left htwo, htwo, hmissing⟩
  obtain ⟨order, ps, ks, hplan, hcode⟩ := exists_plan haccepted
  constructor
  · rintro ⟨ds', hds', hruns⟩
    obtain rfl := hds.unique hds'
    obtain ⟨code, hcode', hrun⟩ := hruns (hacc.mpr haccepted)
    obtain rfl := hcode.unique hcode'
    have hall : ∀ σ, (∀ k ∈ ks, none ∉ (h.functions k).arguments) ∧
        KeepsFrom eval (bindings h ps) σ := by
      intro σ
      obtain ⟨events, σ', hr, hconstructs⟩ := hrun σ
      obtain ⟨hks, rfl⟩ := of_runBase_planCode hr
      exact ⟨hks, (hplan.constructs_iff hks).mp hconstructs⟩
    refine ⟨hplan.named_iff.mpr (hall default).1, fun ps' hps' σ => ?_⟩
    obtain rfl := evaluationOrder_unique htwo hplan.evaluationOrder hps'
    exact (hall σ).2
  · rintro ⟨hnamed, hkeeps⟩
    have hks := hplan.named_iff.mp hnamed
    refine ⟨ds, hds, fun _ => ⟨planCode h ps ks, hcode, fun σ => ?_⟩⟩
    obtain ⟨σ', hr⟩ := runBase_planCode eval invoke ps hks σ
    exact ⟨_, σ', hr, (hplan.constructs_iff hks).mpr (hkeeps ps hplan.evaluationOrder σ)⟩

namespace Chain

def contracts : Fin 3 → Contract 3
  | 0 => ⟨"A", .contract, []⟩
  | 1 => ⟨"B", .contract, [0]⟩
  | 2 => ⟨"C", .contract, [1]⟩

/-- `A` and `B` have a constructor with one parameter, `C` has `constructor() B(5)`. -/
def functions (k : Fin 3) : Constructor 3 3 where
  contractNo := k
  arguments := if k = 2 then [] else [some k.val]
  bases b := if k = 2 ∧ b = 1 then some 1 else none

theorem arguments_getElem? {k : Fin 3} {i x : Nat} (hk : (functions k).arguments[i]? = some (some x)) :
    x = k.val ∧ i = 0 := by
  unfold functions at hk
  by_cases h2 : k = 2
  · simp [h2] at hk
  · rw [if_neg h2, List.getElem?_singleton] at hk
    split at hk
    · next hi =>
      cases hk
      exact ⟨rfl, hi⟩
    · cases hk

theorem lt_of_inherits {c b : Fin 3} (hb : (⟨contracts, []⟩ : Namespace 3).Inherits c b) : b < c := by
  revert c b
  unfold Namespace.Inherits Namespace.bases
  decide

theorem acyclic : Acyclic (⟨contracts, []⟩ : Namespace 3).Inherits := by
  intro c hc
  have hlt : ∀ {b}, TransGen (⟨contracts, []⟩ : Namespace 3).Inherits c b → b < c := by
    intro b hb
    induction hb with
    | single hb => exact lt_of_inherits hb
    | tail _ hb ih => exact (lt_of_inherits hb).trans ih
  exact absurd (hlt hc) (lt_irrefl c)

/-- `B is A(1)` and `C is B`, where the constructor of `C` has the arguments for `B`. -/
def hierarchy : Hierarchy 3 3 where
  ns := ⟨contracts, []⟩
  functions := functions
  constructors c := [c]
  baseConstructor c b := if c = 1 ∧ b = 0 then some 0 else none
  acyclic := acyclic
  bases_nodup c := by
    revert c
    unfold Namespace.bases
    decide
  contractNo_of_mem hk := List.mem_singleton.mp hk
  modifier_inherits {k b k'} hk := by
    obtain ⟨rfl, rfl⟩ : k = 2 ∧ b = 1 := by
      by_contra hnot
      exact Option.some_ne_none k' (hk.symm.trans (if_neg hnot))
    exact .single List.mem_cons_self
  modifier_constructor {k b k'} hk := by
    revert k b k'
    decide
  list_constructor {c b k'} hk := by
    revert c b k'
    decide
  arguments_inj hi hi' := by
    obtain ⟨hx, rfl⟩ := arguments_getElem? hi
    obtain ⟨hx', rfl⟩ := arguments_getElem? hi'
    exact ⟨Fin.ext (hx.symm.trans hx'), rfl⟩

def construction : hierarchy.Construction := ⟨2, some 2, List.mem_cons_self⟩

/-- Creating `C` leads to the arguments for `B` on its constructor, and to those for `A` in the list of
`B`. -/
theorem place_of_reached {p : Place 3 3} (hp : construction.Reached p) :
    p = .modifier 2 1 ∨ p = .list 1 0 := by
  have hmem : p ∈ [Place.modifier 2 1, .list 2 1, .list 1 0] :=
    hp.2.of_forall (by decide) (by decide)
  have hgiven := hp.1
  simp only [List.mem_cons, List.not_mem_nil, or_false] at hmem
  obtain rfl | rfl | rfl := hmem
  · exact .inl rfl
  · exact absurd hgiven (by decide)
  · exact .inr rfl

theorem not_twoPlaces : ¬ construction.TwoPlaces := by
  rintro ⟨p, p', hp, hp', hne, hb⟩
  obtain rfl | rfl := place_of_reached hp <;> obtain rfl | rfl := place_of_reached hp'
  · exact hne rfl
  · exact absurd hb (by decide)
  · exact absurd hb (by decide)
  · exact hne rfl

/-- The arguments for `A` are met behind those for `B` and again behind the entry of `B` in the list of
`C`. -/
theorem not_oneWay : ¬ construction.OneWay := by
  intro hone
  have hfirst : Way hierarchy.next construction.places ([.modifier 2 1] ++ [.list 1 0]) :=
    .cons (by decide) (.single (by decide))
  have hsecond : Way hierarchy.next construction.places ([.list 2 1] ++ [.list 1 0]) :=
    .cons (by decide) (.single (by decide))
  have heq := hone (.list 1 0) (by decide) _ _ hfirst hsecond
  cases heq

theorem one_place_reported_as_duplicate : ¬ CreatesBases construction
    (fun a σ => (a.i, σ) : Argument 3 3 → BaseState Nat Unit → Nat × BaseState Nat Unit)
    (fun _ _ => id) := by
  rintro ⟨⟨s, hs, hiff⟩, -⟩
  obtain ⟨s', hs', hdup, -⟩ := construction.collects
  obtain rfl := hs.unique hs'
  have hreported : s.diagnostics ≠ [] := fun hd => not_oneWay (hdup.mp hd).1
  exact not_twoPlaces (hiff.mp hreported)

/-- So the check of `C` reports it, too. -/
theorem check_reports : ∃ ds, Settles (fun fuel => hierarchy.checkBaseArgs fuel 2) ds ∧ ds ≠ [] := by
  obtain ⟨ds, hs, hds⟩ := Hierarchy.Construction.checkBaseArgs_settles hierarchy (c := 2) rfl
  exact ⟨ds, hs, fun hd => not_oneWay (hds.mp hd construction rfl).1⟩

end Chain

end Solang.Codegen
