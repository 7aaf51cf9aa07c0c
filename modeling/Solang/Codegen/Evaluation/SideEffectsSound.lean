import Solang.Codegen.Evaluation.IncDec
import Solang.Codegen.Evaluation.SideEffects

/-!
# What is kept of a dropped value

Every change that the code of an expression makes is in its log, under a location of the expression. Two sub-expressions
have different locations, so that the log of the visit has the effects of the evaluation exactly if each part of it has
the effects of its part.
-/

namespace Solang.Codegen.Evaluation

variable {ctx : Context} {α β : Type}

/-! ## Locations and effects -/

/-- What an event does to the state -/
def Event.apply (calls : Calls) (s : State) (event : Event) : State :=
  match event.effect with
  | .write p v => Function.update s p v
  | .call callee args => (calls callee args s).elim s Prod.snd

/-- The code does nothing but what it logs, under these locations. -/
abbrev Logs (ctx : Context) (locs : List Nat) (m : Code α) : Prop :=
  m.Follows (Event.apply ctx.calls) (·.loc ∈ locs)

variable {locs : List Nat}

theorem logs_write {loc : Nat} (h : loc ∈ locs) (p : Place) (v : Nat) : Logs ctx locs (write loc p v) :=
  Logged.follows_perform (fun _ _ _ hs => (Prod.mk.inj (Option.some.inj hs)).2.symm) h

theorem logs_call {loc : Nat} (h : loc ∈ locs) (callee : Callee) (args : List Tree) :
    Logs ctx locs (call loc ctx.calls callee args) := by
  refine (silent_forceAll args).follows.bind fun vs => Logged.Follows.bind ?_ fun _ => (Logged.silent_pure _).follows
  refine Logged.follows_perform (fun s a s' hs => ?_) h
  simp [Event.apply, hs]

theorem logs_set {loc : Nat} (h : loc ∈ locs) (varNo : Nat) (expr : Tree) : Logs ctx locs (set loc varNo expr) :=
  (silent_force expr).follows.bind fun _ => logs_write h _ _

theorem logs_storeRef {loc : Nat} (h : loc ∈ locs) (ty : Ty) (dest data : Tree) :
    Logs ctx locs (storeRef loc ty dest data) := by
  cases ty with
  | ref _
  | storageRef _ => exact (silent_force _).follows.bind fun _ => (silent_force _).follows.bind fun _ => logs_write h _ _
  | _ => exact (Logged.silent_ask _).follows

theorem silent_loadRef (ty : Ty) (v : Tree) : (loadRef ty v).Silent := by
  cases ty with
  | storageRef _ => exact silent_loadStorage v
  | _ => exact Logged.silent_pure _

/-- What `arraySubscript` does after its operands -/
theorem arraySubscript_tail (ctx : Context) (layout : Layout) : ∃ k : Tree → Tree → Code Tree, (∀ a i, (k a i).Silent) ∧
    ∀ array index : Code Tree, arraySubscript ctx layout array index = array >>= fun a => index >>= fun i => k a i := by
  refine ⟨fun a i => arraySubscript ctx layout (pure a) (pure i), fun a i => ?_, fun array index => ?_⟩
  · exact silent_arraySubscript ctx layout (Logged.silent_pure a) (Logged.silent_pure i)
  · simp only [arraySubscript, pure_bind]

variable {array index left right cond : Code Tree} {l₁ l₂ : List Nat} {isOr : Bool}

theorem logs_arraySubscript (layout : Layout) (ha : Logs ctx locs array) (hi : Logs ctx locs index) :
    Logs ctx locs (arraySubscript ctx layout array index) := by
  obtain ⟨k, hk, h⟩ := arraySubscript_tail ctx layout
  rw [h]
  exact ha.bind fun a => hi.bind fun i => (hk a i).follows

theorem logs_shortCircuit (isOr : Bool) (hl : Logs ctx locs left) (hr : Logs ctx locs right) :
    Logs ctx locs (shortCircuit isOr left right) := by
  refine hl.bind fun l => (silent_force l).follows.bind fun cond => ?_
  split
  · exact (Logged.silent_pure _).follows
  · exact hr.bind fun r => (silent_force r).follows.bind fun v => (Logged.silent_pure _).follows

theorem logs_conditionalOperator (hc : Logs ctx locs cond) (hl : Logs ctx locs left)
    (hr : Logs ctx locs right) : Logs ctx locs (conditionalOperator cond left right) := by
  refine hc.bind fun cond => (silent_force cond).follows.bind fun c => ?_
  have hset : ∀ expr : Tree, Logs ctx locs (force expr >>= fun v => pure (temp v) : Code Tree) := fun expr =>
    (silent_force expr).follows.bind fun v => (Logged.silent_pure _).follows
  dsimp only
  split
  · exact hl.bind hset
  · exact hr.bind hset

theorem logs_assignSingle {loc : Nat} (h : loc ∈ locs) (left : Expr) {dest : Code Tree} (hd : Logs ctx locs dest)
    (cfgRight : Tree) : Logs ctx locs (assignSingle loc left dest cfgRight) := by
  cases left with
  | «variable» ty varNo => exact (logs_set h varNo cfgRight).bind fun _ => (Logged.silent_pure _).follows
  | _ =>
    exact hd.bind fun dest => (silent_force _).follows.bind fun pos => (logs_storeRef h _ _ _).bind fun _ =>
      (Logged.silent_pure _).follows

theorem logs_assignStorageByte {loc : Nat} (h : loc ∈ locs) (ha : Logs ctx locs array)
    (hi : Logs ctx locs index) (cfgRight : Tree) :
    Logs ctx locs (assignStorageByte loc array index cfgRight) := by
  refine ha.bind fun array => hi.bind fun index => (silent_force _).follows.bind fun pos =>
    (silent_force _).follows.bind fun slot => (silent_force _).follows.bind fun offset =>
      (silent_read _).follows.bind fun length => ?_
  split
  · exact (Logged.silent_ask _).follows
  · exact (logs_write h _ _).bind fun _ => (Logged.silent_pure _).follows

theorem logs_incdec {loc : Nat} (h : loc ∈ locs) (fixity : Fixity) (step : Step) (ty : Conversions.Ty) (unchecked : Bool)
    (var : Expr) (hvar : Logs ctx locs (expression ctx var)) :
    Logs ctx locs (expression ctx (.incdec loc fixity step ty unchecked var)) := by
  have hend : ∀ (m : Code Unit) (v : Tree), Logs ctx locs m → Logs ctx locs (m >>= fun _ => pure v) :=
    fun m v hm => hm.bind fun _ => (Logged.silent_pure v).follows
  cases fixity with
  | pre =>
    refine hvar.bind fun v => (silent_loadRef _ v).follows.bind fun w => (silent_force _).follows.bind fun res => ?_
    dsimp only
    split
    · exact hend _ _ (logs_set h _ _)
    · exact hvar.bind fun dest => hend _ _ (logs_storeRef h _ _ _)
  | post =>
    refine hvar.bind fun v => (silent_loadRef _ v).follows.bind fun w => (silent_force _).follows.bind fun res => ?_
    dsimp only
    split
    · exact hend _ _ (logs_set h _ _)
    · exact hvar.bind fun dest => (silent_force _).follows.bind fun new => hend _ _ (logs_storeRef h _ _ _)

/-- An assignment to what is no byte in storage -/
theorem expression_assign {loc : Nat} {left right : Expr} (h : ∀ array index, left ≠ .storageByte array index) :
    expression ctx (.assign loc left right) = if shouldRemoveAssignment ctx left then expression ctx right
      else expression ctx right >>= assignSingle loc left (expression ctx left) := by
  cases left with
  | storageByte array index => exact absurd rfl (h array index)
  | _ => rfl

theorem logs_assign {loc : Nat} (h : loc ∈ locs) {left right : Expr} (hbyte : ∀ array index, left ≠ .storageByte array index)
    (hleft : Logs ctx locs (expression ctx left)) (hright : Logs ctx locs (expression ctx right)) :
    Logs ctx locs (expression ctx (.assign loc left right)) := by
  rw [expression_assign hbyte]
  split
  · exact hright
  · exact hright.bind fun _ => logs_assignSingle h left hleft _

theorem logs_assign_byte {loc : Nat} (h : loc ∈ locs) {array index right : Expr}
    (ha : Logs ctx locs (expression ctx array)) (hi : Logs ctx locs (expression ctx index))
    (hright : Logs ctx locs (expression ctx right)) :
    Logs ctx locs (expression ctx (.assign loc (.storageByte array index) right)) := by
  rw [expression]
  split
  · exact hright
  · exact hright.bind fun _ => logs_assignStorageByte h ha hi _

theorem subset_left (h : l₁ ++ l₂ ⊆ locs) : l₁ ⊆ locs :=
  fun _ hl => h (List.mem_append_left _ hl)

theorem subset_right (h : l₁ ++ l₂ ⊆ locs) : l₂ ⊆ locs :=
  fun _ hl => h (List.mem_append_right _ hl)

theorem subset_tail {l : Nat} {ls : List Nat} (h : l :: ls ⊆ locs) : ls ⊆ locs :=
  fun _ hl => h (List.mem_cons_of_mem _ hl)

mutual

theorem logs_expression (ctx : Context) {locs : List Nat} : ∀ e : Expr, e.locs ⊆ locs → Logs ctx locs (expression ctx e)
  | .number _ _, _ | .variable _ _, _ | .storageVariable _ _, _ => (Logged.silent_pure _).follows
  | .load _ e, h
  | .cast _ _ e, h
  | .structMember _ e _, h => (logs_expression ctx e h).bind fun _ => (Logged.silent_pure _).follows
  | .storageLoad _ e, h => (logs_expression ctx e h).bind fun v => (silent_loadStorage v).follows
  | .subscript _ layout array index, h =>
    logs_arraySubscript layout (logs_expression ctx array (subset_left h)) (logs_expression ctx index (subset_right h))
  | .storageByte array index, h =>
    (logs_expression ctx array (subset_left h)).bind fun _ =>
      (logs_expression ctx index (subset_right h)).bind fun _ => (Logged.silent_pure _).follows
  | .operator _ _ args, h => (logs_expressions ctx args h).bind fun _ => (Logged.silent_pure _).follows
  | .userDefinedOperator _ _ args, h => (logs_expressions ctx args h).bind fun vs =>
      (silent_forceAll vs).follows.bind fun _ => (Logged.silent_ask _).follows.bind fun _ =>
        (Logged.silent_pure _).follows
  | .and left right, h =>
    logs_shortCircuit false (logs_expression ctx left (subset_left h)) (logs_expression ctx right (subset_right h))
  | .or left right, h =>
    logs_shortCircuit true (logs_expression ctx left (subset_left h)) (logs_expression ctx right (subset_right h))
  | .conditionalOperator _ cond left right, h =>
    logs_conditionalOperator (logs_expression ctx cond (subset_left h))
      (logs_expression ctx left (subset_left (subset_right h)))
      (logs_expression ctx right (subset_right (subset_right h)))
  | .assign loc left right, h => by
    have hright := logs_expression ctx right (subset_right (subset_tail h))
    have hleft := logs_expression ctx left (subset_left (subset_tail h))
    cases left with
    | storageByte array index =>
      have hbyte := subset_left (subset_tail h)
      exact logs_assign_byte (h (List.mem_cons_self ..)) (logs_expression ctx array (subset_left hbyte))
        (logs_expression ctx index (subset_right hbyte)) hright
    | _ => exact logs_assign (h (List.mem_cons_self ..)) (fun _ _ => nofun) hleft hright
  | .incdec loc fixity step ty unchecked var, h =>
    logs_incdec (h (List.mem_cons_self ..)) fixity step ty unchecked var (logs_expression ctx var (subset_tail h))
  | .call loc _ callee args, h =>
    (logs_expressions ctx args (subset_tail h)).bind fun vs => logs_call (h (List.mem_cons_self ..)) callee vs

theorem logs_expressions (ctx : Context) {locs : List Nat} :
    ∀ es : List Expr, locsAll es ⊆ locs → Logs ctx locs (expressions ctx es)
  | [], _ => (Logged.silent_pure _).follows
  | e :: es, h => (logs_expression ctx e (subset_left h)).bind fun _ =>
      (logs_expressions ctx es (subset_right h)).bind fun _ => (Logged.silent_pure _).follows

end

theorem logs_effectsOf {e : Expr} (h : e.locs ⊆ locs) : Logs ctx locs (effectsOf ctx e) :=
  (logs_expression ctx e h).bind fun _ => (Logged.silent_pure _).follows

mutual

theorem logs_sideEffects (ctx : Context) {locs : List Nat} : ∀ e : Expr, e.locs ⊆ locs → Logs ctx locs (sideEffects ctx e)
  | .number _ _, _ | .variable _ _, _ | .storageVariable _ _, _ => (Logged.silent_pure _).follows
  | .load _ e, h | .storageLoad _ e, h | .cast _ _ e, h
  | .structMember _ e _, h => logs_sideEffects ctx e h
  | .subscript _ _ array index, h | .storageByte array index, h =>
    (logs_sideEffects ctx array (subset_left h)).bind fun _ => logs_sideEffects ctx index (subset_right h)
  | .operator _ _ args, h | .userDefinedOperator _ _ args, h => logs_sideEffectsAll ctx args h
  | .and left right, h | .or left right, h =>
    (logs_sideEffects ctx left (subset_left h)).bind fun _ => logs_sideEffects ctx right (subset_right h)
  | .conditionalOperator _ cond left right, h =>
    (logs_sideEffects ctx cond (subset_left h)).bind fun _ =>
      (logs_sideEffects ctx left (subset_left (subset_right h))).bind fun _ =>
        logs_sideEffects ctx right (subset_right (subset_right h))
  | .assign _ _ _, h => logs_effectsOf h
  | .incdec _ _ _ _ _ var, h => logs_sideEffects ctx var (subset_tail h)
  | .call loc ty callee args, h => by
    rw [sideEffects]
    split
    · exact logs_effectsOf h
    · exact logs_sideEffectsAll ctx args (subset_tail h)

theorem logs_sideEffectsAll (ctx : Context) {locs : List Nat} :
    ∀ es : List Expr, locsAll es ⊆ locs → Logs ctx locs (sideEffectsAll ctx es)
  | [], _ => (Logged.silent_pure _).follows
  | e :: es, h =>
    (logs_sideEffects ctx e (subset_left h)).bind fun _ => logs_sideEffectsAll ctx es (subset_right h)

end

/-! ## What is lost -/

/-- A run that completes logs an effect at the location. -/
def Marks (loc : Nat) (m : Code α) : Prop :=
  ∀ s t a s', m.run s = ⟨t, some (a, s')⟩ → ∃ event ∈ t, event.loc = loc

variable {loc : Nat}

theorem Marks.then {m : Code α} (hm : Marks loc m) (f : α → Code β) : Marks loc (m >>= f) := by
  intro s t b s' h
  obtain ⟨t₁, ⟨a, s₁⟩, t₂, h₁, -, rfl⟩ := Traced.bind_eq_some h
  obtain ⟨event, hevent, hloc⟩ := hm s t₁ a s₁ h₁
  exact ⟨event, List.mem_append_left _ hevent, hloc⟩

theorem marks_bind {m : Code α} {f : α → Code β} (hf : ∀ a, Marks loc (f a)) : Marks loc (m >>= f) := by
  intro s t b s' h
  obtain ⟨t₁, ⟨a, s₁⟩, t₂, -, h₂, rfl⟩ := Traced.bind_eq_some h
  obtain ⟨event, hevent, hloc⟩ := hf a s₁ t₂ b s' h₂
  exact ⟨event, List.mem_append_right _ hevent, hloc⟩

theorem marks_perform (effect : Effect) (f : State → Option (α × State)) :
    Marks loc (Logged.perform ⟨loc, effect⟩ f) := by
  intro s t a s' h
  obtain ⟨rfl, -⟩ := Traced.mk.inj h
  exact ⟨_, List.mem_singleton_self _, rfl⟩

theorem marks_set (varNo : Nat) (expr : Tree) : Marks loc (set loc varNo expr) :=
  marks_bind fun _ => marks_perform _ _

theorem marks_storeRef (ty : Ty) (dest data : Tree) : Marks loc (storeRef loc ty dest data) := by
  cases ty with
  | ref _ | storageRef _ => exact marks_bind fun _ => marks_bind fun _ => marks_perform _ _
  | _ => exact fun _ _ _ _ => nofun

theorem marks_incdec (fixity : Fixity) (step : Step) (ty : Conversions.Ty) (unchecked : Bool) (var : Expr) :
    Marks loc (expression ctx (.incdec loc fixity step ty unchecked var)) := by
  cases fixity with
  | pre =>
    refine marks_bind fun v => marks_bind fun w => marks_bind fun res => ?_
    dsimp only
    split
    · exact (marks_set _ _).then _
    · exact marks_bind fun dest => (marks_storeRef _ _ _).then _
  | post =>
    refine marks_bind fun v => marks_bind fun w => marks_bind fun res => ?_
    dsimp only
    split
    · exact (marks_set _ _).then _
    · exact marks_bind fun dest => marks_bind fun new => (marks_storeRef _ _ _).then _

theorem marks_call (ty : Ty) (callee : Callee) (args : List Expr) :
    Marks loc (expression ctx (.call loc ty callee args)) :=
  marks_bind fun _ => marks_bind fun _ => (marks_perform _ _).then _

/-- What has an effect at the location is not the same as what has none there. -/
theorem run_ne_of_marks {m : Code α} {k : Code Unit} (hm : Marks loc m) (hk : Logs ctx locs k) (h : loc ∉ locs)
    {s s' : State} {t : List Event} {a : α} (hrun : m.run s = ⟨t, some (a, s')⟩) : k.run s ≠ ⟨t, some ((), s')⟩ := by
  intro hrun'
  obtain ⟨event, hevent, rfl⟩ := hm s t a s' hrun
  exact h ((hk s t () s' hrun').2 event hevent)

/-! ## What is kept -/

theorem effectsOfAll_append (es es' : List Expr) :
    effectsOfAll ctx (es ++ es') = effectsOfAll ctx es >>= fun _ => effectsOfAll ctx es' := by
  induction es with
  | nil => exact (pure_bind _ _).symm
  | cons e es ih =>
    show effectsOf ctx e >>= (fun _ => effectsOfAll ctx (es ++ es')) = _
    rw [ih, effectsOfAll, bind_assoc]

theorem effectsOfAll_singleton (e : Expr) : effectsOfAll ctx [e] = effectsOf ctx e := by
  show effectsOf ctx e >>= (fun _ => pure ()) = _
  exact bind_pure_unit

mutual

theorem sideEffects_eq (ctx : Context) : ∀ e : Expr, sideEffects ctx e = effectsOfAll ctx e.kept
  | .number _ _ => rfl
  | .variable _ _ => rfl
  | .storageVariable _ _ => rfl
  | .load _ e | .storageLoad _ e | .cast _ _ e | .structMember _ e _ => sideEffects_eq ctx e
  | .subscript _ _ array index | .storageByte array index => by
    rw [sideEffects, Expr.kept, effectsOfAll_append, sideEffects_eq ctx array, sideEffects_eq ctx index]
  | .operator _ _ args | .userDefinedOperator _ _ args => sideEffectsAll_eq ctx args
  | .and left right | .or left right => by
    rw [sideEffects, Expr.kept, effectsOfAll_append, sideEffects_eq ctx left, sideEffects_eq ctx right]
  | .conditionalOperator _ cond left right => by
    rw [sideEffects, Expr.kept, effectsOfAll_append, effectsOfAll_append, sideEffects_eq ctx cond,
      sideEffects_eq ctx left, sideEffects_eq ctx right]
  | .assign _ _ _ => (effectsOfAll_singleton _).symm
  | .incdec _ _ _ _ _ var => sideEffects_eq ctx var
  | .call loc ty callee args => by
    rw [sideEffects, Expr.kept]
    split
    · exact (effectsOfAll_singleton _).symm
    · exact sideEffectsAll_eq ctx args

theorem sideEffectsAll_eq (ctx : Context) : ∀ es : List Expr, sideEffectsAll ctx es = effectsOfAll ctx (keptAll es)
  | [] => rfl
  | e :: es => by
    rw [sideEffectsAll, keptAll, effectsOfAll_append, sideEffects_eq ctx e, sideEffectsAll_eq ctx es]

end

theorem run_effectsOf_iff {e : Expr} {s s' : State} {t : List Event} :
    (effectsOf ctx e).run s = ⟨t, some ((), s')⟩ ↔ ∃ v, (expression ctx e).run s = ⟨t, some (v, s')⟩ := by
  constructor
  · intro h
    obtain ⟨v, hv, -⟩ := Logged.run_bind_silent (fun _ => Logged.silent_pure _) h
    exact ⟨v, hv⟩
  · rintro ⟨v, hv⟩
    rw [effectsOf, Logged.run_bind_some hv, Logged.run_pure, List.append_nil]

theorem run_effectsOfAll_iff (es : List Expr) (s : State) :
    (effectsOfAll ctx es).run s = ⟨[], some ((), s)⟩ ↔ Skipped ctx es s := by
  induction es with
  | nil => exact ⟨fun _ e he => absurd he List.not_mem_nil, fun _ => rfl⟩
  | cons e es ih =>
    rw [Skipped, List.forall_mem_cons, ← Skipped, ← ih, ← run_effectsOf_iff, effectsOfAll]
    constructor
    · intro h
      obtain ⟨t₁, ⟨⟨⟩, s₁⟩, t₂, h₁, h₂, ht⟩ := Traced.bind_eq_some h
      obtain ⟨rfl, rfl⟩ := List.append_eq_nil_iff.mp ht.symm
      obtain rfl := (effectsOf ctx e).quiet s () s₁ h₁
      exact ⟨h₁, h₂⟩
    · rintro ⟨h₁, h₂⟩
      rw [Logged.run_bind_some h₁, h₂]
      rfl

theorem run_sideEffects_skipped (e : Expr) (s : State) :
    (sideEffects ctx e).run s = ⟨[], some ((), s)⟩ ↔ Skipped ctx e.kept s := by
  rw [sideEffects_eq, run_effectsOfAll_iff]

/-! ## The visit against the evaluation -/

/-- The effects of two parts of an expression are there if the effects of each part are. -/
theorem run_both_iff {locs' : List Nat} (hdisj : locs.Disjoint locs') {m k : Code Unit}
    {whole : Code α} {rest : Code β} (hm : Logs ctx locs m) (hk : Logs ctx locs' k)
    (hwhole : Logs ctx locs whole) (hrest : Logs ctx locs' rest) {s s₁ s₂ : State}
    {t₁ t₂ : List Event} {a : α} {b : β} (h₁ : whole.run s = ⟨t₁, some (a, s₁)⟩)
    (h₂ : rest.run s₁ = ⟨t₂, some (b, s₂)⟩) :
    (m >>= fun _ => k).run s = ⟨t₁ ++ t₂, some ((), s₂)⟩ ↔
      m.run s = ⟨t₁, some ((), s₁)⟩ ∧ k.run s₁ = ⟨t₂, some ((), s₂)⟩ := by
  obtain ⟨rfl, ht₁⟩ := hwhole s t₁ a s₁ h₁
  exact Logged.run_seq_iff (fun _ h h' => hdisj h h') hm hk ht₁ (hrest _ t₂ b s₂ h₂).2 s s₂

theorem run_force_bind {tree : Tree} {k : Nat → Code α} {s s' : State} {t : List Event} {a : α}
    (h : (force tree >>= k).run s = ⟨t, some (a, s')⟩) : ∃ n, tree s = some n ∧ (k n).run s = ⟨t, some (a, s')⟩ := by
  cases hn : tree s with
  | none =>
    cases (Logged.run_bind_none (Logged.run_ask_none hn)).symm.trans h
  | some n =>
    refine ⟨n, rfl, ?_⟩
    rw [← h]
    exact (Logged.run_ask_bind hn).symm

/-- A run of `&&` or `||` that completes -/
theorem run_shortCircuit {s s' : State} {t : List Event} {v : Tree}
    (h : (shortCircuit isOr left right).run s = ⟨t, some (v, s')⟩) :
    ∃ t₁ l s₁ c, left.run s = ⟨t₁, some (l, s₁)⟩ ∧ l s₁ = some c ∧
      if (c != 0) = isOr then t = t₁ ∧ s' = s₁
      else ∃ r t₂, right.run s₁ = ⟨t₂, some (r, s')⟩ ∧ t = t₁ ++ t₂ := by
  obtain ⟨t₁, ⟨l, s₁⟩, t', h₁, h', rfl⟩ := Traced.bind_eq_some h
  obtain ⟨c, hc, h'⟩ := run_force_bind h'
  refine ⟨t₁, l, s₁, c, h₁, hc, ?_⟩
  split at h'
  · next hcond =>
    rw [if_pos hcond]
    cases h'
    exact ⟨List.append_nil t₁, rfl⟩
  · next hcond =>
    rw [if_neg hcond]
    obtain ⟨r, hr, -⟩ := Logged.run_bind_silent (fun r => (silent_force r).bind fun _ => Logged.silent_pure _) h'
    exact ⟨r, t', hr, rfl⟩

/-- A run of `?:` that completes -/
theorem run_conditionalOperator {s s' : State} {t : List Event} {v : Tree}
    (h : (conditionalOperator cond left right).run s = ⟨t, some (v, s')⟩) :
    ∃ t₁ l s₁ c r t₂, cond.run s = ⟨t₁, some (l, s₁)⟩ ∧ l s₁ = some c ∧
      (if c ≠ 0 then left else right).run s₁ = ⟨t₂, some (r, s')⟩ ∧ t = t₁ ++ t₂ := by
  obtain ⟨t₁, ⟨l, s₁⟩, t', h₁, h', rfl⟩ := Traced.bind_eq_some h
  obtain ⟨c, hc, h'⟩ := run_force_bind h'
  have h' : ((if c ≠ 0 then left else right) >>= fun r => force r >>= fun v => pure (temp v)).run s₁ =
      ⟨t', some (v, s')⟩ := by
    rw [← h']
    dsimp only
    split <;> rfl
  obtain ⟨r, hr, -⟩ := Logged.run_bind_silent (fun r => (silent_force r).bind fun _ => Logged.silent_pure _) h'
  exact ⟨t₁, l, s₁, c, r, t', h₁, hc, hr, rfl⟩

theorem run_evaluate {e : Expr} {s s' : State} {t : List Event} {v : Tree} {n : Nat}
    (h : (expression ctx e).run s = ⟨t, some (v, s')⟩) (hn : v s' = some n) :
    (evaluate ctx e).run s = ⟨t, some (n, s')⟩ := by
  rw [evaluate, Logged.run_bind_some h, show (force v).run s' = ⟨[], some (n, s')⟩ from Logged.run_ask_some hn,
    List.append_nil]

/-- Where the evaluation completes, the visit of the expression has its effects if and only if it is aligned. -/
def VisitIff (ctx : Context) (e : Expr) : Prop :=
  ∀ s t v s', (expression ctx e).run s = ⟨t, some (v, s')⟩ →
    ((sideEffects ctx e).run s = ⟨t, some ((), s')⟩ ↔ Aligned ctx e s)

def VisitAllIff (ctx : Context) (es : List Expr) : Prop :=
  ∀ s t vs s', (expressions ctx es).run s = ⟨t, some (vs, s')⟩ →
    ((sideEffectsAll ctx es).run s = ⟨t, some ((), s')⟩ ↔ AlignedAll ctx es s)

variable {e e' : Expr} {s s₁ s' : State} {t t₁ t₂ : List Event} {v v' : Tree}

/-- Two operands that are both evaluated -/
theorem visit_pair_iff (hn : (e.locs ++ e'.locs).Nodup) (ih : VisitIff ctx e) (ih' : VisitIff ctx e')
    (h₁ : (expression ctx e).run s = ⟨t₁, some (v, s₁)⟩) (h₂ : (expression ctx e').run s₁ = ⟨t₂, some (v', s')⟩) :
    (sideEffects ctx e >>= fun _ => sideEffects ctx e').run s = ⟨t₁ ++ t₂, some ((), s')⟩ ↔
      Aligned ctx e s ∧ Aligned ctx e' s₁ := by
  rw [run_both_iff (List.disjoint_of_nodup_append hn) (logs_sideEffects ctx e (List.Subset.refl _))
    (logs_sideEffects ctx e' (List.Subset.refl _)) (logs_expression ctx e (List.Subset.refl _))
    (logs_expression ctx e' (List.Subset.refl _)) h₁ h₂, ih s t₁ v s₁ h₁, ih' s₁ t₂ v' s' h₂]

/-- An operand after which another is not evaluated -/
theorem visit_skipped_iff (hn : (e.locs ++ e'.locs).Nodup) (ih : VisitIff ctx e)
    (h : (expression ctx e).run s = ⟨t, some (v, s')⟩) :
    (sideEffects ctx e >>= fun _ => sideEffects ctx e').run s = ⟨t, some ((), s')⟩ ↔
      Aligned ctx e s ∧ Skipped ctx e'.kept s' := by
  have hnone : Logs ctx e'.locs (pure () : Code Unit) := (Logged.silent_pure ()).follows
  have hrun := run_both_iff (List.disjoint_of_nodup_append hn) (logs_sideEffects ctx e (List.Subset.refl _))
    (logs_sideEffects ctx e' (List.Subset.refl _)) (logs_expression ctx e (List.Subset.refl _)) hnone h
    (Logged.run_pure () s')
  rw [List.append_nil] at hrun
  rw [hrun, ih s t v s' h, run_sideEffects_skipped]

theorem visit_shortCircuit_iff (hn : (e.locs ++ e'.locs).Nodup) (ih : VisitIff ctx e)
    (ih' : VisitIff ctx e')
    (h : (shortCircuit isOr (expression ctx e) (expression ctx e')).run s = ⟨t, some (v, s')⟩) :
    (sideEffects ctx e >>= fun _ => sideEffects ctx e').run s = ⟨t, some ((), s')⟩ ↔
      Aligned ctx e s ∧ After (evaluate ctx e) s fun l s' =>
        if (l != 0) = isOr then Skipped ctx e'.kept s' else Aligned ctx e' s' := by
  obtain ⟨t₁, l, s₁, c, h₁, hc, hrest⟩ := run_shortCircuit h
  rw [after_iff (run_evaluate h₁ hc)]
  split at hrest
  · next hcond =>
    obtain ⟨rfl, rfl⟩ := hrest
    rw [if_pos hcond, visit_skipped_iff hn ih h₁]
  · next hcond =>
    obtain ⟨r, t₂, h₂, rfl⟩ := hrest
    rw [if_neg hcond, visit_pair_iff hn ih ih' h₁ h₂]

theorem visit_conditional_iff {cond : Expr} (hn : (cond.locs ++ (e.locs ++ e'.locs)).Nodup) (ihc : VisitIff ctx cond)
    (ih : VisitIff ctx e) (ih' : VisitIff ctx e')
    (h : (conditionalOperator (expression ctx cond) (expression ctx e) (expression ctx e')).run s = ⟨t, some (v, s')⟩) :
    (sideEffects ctx cond >>= fun _ => sideEffects ctx e >>= fun _ => sideEffects ctx e').run s =
        ⟨t, some ((), s')⟩ ↔
      Aligned ctx cond s ∧ After (evaluate ctx cond) s fun c s' =>
        if c ≠ 0 then Aligned ctx e s' ∧ After (expression ctx e) s' fun _ s'' => Skipped ctx e'.kept s''
        else Skipped ctx e.kept s' ∧ Aligned ctx e' s' := by
  have hn' := (List.nodup_append'.mp hn).2.1
  obtain ⟨t₁, l, s₁, c, r, t₂, h₁, hc, h₂, rfl⟩ := run_conditionalOperator h
  have hrest : Logs ctx (e.locs ++ e'.locs) (sideEffects ctx e >>= fun _ => sideEffects ctx e') :=
    (logs_sideEffects ctx e (List.subset_append_left _ _)).bind fun _ =>
      logs_sideEffects ctx e' (List.subset_append_right _ _)
  have hbranch : Logs ctx (e.locs ++ e'.locs) (if c ≠ 0 then expression ctx e else expression ctx e') := by
    split
    · exact logs_expression ctx e (List.subset_append_left _ _)
    · exact logs_expression ctx e' (List.subset_append_right _ _)
  rw [run_both_iff (List.disjoint_of_nodup_append hn) (logs_sideEffects ctx cond (List.Subset.refl _)) hrest
    (logs_expression ctx cond (List.Subset.refl _)) hbranch h₁ h₂, ihc s t₁ l s₁ h₁, after_iff (run_evaluate h₁ hc)]
  split at h₂
  · next hcond => rw [if_pos hcond, after_iff h₂, visit_skipped_iff hn' ih h₂]
  · next hcond =>
    have hnone : Logs ctx e.locs (pure () : Code Unit) := (Logged.silent_pure ()).follows
    have hrun := run_both_iff (List.disjoint_of_nodup_append hn') (logs_sideEffects ctx e (List.Subset.refl _))
      (logs_sideEffects ctx e' (List.Subset.refl _)) hnone (logs_expression ctx e' (List.Subset.refl _))
      (Logged.run_pure () s₁) h₂
    rw [List.nil_append] at hrun
    rw [if_neg hcond, hrun, run_sideEffects_skipped, ih' s₁ t₂ r s' h₂]

mutual

theorem visit_iff (ctx : Context) : ∀ e : Expr, e.locs.Nodup → VisitIff ctx e
  | .number _ _, _, _, _, _, _, h | .variable _ _, _, _, _, _, _, h
  | .storageVariable _ _, _, _, _, _, _, h => by
    cases h
    exact ⟨fun _ => trivial, fun _ => rfl⟩
  | .load _ e, hn, s, t, v, s', h | .cast _ _ e, hn, s, t, v, s', h
  | .structMember _ e _, hn, s, t, v, s', h => by
    obtain ⟨v', h', -⟩ := Logged.run_bind_silent (fun _ => Logged.silent_pure _) h
    exact visit_iff ctx e hn s t v' s' h'
  | .storageLoad _ e, hn, s, t, v, s', h => by
    obtain ⟨v', h', -⟩ := Logged.run_bind_silent silent_loadStorage h
    exact visit_iff ctx e hn s t v' s' h'
  | .subscript _ layout array index, hn, s, t, v, s', h => by
    obtain ⟨k, hk, htail⟩ := arraySubscript_tail ctx layout
    rw [expression, htail] at h
    obtain ⟨t₁, ⟨a, s₁⟩, t₂, h₁, h₂, rfl⟩ := Traced.bind_eq_some h
    obtain ⟨i, h₂, -⟩ := Logged.run_bind_silent (hk a) h₂
    rw [Aligned, after_iff h₁]
    have hn' := List.nodup_append'.mp hn
    exact visit_pair_iff hn (visit_iff ctx array hn'.1) (visit_iff ctx index hn'.2.1) h₁ h₂
  | .storageByte array index, hn, s, t, v, s', h => by
    obtain ⟨t₁, ⟨a, s₁⟩, t₂, h₁, h₂, rfl⟩ := Traced.bind_eq_some h
    obtain ⟨i, h₂, -⟩ := Logged.run_bind_silent (fun _ => Logged.silent_pure _) h₂
    rw [Aligned, after_iff h₁]
    have hn' := List.nodup_append'.mp hn
    exact visit_pair_iff hn (visit_iff ctx array hn'.1) (visit_iff ctx index hn'.2.1) h₁ h₂
  | .operator _ _ args, hn, s, t, v, s', h => by
    obtain ⟨vs, h', -⟩ := Logged.run_bind_silent (fun _ => Logged.silent_pure _) h
    exact visitAll_iff ctx args hn s t vs s' h'
  | .userDefinedOperator _ _ args, hn, s, t, v, s', h => by
    obtain ⟨vs, h', -⟩ := Logged.run_bind_silent (fun vs => (silent_forceAll vs).bind fun _ =>
      (Logged.silent_ask _).bind fun _ => Logged.silent_pure _) h
    exact visitAll_iff ctx args hn s t vs s' h'
  | .and left right, hn, s, t, v, s', h | .or left right, hn, s, t, v, s', h => by
    have hn' := List.nodup_append'.mp hn
    have hiff := visit_shortCircuit_iff hn (visit_iff ctx left hn'.1) (visit_iff ctx right hn'.2.1) h
    simpa [sideEffects, Aligned, ite_not] using hiff
  | .conditionalOperator _ cond left right, hn, s, t, v, s', h => by
    have hn' := List.nodup_append'.mp hn
    have hn'' := List.nodup_append'.mp hn'.2.1
    exact visit_conditional_iff hn (visit_iff ctx cond hn'.1) (visit_iff ctx left hn''.1) (visit_iff ctx right hn''.2.1) h
  | .assign _ _ _, _, s, t, v, s', h => ⟨fun _ => trivial, fun _ => run_effectsOf_iff.mpr ⟨v, h⟩⟩
  | .incdec loc fixity step ty unchecked var, hn, s, t, v, s', h =>
    -- the visit goes on to the operand, whose effects are at other locations
    have hlost := run_ne_of_marks (marks_incdec fixity step ty unchecked var)
      (logs_sideEffects ctx var (List.Subset.refl _)) (List.nodup_cons.mp hn).1 h
    ⟨fun hrun => hlost hrun, False.elim⟩
  | .call loc ty callee args, hn, s, t, v, s', h => by
    rw [sideEffects, Aligned]
    split
    · next hcallee => exact ⟨fun _ => hcallee, fun _ => run_effectsOf_iff.mpr ⟨v, h⟩⟩
    · next hcallee =>
      have hlost := run_ne_of_marks (marks_call ty callee args)
        (logs_sideEffectsAll ctx args (List.Subset.refl _)) (List.nodup_cons.mp hn).1 h
      exact ⟨fun hrun => absurd hrun hlost, fun hkept => absurd hkept hcallee⟩

theorem visitAll_iff (ctx : Context) : ∀ es : List Expr, (locsAll es).Nodup → VisitAllIff ctx es
  | [], _, _, _, _, _, h => by
    cases h
    exact ⟨fun _ => trivial, fun _ => rfl⟩
  | e :: es, hn, s, t, vs, s', h => by
    obtain ⟨t₁, ⟨v, s₁⟩, t₂, h₁, h₂, rfl⟩ := Traced.bind_eq_some h
    obtain ⟨vs', h₂, -⟩ := Logged.run_bind_silent (fun _ => Logged.silent_pure _) h₂
    have hn' := List.nodup_append'.mp hn
    rw [sideEffectsAll, AlignedAll, after_iff h₁, run_both_iff (List.disjoint_of_nodup_append hn)
      (logs_sideEffects ctx e (List.Subset.refl _)) (logs_sideEffectsAll ctx es (List.Subset.refl _))
      (logs_expression ctx e (List.Subset.refl _)) (logs_expressions ctx es (List.Subset.refl _)) h₁ h₂,
      visit_iff ctx e hn'.1 s t₁ v s₁ h₁, visitAll_iff ctx es hn'.2.1 s₁ t₂ vs' s' h₂]

end

/-! ## Statements -/

theorem statement_dropped {st : Statement} (h : st.droppedValue ctx = some e) : statement ctx st = sideEffects ctx e := by
  cases st with
  | variableDecl loc varNo init =>
    rw [Statement.droppedValue] at h
    split at h
    · next hremoved =>
      obtain rfl := Option.some.inj h
      rw [statement, if_pos hremoved]
    · cases h
  | expression expr =>
    cases expr with
    | assign loc left right =>
      rw [Statement.droppedValue] at h
      split at h
      · next hremoved =>
        obtain rfl := Option.some.inj h
        rw [statement, if_pos hremoved]
      · cases h
    | _ => cases h

namespace Sample

/-- No variable is read, and each function returns one. -/
def unused : Context :=
  { noCalls with
    calls := fun _ _ s => some (1, s)
    removed := fun _ => true }

def zero : State := fun _ => 0

def called : Expr := .call 2 (.other 0) (.internalFunction 0) []

end Sample

end Solang.Codegen.Evaluation
