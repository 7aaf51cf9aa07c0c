import Solang.Sema.Inheritance

/-!
# Complete contracts

A run of the check without errors treats each function in one of five ways
(`Step`). The invariant is about one signature: once nothing is needed for it,
the last declaration is the one that is selected.
-/

namespace Solang.Sema.Program

variable {n m : Nat} {p : Program n m} {st : InheritanceState m}

theorem errorIf_diagnostics {b : Bool} {message : String}
    (h : (st.errorIf b message).diagnostics = []) : st.errorIf b message = st := by
  cases b with
  | false => rfl
  | true => simp [InheritanceState.errorIf, InheritanceState.error] at h

theorem errors_diagnostics {messages : List String}
    (h : (st.errors messages).diagnostics = []) : st.errors messages = st := by
  rw [InheritanceState.errors, List.append_eq_nil_iff] at h
  rw [InheritanceState.errors, h.2, List.append_nil]

theorem error_diagnostics {message : String} : (st.error message).diagnostics ≠ [] := by
  simp [InheritanceState.error]

/-- Without errors, `cur` overrides the functions of the entry. -/
theorem checkEntry_spec {entry : List (Nat × Fin m)} {no : Fin m}
    (h : (p.checkEntry entry no st).diagnostics = []) :
    p.checkEntry entry no st = st.overridden (p.functions no).signature ∧
      ((p.functions no).isOverride.isSome ∨ ∃ e, entry = [e]) := by
  unfold checkEntry at h ⊢
  dsimp only at h ⊢
  cases hov : (p.functions no).isOverride with
  | some list =>
    rw [hov] at h
    dsimp only at h ⊢
    have h3 := errors_diagnostics h
    have h2 := errors_diagnostics (h3 ▸ h)
    have h1 := errorIf_diagnostics (h2 ▸ h3 ▸ h)
    rw [h3, h2, h1]
    exact ⟨rfl, .inl rfl⟩
  | none =>
    rw [hov] at h
    dsimp only at h ⊢
    split at h
    · have h3 := errors_diagnostics h
      have h2 := errorIf_diagnostics (h3 ▸ h)
      have h1 := errorIf_diagnostics (h2 ▸ h3 ▸ h)
      rw [h3, h2, h1]
      exact ⟨rfl, .inr ⟨_, rfl⟩⟩
    · exact absurd h error_diagnostics

/-- The function is not marked `override` but has a body. -/
def Redefines (p : Program n m) (no : Fin m) : Prop :=
  (p.functions no).isOverride = none ∧ (p.functions no).hasBody = true

theorem checkPrevious_spec {base : Fin n} {no prev : Fin m}
    (h : (p.checkPrevious base no st prev).diagnostics = []) :
    (¬ p.Redefines no ∧ p.checkPrevious base no st prev = st) ∨
    (p.Redefines no ∧ p.checkPrevious base no st prev = st.need (p.functions no).signature
      (match st.overrideNeeded.lookup (p.functions no).signature with
        | some entry => entry ++ [(base.val, no)]
        | none => [((p.functions prev).contractNo.getD 0, prev), (base.val, no)])) := by
  unfold checkPrevious at h ⊢
  dsimp only at h ⊢
  split at h
  · exact absurd h error_diagnostics
  split at h
  · exact absurd h error_diagnostics
  split at h
  · exact absurd h error_diagnostics
  split at h
  · exact absurd h error_diagnostics
  rename_i h1 h2 h3 h4
  rw [if_neg h1, if_neg h2, if_neg h3, if_neg h4]
  cases hov : (p.functions no).isOverride with
  | some list =>
    rw [hov] at h
    dsimp only at h ⊢
    split at h
    · exact absurd h error_diagnostics
    split at h
    · exact absurd h error_diagnostics
    rename_i h5 h6
    rw [if_neg h5, if_neg h6]
    exact .inl ⟨fun hr => by simp [Redefines, hov] at hr, errors_diagnostics h⟩
  | none =>
    rw [hov] at h
    dsimp only at h ⊢
    cases hb : (p.functions no).hasBody with
    | false =>
      rw [hb] at h
      exact .inl ⟨fun hr => by simp [Redefines, hb] at hr, errors_diagnostics h⟩
    | true =>
      rw [hb] at h
      have herr : st.errors (baseFunctionCompatible (p.functions prev) (p.functions no)) = st := by
        refine errors_diagnostics ?_
        rw [if_pos rfl] at h
        split at h <;> exact h
      refine .inr ⟨⟨hov, hb⟩, ?_⟩
      rw [if_pos rfl, herr]
      cases st.overrideNeeded.lookup (p.functions no).signature <;> rfl

/-- What stays when the tables change at the signature of `no` only. -/
structure Frame (st st' : InheritanceState m) (signature : String) : Prop where
  needed : ∀ s, s ≠ signature → st'.overrideNeeded.lookup s = st.overrideNeeded.lookup s
  virtual : st'.virtualFunctions = st.virtualFunctions
  all : st'.allFunctions = st.allFunctions

theorem Frame.refl (st : InheritanceState m) (signature : String) : Frame st st signature :=
  ⟨fun _ _ => rfl, rfl, rfl⟩

theorem Frame.trans {st st' st'' : InheritanceState m} {signature : String}
    (h : Frame st st' signature) (h' : Frame st' st'' signature) : Frame st st'' signature :=
  ⟨fun s hs => (h'.needed s hs).trans (h.needed s hs), h'.virtual.trans h.virtual,
    h'.all.trans h.all⟩

theorem frame_need (signature : String) (entry : List (Nat × Fin m)) :
    Frame st (st.need signature entry) signature :=
  ⟨fun _ hs => AList.lookup_insert_ne hs, rfl, rfl⟩

theorem frame_overridden (signature : String) : Frame st (st.overridden signature) signature :=
  ⟨fun _ hs => AList.lookup_erase_ne hs, rfl, rfl⟩

theorem checkPrevious_diagnostics_of {base : Fin n} {no prev : Fin m}
    (h : (p.checkPrevious base no st prev).diagnostics = []) : st.diagnostics = [] := by
  obtain ⟨-, heq⟩ | ⟨-, heq⟩ := checkPrevious_spec h
  · rwa [heq] at h
  · rw [heq] at h
    exact h

theorem foldl_checkPrevious_diagnostics {base : Fin n} {no : Fin m} (l : List (Fin m))
    (h : (l.foldl (p.checkPrevious base no) st).diagnostics = []) : st.diagnostics = [] := by
  induction l generalizing st with
  | nil => exact h
  | cons prev l ih => exact checkPrevious_diagnostics_of (ih h)

theorem foldl_checkPrevious_keep {base : Fin n} {no : Fin m} (hr : ¬ p.Redefines no)
    (l : List (Fin m)) (h : (l.foldl (p.checkPrevious base no) st).diagnostics = []) :
    l.foldl (p.checkPrevious base no) st = st := by
  induction l generalizing st with
  | nil => rfl
  | cons prev l ih =>
    have hd := foldl_checkPrevious_diagnostics l h
    obtain ⟨-, heq⟩ | ⟨hr', -⟩ := checkPrevious_spec hd
    · rw [List.foldl_cons] at h ⊢
      rw [ih h, heq]
    · exact absurd hr' hr

/-- An entry of at least two functions, which are `no` and others of `l`. -/
def Ambiguous (l : List (Fin m)) (no : Fin m) (entry : List (Nat × Fin m)) : Prop :=
  2 ≤ entry.length ∧ ∀ e ∈ entry, e.2 = no ∨ e.2 ∈ l

/-- A function with a body that redefines others is ambiguous with them. -/
theorem foldl_checkPrevious_redefines {base : Fin n} {no : Fin m} (hr : p.Redefines no)
    (l all : List (Fin m)) (hl : ∀ x ∈ l, x ∈ all)
    (h : (l.foldl (p.checkPrevious base no) st).diagnostics = [])
    (hst : l ≠ [] ∧ st.overrideNeeded.lookup (p.functions no).signature = none ∨
      ∃ entry, st.overrideNeeded.lookup (p.functions no).signature = some entry ∧
        Ambiguous all no entry) :
    Frame st (l.foldl (p.checkPrevious base no) st) (p.functions no).signature ∧
    ∃ entry, (l.foldl (p.checkPrevious base no) st).overrideNeeded.lookup
      (p.functions no).signature = some entry ∧ Ambiguous all no entry := by
  induction l generalizing st with
  | nil =>
    obtain ⟨hne, -⟩ | hst := hst
    · exact absurd rfl hne
    · exact ⟨.refl _ _, hst⟩
  | cons prev l ih =>
    have hd := foldl_checkPrevious_diagnostics l h
    obtain ⟨hr', -⟩ | ⟨-, heq⟩ := checkPrevious_spec hd
    · exact absurd hr hr'
    · rw [List.foldl_cons] at h ⊢
      have hprev : prev ∈ all := hl prev (List.mem_cons_self ..)
      have hnew : ∃ entry, (p.checkPrevious base no st prev).overrideNeeded.lookup
          (p.functions no).signature = some entry ∧ Ambiguous all no entry := by
        rw [heq, InheritanceState.need]
        refine ⟨_, AList.lookup_insert _, ?_⟩
        obtain ⟨-, hnone⟩ | ⟨entry, hentry, hlen, hmem⟩ := hst
        · rw [hnone]
          refine ⟨Nat.le_refl _, fun e he => ?_⟩
          obtain rfl | he := List.mem_cons.mp he
          · exact .inr hprev
          · rw [List.mem_singleton.mp he]
            exact .inl rfl
        · rw [hentry]
          refine ⟨by simp; omega, fun e he => ?_⟩
          obtain he | he := List.mem_append.mp he
          · exact hmem e he
          · rw [List.mem_singleton.mp he]
            exact .inl rfl
      obtain ⟨hframe, hres⟩ := ih (fun x hx => hl x (List.mem_cons_of_mem _ hx)) h (.inr hnew)
      refine ⟨Frame.trans ?_ hframe, hres⟩
      rw [heq]
      exact frame_need _ _

/-- What happens to the function `no` when there is no error. -/
inductive Step (p : Program n m) (c : Fin n) (st : InheritanceState m) (no : Fin m) :
    InheritanceState m → Prop where
  | overrides {entry : List (Nat × Fin m)} :
      st.overrideNeeded.lookup (p.functions no).signature = some entry →
      (p.functions no).isOverride.isSome ∨ (∃ e, entry = [e]) →
      Step p c st no (p.addFunction no (st.overridden (p.functions no).signature))
  | needs {e : Nat × Fin m} : e.2 = no →
      st.overrideNeeded.lookup (p.functions no).signature = none →
      p.previousDefs (p.functions no).signature st = [] →
      Step p c st no (st.need (p.functions no).signature [e])
  | first : st.overrideNeeded.lookup (p.functions no).signature = none →
      p.previousDefs (p.functions no).signature st = [] → (p.functions no).isOverride = none →
      (p.functions no).hasBody = true ∨ (p.ns.contracts c).isConcrete = false →
      Step p c st no (p.addFunction no st)
  | replaces : st.overrideNeeded.lookup (p.functions no).signature = none →
      p.previousDefs (p.functions no).signature st ≠ [] → ¬ p.Redefines no →
      Step p c st no (p.addFunction no st)
  | redefines {st' : InheritanceState m} {entry : List (Nat × Fin m)} :
      Frame st st' (p.functions no).signature →
      st'.overrideNeeded.lookup (p.functions no).signature = some entry →
      Ambiguous (p.previousDefs (p.functions no).signature st) no entry →
      Step p c st no (p.addFunction no st')

theorem addFunction_diagnostics (no : Fin m) : (p.addFunction no st).diagnostics = st.diagnostics := by
  unfold addFunction
  dsimp only
  split <;> rfl

theorem checkFunction_step {c base : Fin n} {no : Fin m}
    (h : (p.checkFunction c st (base, no)).diagnostics = []) :
    st.diagnostics = [] ∧ Step p c st no (p.checkFunction c st (base, no)) := by
  unfold checkFunction at h ⊢
  dsimp only at h ⊢
  cases hneed : st.overrideNeeded.lookup (p.functions no).signature with
  | some entry =>
    rw [hneed] at h
    dsimp only at h ⊢
    rw [addFunction_diagnostics] at h
    obtain ⟨heq, hcase⟩ := checkEntry_spec h
    rw [heq] at h ⊢
    exact ⟨h, .overrides hneed hcase⟩
  | none =>
    rw [hneed] at h
    dsimp only at h ⊢
    split at h
    · exact absurd h error_diagnostics
    rename_i hfirst
    rw [if_neg hfirst]
    split at h
    · rename_i hbody
      rw [if_pos hbody]
      simp only [Bool.and_eq_true, List.isEmpty_iff] at hbody
      exact ⟨h, .needs rfl hneed hbody.1.1⟩
    rename_i hbody
    rw [if_neg hbody]
    rw [addFunction_diagnostics] at h
    have hd := foldl_checkPrevious_diagnostics _ h
    refine ⟨hd, ?_⟩
    by_cases hprev : p.previousDefs (p.functions no).signature st = []
    · rw [hprev, List.foldl_nil]
      simp only [hprev, List.isEmpty_nil, Bool.true_and, Option.isSome_eq_false_iff,
        Bool.not_eq_true] at hfirst
      refine .first hneed hprev (by simpa using hfirst) ?_
      simp only [hprev, List.isEmpty_nil, Bool.true_and, Bool.and_eq_true, not_and] at hbody
      cases hb : (p.functions no).hasBody with
      | true => exact .inl rfl
      | false => exact .inr (by simpa using hbody (by simp [hb]))
    · by_cases hr : p.Redefines no
      · obtain ⟨hframe, entry, hentry, hamb⟩ :=
          foldl_checkPrevious_redefines hr _ _ (fun _ hx => hx) h (.inl ⟨hprev, hneed⟩)
        exact .redefines hframe hentry hamb
      · rw [foldl_checkPrevious_keep hr _ h]
        exact .replaces hneed hprev hr

/-! ## Adding a function -/

theorem addFunction_needed (no : Fin m) :
    (p.addFunction no st).overrideNeeded = st.overrideNeeded := by
  unfold addFunction
  dsimp only
  split <;> rfl

theorem mem_addFunction {no f : Fin m} :
    f ∈ (p.addFunction no st).allFunctions ↔ f = no ∨ f ∈ st.allFunctions := by
  have h : ∀ st : InheritanceState m,
      f ∈ (st.insertFunction no).allFunctions ↔ f = no ∨ f ∈ st.allFunctions := by
    intro st
    unfold InheritanceState.insertFunction
    dsimp only
    split
    · rename_i hno
      exact ⟨.inr, fun h => h.elim (fun h => h ▸ hno) id⟩
    · rw [List.mem_orderedInsert]
  unfold addFunction
  dsimp only
  split
  · exact h _
  · exact h _

theorem addFunction_virtual_of_ne {no : Fin m} {s : String} (hs : s ≠ (p.functions no).signature) :
    (p.addFunction no st).virtualFunctions s = st.virtualFunctions s := by
  unfold addFunction
  dsimp only
  split
  · exact Function.update_of_ne hs _ _
  · rfl

/-- The function goes to `virtual_functions`. -/
def Pushed (p : Program n m) (no : Fin m) : Prop :=
  (p.functions no).isOverride.isSome = true ∨ (p.functions no).isVirtual = true

theorem addFunction_virtual_of_pushed {no : Fin m} (h : p.Pushed no) :
    (p.addFunction no st).virtualFunctions (p.functions no).signature
      = st.virtualFunctions (p.functions no).signature ++ [no] := by
  unfold addFunction
  dsimp only
  rw [if_pos (by simpa [Pushed] using h)]
  exact Function.update_self _ _ _

theorem addFunction_virtual_of_not_pushed {no : Fin m} (h : ¬ p.Pushed no) :
    (p.addFunction no st).virtualFunctions = st.virtualFunctions := by
  unfold addFunction
  dsimp only
  rw [if_neg (by simpa [Pushed] using h)]
  rfl

theorem mem_addFunction_virtual {no f : Fin m}
    (h : f ∈ (p.addFunction no st).virtualFunctions (p.functions no).signature) :
    f = no ∨ f ∈ st.virtualFunctions (p.functions no).signature := by
  by_cases hp : p.Pushed no
  · rw [addFunction_virtual_of_pushed hp, List.mem_append, List.mem_singleton] at h
    exact h.symm
  · rw [addFunction_virtual_of_not_pushed hp] at h
    exact .inr h

/-! ## The invariant -/

/-- The last declaration `d` of a signature, behind the declarations `l`, is the one that is
used. -/
structure Settled (p : Program n m) (σ : String) (st : InheritanceState m) (l : List (Fin m))
    (d : Fin m) : Prop where
  mem : d ∈ st.allFunctions
  last : (p.functions d).isVirtual = true → (st.virtualFunctions σ).getLast? = some d
  only : ∀ f ∈ st.allFunctions, (p.functions f).isVirtual = true →
    (st.virtualFunctions σ).getLast? = some f → f = d
  body : (p.functions d).hasBody = false → l ≠ []

/-- The tables at the signature `σ` when the functions `decls` of that signature were seen. -/
structure Inv (p : Program n m) (σ : String) (decls : List (Fin m)) (st : InheritanceState m) :
    Prop where
  needed : ∀ entry, st.overrideNeeded.lookup σ = some entry →
    entry ≠ [] ∧ ∀ e ∈ entry, e.2 ∈ decls
  all : ∀ f ∈ st.allFunctions, (p.functions f).signature = σ → f ∈ decls
  virtual : ∀ f ∈ st.virtualFunctions σ, f ∈ st.allFunctions ∧ (p.functions f).signature = σ
  single : ∀ e, st.overrideNeeded.lookup σ = some [e] → p.previousDefs σ st = []
  settled : st.overrideNeeded.lookup σ = none → ∀ l d, decls = l ++ [d] → Settled p σ st l d

variable {σ : String}

theorem mem_previousDefs {f : Fin m} : f ∈ p.previousDefs σ st ↔
    f ∈ st.allFunctions ∧ (p.functions f).ty ≠ .constructor ∧ (p.functions f).signature = σ := by
  simp [previousDefs]

theorem Inv.init (σ : String) (errors : List String) :
    Inv p σ [] ⟨∅, fun _ => [], [], errors⟩ where
  needed _ h := by simp at h
  all _ h := absurd h List.not_mem_nil
  virtual _ h := absurd h List.not_mem_nil
  single _ h := by simp at h
  settled _ l d h := by simp at h

/-- A virtual function that is used is a function among the previous definitions. -/
theorem Inv.mem_previousDefs_of_last {decls : List (Fin m)} (h : Inv p σ decls st) {f : Fin m}
    (hv : (p.functions f).isVirtual = true) (hl : (st.virtualFunctions σ).getLast? = some f) :
    f ∈ p.previousDefs σ st := by
  obtain ⟨hall, hsig⟩ := h.virtual f (List.mem_of_getLast? hl)
  refine mem_previousDefs.mpr ⟨hall, fun hc => ?_, hsig⟩
  rw [p.constructor_not_virtual f hc] at hv
  cases hv

/-- The function `no` of the signature is added. -/
theorem Inv.add {decls : List (Fin m)} (h : Inv p σ decls st) {st' : InheritanceState m}
    {no : Fin m} (hsig : (p.functions no).signature = σ) (hframe : Frame st st' σ)
    (hneeded : ∀ entry, st'.overrideNeeded.lookup σ = some entry →
      2 ≤ entry.length ∧ ∀ e ∈ entry, e.2 ∈ decls ++ [no])
    (hsettled : st'.overrideNeeded.lookup σ = none →
      (p.Pushed no ∨ p.previousDefs σ st = []) ∧ ((p.functions no).hasBody = false → decls ≠ [])) :
    Inv p σ (decls ++ [no]) (p.addFunction no st') where
  needed entry he := by
    rw [addFunction_needed] at he
    obtain ⟨hlen, hmem⟩ := hneeded entry he
    refine ⟨fun hnil => ?_, hmem⟩
    rw [hnil] at hlen
    exact absurd hlen (by simp)
  all f hf hs := by
    rw [mem_addFunction, hframe.all] at hf
    obtain rfl | hf := hf
    · exact List.mem_append_right _ (List.mem_singleton_self _)
    · exact List.mem_append_left _ (h.all f hf hs)
  virtual f hf := by
    subst hsig
    rw [mem_addFunction, hframe.all]
    obtain rfl | hf := mem_addFunction_virtual hf
    · exact ⟨.inl rfl, rfl⟩
    · rw [hframe.virtual] at hf
      exact ⟨.inr (h.virtual f hf).1, (h.virtual f hf).2⟩
  single e he := by
    rw [addFunction_needed] at he
    exact absurd (hneeded [e] he).1 (by simp)
  settled hnone l d heq := by
    rw [addFunction_needed] at hnone
    obtain ⟨hpush, hbody⟩ := hsettled hnone
    obtain ⟨rfl, hd⟩ := List.append_inj' heq rfl
    obtain rfl := List.singleton_inj.mp hd
    subst hsig
    refine ⟨mem_addFunction.mpr (.inl rfl), fun hv => ?_, fun f _ hv hl => ?_, hbody⟩
    · rw [addFunction_virtual_of_pushed (.inr hv), List.getLast?_concat]
    · by_cases hp : p.Pushed no
      · rw [addFunction_virtual_of_pushed hp, List.getLast?_concat] at hl
        exact (Option.some.inj hl).symm
      · rw [addFunction_virtual_of_not_pushed hp, hframe.virtual] at hl
        have hmem := h.mem_previousDefs_of_last hv hl
        rw [hpush.resolve_left hp] at hmem
        exact absurd hmem List.not_mem_nil

/-- A function of another signature leaves the tables at `σ` as they are. -/
theorem Inv.other {decls : List (Fin m)} (h : Inv p σ decls st) {st' : InheritanceState m}
    (hneeded : st'.overrideNeeded.lookup σ = st.overrideNeeded.lookup σ)
    (hvirtual : st'.virtualFunctions σ = st.virtualFunctions σ)
    (hsub : ∀ f ∈ st.allFunctions, f ∈ st'.allFunctions)
    (hall : ∀ f ∈ st'.allFunctions, (p.functions f).signature = σ → f ∈ st.allFunctions) :
    Inv p σ decls st' where
  needed := hneeded ▸ h.needed
  all f hf hs := h.all f (hall f hf hs) hs
  virtual f hf := by
    obtain ⟨hf, hs⟩ := h.virtual f (hvirtual ▸ hf)
    exact ⟨hsub f hf, hs⟩
  single e he := by
    rw [List.eq_nil_iff_forall_not_mem]
    intro f hf
    obtain ⟨hf, hty, hs⟩ := mem_previousDefs.mp hf
    have hmem := mem_previousDefs.mpr ⟨hall f hf hs, hty, hs⟩
    rw [h.single e (hneeded ▸ he)] at hmem
    exact absurd hmem List.not_mem_nil
  settled hnone l d heq := by
    have hset := h.settled (hneeded ▸ hnone) l d heq
    refine ⟨hsub d hset.mem, fun hv => ?_, fun f hf hv hl => ?_, hset.body⟩
    · rw [hvirtual]
      exact hset.last hv
    · rw [hvirtual] at hl
      exact hset.only f (h.virtual f (List.mem_of_getLast? hl)).1 hv hl

theorem Inv.other_add {decls : List (Fin m)} (h : Inv p σ decls st) {st' : InheritanceState m}
    {no : Fin m} (hsig : (p.functions no).signature ≠ σ)
    (hframe : Frame st st' (p.functions no).signature) :
    Inv p σ decls (p.addFunction no st') := by
  refine h.other ?_ ?_ (fun f hf => ?_) (fun f hf hs => ?_)
  · rw [addFunction_needed]
    exact hframe.needed σ hsig.symm
  · rw [addFunction_virtual_of_ne hsig.symm, hframe.virtual]
  · rw [mem_addFunction, hframe.all]
    exact .inr hf
  · rw [mem_addFunction, hframe.all] at hf
    obtain rfl | hf := hf
    · exact absurd hs hsig
    · exact hf

/-- One function keeps the invariant at its own signature. -/
theorem Inv.step {c : Fin n} {no : Fin m} {decls : List (Fin m)} {st' : InheritanceState m}
    (h : Inv p (p.functions no).signature decls st) (hstep : Step p c st no st')
    (hc : (p.ns.contracts c).isConcrete = false → (p.functions no).hasBody = true) :
    Inv p (p.functions no).signature (decls ++ [no]) st' := by
  cases hstep with
  | @overrides entry hneed hcase =>
    have hgone : (st.overridden (p.functions no).signature).overrideNeeded.lookup
        (p.functions no).signature = none := AList.lookup_erase _ _
    refine h.add rfl (frame_overridden _) (fun entry he => ?_) fun _ => ⟨?_, fun _ => ?_⟩
    · rw [hgone] at he
      cases he
    · obtain hov | ⟨e, rfl⟩ := hcase
      · exact .inl (.inl hov)
      · exact .inr (h.single e hneed)
    · obtain ⟨hne, hmem⟩ := h.needed entry hneed
      obtain ⟨e, he⟩ := List.exists_mem_of_ne_nil entry hne
      exact List.ne_nil_of_mem (hmem e he)
  | @needs e he hneed hprev =>
    have hnew : (st.need (p.functions no).signature [e]).overrideNeeded.lookup
        (p.functions no).signature = some [e] := AList.lookup_insert _
    refine ⟨fun entry hentry => ?_, fun f hf hs => List.mem_append_left _ (h.all f hf hs),
      h.virtual, fun _ _ => hprev, fun hnone => ?_⟩
    · rw [hnew] at hentry
      cases hentry
      refine ⟨List.cons_ne_nil _ _, fun e' he' => ?_⟩
      rw [List.mem_singleton.mp he', he]
      exact List.mem_append_right _ (List.mem_singleton_self _)
    · rw [hnew] at hnone
      cases hnone
  | first hneed hprev hov hbody =>
    refine h.add rfl (.refl _ _) (fun entry he => ?_) fun _ => ⟨.inr hprev, fun hb => ?_⟩
    · rw [hneed] at he
      cases he
    · obtain hbody | hbody := hbody
      · rw [hb] at hbody
        cases hbody
      · rw [hc hbody] at hb
        cases hb
  | replaces hneed hprev hr =>
    refine h.add rfl (.refl _ _) (fun entry he => ?_) fun _ => ⟨.inl ?_, fun _ => ?_⟩
    · rw [hneed] at he
      cases he
    · cases hov : (p.functions no).isOverride with
      | some l => exact .inl (by rw [hov]; rfl)
      | none =>
        refine .inr (p.virtual_of_no_body no ?_)
        cases hb : (p.functions no).hasBody with
        | false => rfl
        | true => exact absurd ⟨hov, hb⟩ hr
    · obtain ⟨f, hf⟩ := List.exists_mem_of_ne_nil _ hprev
      obtain ⟨hf, -, hs⟩ := mem_previousDefs.mp hf
      exact List.ne_nil_of_mem (h.all f hf hs)
  | @redefines st' entry hframe hneed hamb =>
    refine h.add rfl hframe (fun entry' he => ?_) fun hnone => ?_
    · rw [hneed] at he
      cases he
      refine ⟨hamb.1, fun e he => ?_⟩
      obtain heq | hmem := hamb.2 e he
      · exact List.mem_append_right _ (List.mem_singleton.mpr heq)
      · obtain ⟨hf, -, hs⟩ := mem_previousDefs.mp hmem
        exact List.mem_append_left _ (h.all _ hf hs)
    · rw [hneed] at hnone
      cases hnone

/-- It keeps the invariant at the other signatures. -/
theorem Inv.step_other {c : Fin n} {no : Fin m} {decls : List (Fin m)} {st' : InheritanceState m}
    (h : Inv p σ decls st) (hstep : Step p c st no st') (hsig : (p.functions no).signature ≠ σ) :
    Inv p σ decls st' := by
  cases hstep with
  | overrides => exact h.other_add hsig (frame_overridden _)
  | needs =>
    exact h.other (AList.lookup_insert_ne hsig.symm) rfl (fun _ hf => hf) fun _ hf _ => hf
  | first | replaces => exact h.other_add hsig (.refl _ _)
  | redefines hframe => exact h.other_add hsig hframe

/-- The declarations of the signature `σ` in the contracts `order`. -/
def declarationsOf (p : Program n m) (order : List (Fin n)) (σ : String) : List (Fin m) :=
  ((p.declarations order).map (·.2)).filter fun no => (p.functions no).signature == σ

theorem foldl_checkFunction_diagnostics {c : Fin n} (l : List (Fin n × Fin m))
    (h : (l.foldl (p.checkFunction c) st).diagnostics = []) : st.diagnostics = [] := by
  induction l generalizing st with
  | nil => exact h
  | cons decl l ih => exact (checkFunction_step (ih h)).1

theorem Inv.foldl {c : Fin n} {σ : String} {decls : List (Fin m)} (l : List (Fin n × Fin m))
    (h : Inv p σ decls st) (hd : (l.foldl (p.checkFunction c) st).diagnostics = [])
    (hc : (p.ns.contracts c).isConcrete = false → ∀ d ∈ l, (p.functions d.2).hasBody = true) :
    Inv p σ (decls ++ (l.map (·.2)).filter fun no => (p.functions no).signature == σ)
      (l.foldl (p.checkFunction c) st) := by
  induction l generalizing st decls with
  | nil => simpa using h
  | cons decl l ih =>
    obtain ⟨base, no⟩ := decl
    rw [List.foldl_cons] at hd ⊢
    obtain ⟨-, hstep⟩ := checkFunction_step (foldl_checkFunction_diagnostics l hd)
    have hrest := fun hcon d hm => hc hcon d (List.mem_cons_of_mem _ hm)
    by_cases hsig : (p.functions no).signature = σ
    · subst hsig
      have hno := fun hcon => hc hcon (base, no) (List.mem_cons_self ..)
      have := ih (h.step hstep hno) hd hrest
      simpa using this
    · have := ih (h.step_other hstep hsig) hd hrest
      simpa [hsig] using this

/-! ## Completeness -/

/-- The function `no` is the one dispatch and calls use for the signature `σ`: a virtual
function is, when it is the last one of `virtual_functions`. -/
def Selected (p : Program n m) (st : InheritanceState m) (σ : String) (no : Fin m) : Prop :=
  no ∈ st.allFunctions ∧ (p.functions no).signature = σ ∧
    ((p.functions no).isVirtual = true → (st.virtualFunctions σ).getLast? = some no)

/-- The signatures of the contract and of its bases have a function, and one with a body. -/
def Complete (p : Program n m) (c : Fin n) (st : InheritanceState m) : Prop :=
  ∀ b no, b = c ∨ Relation.TransGen p.ns.Inherits c b → no ∈ p.contractFunctions b →
    (∃ f, p.Selected st (p.functions no).signature f) ∧
    ∀ f, p.Selected st (p.functions no).signature f → (p.functions f).hasBody = true

/-- No function without body is the last of several with its signature. -/
def LastHasBody (p : Program n m) (order : List (Fin n)) : Prop :=
  ∀ σ l d, p.declarationsOf order σ = l ++ [d] → l ≠ [] → (p.functions d).hasBody = true

theorem mem_declarationsOf {order : List (Fin n)} {no : Fin m} :
    no ∈ p.declarationsOf order σ ↔
      (∃ b ∈ order, no ∈ p.contractFunctions b) ∧ (p.functions no).signature = σ := by
  simp [declarationsOf, declarations]

/-- Without errors nothing is left in `override_needed`. -/
theorem inv_checkInheritance {c : Fin n} {order : List (Fin n)} (σ : String)
    (hty : (p.ns.contracts c).isConcrete = false → ∀ d ∈ p.declarations order,
      (p.functions d.2).isVirtual = false ∧ (p.functions d.2).hasBody = true)
    (h : (p.checkInheritance c order).diagnostics = []) :
    Inv p σ (p.declarationsOf order σ) (p.checkInheritance c order) ∧
      (p.checkInheritance c order).overrideNeeded.lookup σ = none := by
  unfold checkInheritance at h ⊢
  dsimp only at h ⊢
  have hmsg := (List.append_eq_nil_iff.mp h).2
  have heq := errors_diagnostics h
  rw [heq] at h ⊢
  have hinv := (Inv.init σ p.symbolErrors).foldl (p.declarations order) h
    fun hcon d hd => (hty hcon d hd).2
  rw [List.nil_append] at hinv
  refine ⟨hinv, Option.eq_none_iff_forall_not_mem.mpr fun entry hentry => ?_⟩
  have hnone : p.neededErrors c entry = [] :=
    List.flatMap_eq_nil_iff.mp hmsg ⟨σ, entry⟩ (AList.mem_lookup_iff.mp hentry)
  obtain ⟨hne, hmem⟩ := hinv.needed entry hentry
  obtain ⟨⟨contract, no⟩, rest, rfl⟩ := List.exists_cons_of_ne_nil hne
  unfold neededErrors at hnone
  dsimp only at hnone
  split at hnone
  · -- only the functions of a library are not checked, and they are not virtual
    rename_i hv
    simp only [Bool.and_eq_true, Bool.not_eq_true'] at hv
    obtain ⟨⟨b, hb, hno⟩, -⟩ := mem_declarationsOf.mp (hmem _ (List.mem_cons_self ..))
    have hd : (b, no) ∈ p.declarations order := by
      simp only [declarations, List.mem_flatMap, List.mem_map]
      exact ⟨b, hb, no, hno, rfl⟩
    have := (hty hv.2 _ hd).1
    rw [hv.1] at this
    cases this
  · split at hnone
    · split at hnone <;> cases hnone
    · cases hnone

/-- The check accepts a contract that is not complete exactly when a function without body
redeclares another and is not overridden itself. -/
theorem complete_iff_lastHasBody (p : Program n m) (c : Fin n) (order : List (Fin n))
    (hord : p.ns.Linearises c order)
    (hty : (p.ns.contracts c).ty = .contract ∨ (p.ns.contracts c).ty = .library)
    (h : (p.checkInheritance c order).diagnostics = []) :
    p.Complete c (p.checkInheritance c order) ↔ p.LastHasBody order := by
  have hlib : (p.ns.contracts c).isConcrete = false → ∀ d ∈ p.declarations order,
      (p.functions d.2).isVirtual = false ∧ (p.functions d.2).hasBody = true := by
    intro hcon d hd
    obtain hty | hty := hty
    · simp [Contract.isConcrete, hty] at hcon
    have hl : (p.ns.contracts c).isLibrary = true := by simp [Contract.isLibrary, hty]
    simp only [declarations, List.mem_flatMap, List.mem_map] at hd
    obtain ⟨b, hb, no, hno, rfl⟩ := hd
    obtain rfl | hb := (hord.mem_iff b).mp hb
    · exact p.library_functions b hl no hno
    · obtain ⟨b', hb', -⟩ := Relation.TransGen.head'_iff.mp hb
      rw [Namespace.Inherits, p.library_bases c hl] at hb'
      exact absurd hb' List.not_mem_nil
  have hinv := fun σ => inv_checkInheritance σ hlib h
  -- the last declaration of a signature is selected
  have hlast : ∀ σ l d, p.declarationsOf order σ = l ++ [d] →
      Settled p σ (p.checkInheritance c order) l d ∧
        p.Selected (p.checkInheritance c order) σ d := by
    intro σ l d heq
    have hset := (hinv σ).1.settled (hinv σ).2 l d heq
    have hd : d ∈ p.declarationsOf order σ := by simp [heq]
    exact ⟨hset, hset.mem, (mem_declarationsOf.mp hd).2, hset.last⟩
  constructor
  · intro hcomplete σ l d heq _
    have hd : d ∈ p.declarationsOf order σ := by simp [heq]
    obtain ⟨⟨b, hb, hno⟩, hs⟩ := mem_declarationsOf.mp hd
    refine (hcomplete b d ((hord.mem_iff b).mp hb) hno).2 d ?_
    rw [hs]
    exact (hlast σ l d heq).2
  · intro hbody b no hb hno
    generalize hσ : (p.functions no).signature = σ
    have hmem : no ∈ p.declarationsOf order σ :=
      mem_declarationsOf.mpr ⟨⟨b, (hord.mem_iff b).mpr hb, hno⟩, hσ⟩
    obtain ⟨l, d, heq⟩ : ∃ l d, p.declarationsOf order σ = l ++ [d] :=
      ⟨_, _, (List.dropLast_append_getLast (List.ne_nil_of_mem hmem)).symm⟩
    obtain ⟨hset, hsel⟩ := hlast σ l d heq
    refine ⟨⟨d, hsel⟩, fun f hf => ?_⟩
    obtain ⟨hf, -, hl⟩ := hf
    have hd : (p.functions d).hasBody = true := by
      by_contra hd
      exact hd (hbody σ l d heq (hset.body (by simpa using hd)))
    cases hv : (p.functions f).isVirtual with
    | true => rwa [hset.only f hf hv (hl hv)]
    | false =>
      by_contra hb
      rw [p.virtual_of_no_body f (by simpa using hb)] at hv
      cases hv

/-- A function `f()` that can be overridden. -/
def sampleDeclaration (contractNo : Nat) (isOverride : Option (List Nat)) (hasBody : Bool) :
    Declaration where
  id := "f"
  ty := .function
  contractNo := some contractNo
  visibility := .external
  signature := "f()"
  mangledName := "f"
  mangledNameContracts := []
  selector := none
  isVirtual := true
  isOverride := isOverride
  hasBody := hasBody
  mutability := .nonpayable
  isAccessor := false
  params := []
  returns := []
  solanaAccounts := []

local instance neZero_two : NeZero 2 := ⟨by decide⟩

local instance neZero_three : NeZero 3 := ⟨by decide⟩

/-- `interface I { function f() external; }`, `abstract contract B is I` with a function `f`
that overrides the one of `I`, with or without body, and `contract C is B {}`. -/
def sampleProgram (body : Bool) : Program 3 2 where
  ns :=
    { contracts := List.get [⟨"I", .interface, []⟩, ⟨"B", .abstract, [0]⟩, ⟨"C", .contract, [1]⟩]
      diagnostics := [] }
  functions := List.get [sampleDeclaration 0 none false, sampleDeclaration 1 (some []) body]
  contractFunctions := List.get [[0], [1], []]
  symbolErrors := []
  virtual_of_no_body := by cases body <;> decide
  constructor_not_virtual := by cases body <;> decide
  library_bases := by decide
  library_functions := by cases body <;> decide

theorem sampleProgram_linearises (body : Bool) :
    (sampleProgram body).ns.Linearises 2 [0, 1, 2] := by
  have hlt : ∀ x y, (sampleProgram body).ns.Inherits x y → y < x := by
    cases body <;> simp only [Namespace.Inherits] <;> decide
  have htrans : ∀ x y, Relation.TransGen (sampleProgram body).ns.Inherits x y → y < x := by
    intro x y hxy
    induction hxy with
    | single h => exact hlt _ _ h
    | tail _ h ih => exact (hlt _ _ h).trans ih
  have hacyclic : PostOrder.Acyclic (sampleProgram body).ns.Inherits :=
    fun x hx => absurd (htrans x x hx) (lt_irrefl x)
  obtain ⟨order, hord, hs⟩ := Namespace.contractBases_settles hacyclic 2
  have heval : Fuel.Settles (fun fuel => (sampleProgram body).ns.contractBases fuel 2)
      [0, 1, 2] := by
    refine ⟨4, fun fuel hfuel => ?_⟩
    obtain ⟨k, rfl⟩ := Nat.exists_eq_add_of_le' hfuel
    rfl
  rwa [hs.unique heval] at hord

theorem complete_sampleProgram :
    (sampleProgram true).Complete 2 ((sampleProgram true).checkInheritance 2 [0, 1, 2]) := by
  refine (complete_iff_lastHasBody _ 2 _ (sampleProgram_linearises true) (.inl rfl)
    (by decide)).mpr ?_
  intro σ l d heq _
  have hdecl : (sampleProgram true).declarationsOf [0, 1, 2] σ
      = [0, 1].filter fun _ => "f()" == σ := rfl
  cases hσ : "f()" == σ with
  | true =>
    have hlast := congrArg List.getLast? (hdecl.symm.trans heq)
    simp only [hσ, List.getLast?_append, List.getLast?_singleton] at hlast
    cases hlast
    rfl
  | false =>
    rw [hdecl, hσ] at heq
    simp at heq

/-- `f` of `C` has no body, and there is no error. -/
theorem not_complete_sampleProgram :
    ((sampleProgram false).checkInheritance 2 [0, 1, 2]).diagnostics = [] ∧
      ¬ (sampleProgram false).Complete 2
        ((sampleProgram false).checkInheritance 2 [0, 1, 2]) := by
  refine ⟨by decide, fun h => ?_⟩
  have hbody := (h 1 1 (.inr (.single (by simp only [Namespace.Inherits]; decide))) (by decide)).2 1
    ⟨by decide, rfl, fun _ => by decide⟩
  cases hbody

end Solang.Sema.Program
