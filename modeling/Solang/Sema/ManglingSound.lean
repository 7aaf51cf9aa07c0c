import Solang.Sema.InheritanceComplete
import Solang.Sema.Mangling

/-!
# When the names in the metadata are unique

A function that overrides another is never mangled, a constructor is mangled but its label is not, and
mangled names are compared only if both functions are of the contract itself.
-/

namespace Solang.Sema

variable {n m : Nat}

/-! ## Mangled names -/

theorem mem_replaceChar_of_ne {c ch : Char} (r : String) {t : List Char} (hne : ch ≠ c) (h : ch ∈ t) :
    ch ∈ replaceChar c r t :=
  List.mem_flatMap.mpr ⟨ch, h, by simp [hne]⟩

theorem mem_replaceChar {c ch : Char} {r : String} {t : List Char} (h : c ∈ t) (hr : ch ∈ r.toList) :
    ch ∈ replaceChar c r t :=
  List.mem_flatMap.mpr ⟨c, h, by simpa using hr⟩

theorem mem_replaceBrackets {t : List Char} (h : '_' ∈ t) : '_' ∈ replaceBrackets t := by
  fun_induction replaceBrackets t with
  | case1 t ih => exact List.mem_append_right _ (ih (by simpa using h))
  | case2 ch t _ ih =>
    obtain rfl | h := List.mem_cons.mp h
    · exact List.mem_cons_self
    · exact List.mem_cons_of_mem _ (ih h)
  | case3 => cases h

/-- An underscore stands for the parenthesis. -/
theorem underscore_mem_mangle {signature : String} (h : '(' ∈ signature.toList) : '_' ∈ (mangle signature).toList := by
  rw [mangle, String.toList_ofList]
  refine mem_replaceChar_of_ne _ (by decide) (mem_replaceChar_of_ne _ (by decide) (mem_replaceBrackets ?_))
  refine mem_replaceChar_of_ne _ (by decide) (mem_replaceChar_of_ne _ (by decide) ?_)
  exact mem_replaceChar h (by decide)

/-! ## The pass -/

/-- The function counts as one of its name. -/
def Function.Counted (f : Function) : Prop := f.isPublic = true ∧ f.isOverride = none

section

variable {functions : Fin m → Declaration} {contractNo : Nat}

/-- Another function of the list has the name. -/
def Repeated (functions : Fin m → Declaration) (l : List (Fin m)) (no : Fin m) : Prop :=
  no ∈ l ∧ (functions no).Counted ∧ ∃ g ∈ l, g ≠ no ∧ (functions g).Counted ∧ (functions g).id = (functions no).id

/-- The state of the pass behind these functions -/
structure MangledSoFar (functions : Fin m → Declaration) (contractNo : Nat) (l : List (Fin m)) (st : MangleState m) :
    Prop where
  same : ∀ no, ∃ contracts, st.functions no = { functions no with mangledNameContracts := contracts }
  marked : ∀ no, contractNo ∈ (st.functions no).mangledNameContracts ↔ Repeated functions l no
  seen : ∀ s no, st.repeatedNames s = some no → no ∈ l ∧ (functions no).Counted ∧ (functions no).id = s
  unseen : ∀ s, st.repeatedNames s = none → ∀ no ∈ l, (functions no).Counted → (functions no).id ≠ s

theorem mem_mark (f : Declaration) : contractNo ∈ (f.mark contractNo).mangledNameContracts := by
  rw [Declaration.mark]
  split <;> simp_all

theorem mem_mark_iff (st : MangleState m) (old no : Fin m) :
    contractNo ∈ ((st.mark contractNo old).functions no).mangledNameContracts ↔
      no = old ∨ contractNo ∈ (st.functions no).mangledNameContracts := by
  rw [MangleState.mark]
  by_cases h : no = old
  · rw [h]
    simp [mem_mark]
  · simp [h]

theorem mark_same {st : MangleState m} (old : Fin m)
    (h : ∀ no, ∃ contracts, st.functions no = { functions no with mangledNameContracts := contracts }) (no : Fin m) :
    ∃ contracts, (st.mark contractNo old).functions no = { functions no with mangledNameContracts := contracts } := by
  show ∃ contracts, Function.update st.functions old _ no = _
  by_cases hno : no = old
  · obtain ⟨contracts, hsame⟩ := h old
    rw [hno, Function.update_self, hsame]
    exact ⟨_, rfl⟩
  · rw [Function.update_of_ne hno]
    exact h no

theorem Repeated.concat_iff_of_not_counted {l : List (Fin m)} {no : Fin m} (hno : ¬ (functions no).Counted) (f : Fin m) :
    Repeated functions (l ++ [no]) f ↔ Repeated functions l f := by
  unfold Repeated
  constructor
  · rintro ⟨hf, hcount, g, hg, hne, hgcount, hid⟩
    have hmem (x : Fin m) (hx : x ∈ l ++ [no]) (hxc : (functions x).Counted) : x ∈ l :=
      (List.mem_append.mp hx).resolve_right fun h => hno (List.mem_singleton.mp h ▸ hxc)
    exact ⟨hmem f hf hcount, hcount, g, hmem g hg hgcount, hne, hgcount, hid⟩
  · rintro ⟨hf, hcount, g, hg, h⟩
    exact ⟨List.mem_append_left _ hf, hcount, g, List.mem_append_left _ hg, h⟩

/-- A function whose name was seen is repeated, and so is every earlier one of the name. -/
theorem Repeated.concat_iff {l : List (Fin m)} {no : Fin m} (hnew : no ∉ l) (hno : (functions no).Counted) (f : Fin m) :
    Repeated functions (l ++ [no]) f ↔ Repeated functions l f ∨
      ((f = no ∨ f ∈ l) ∧ (functions f).Counted ∧ (functions f).id = (functions no).id ∧
        ∃ g ∈ l, (functions g).Counted ∧ (functions g).id = (functions no).id) := by
  unfold Repeated
  constructor
  · rintro ⟨hf, hcount, g, hg, hne, hgcount, hid⟩
    rcases List.mem_append.mp hf with hfl | hfno
    · rcases List.mem_append.mp hg with hgl | hgno
      · exact .inl ⟨hfl, hcount, g, hgl, hne, hgcount, hid⟩
      · obtain rfl := List.mem_singleton.mp hgno
        exact .inr ⟨.inr hfl, hcount, hid.symm, f, hfl, hcount, hid.symm⟩
    · obtain rfl := List.mem_singleton.mp hfno
      have hg' := (List.mem_append.mp hg).resolve_right fun h => hne (List.mem_singleton.mp h)
      exact .inr ⟨.inl rfl, hcount, rfl, g, hg', hgcount, hid⟩
  · rintro (⟨hf, hcount, g, hg, h⟩ | ⟨rfl | hf, hcount, hid, g, hg, hgcount, hgid⟩)
    · exact ⟨List.mem_append_left _ hf, hcount, g, List.mem_append_left _ hg, h⟩
    · exact ⟨by simp, hcount, g, List.mem_append_left _ hg, fun h => hnew (h ▸ hg), hgcount, hgid⟩
    · exact ⟨List.mem_append_left _ hf, hcount, no, by simp, fun h => hnew (h ▸ hf), hno, hid.symm⟩

theorem MangledSoFar.step {l : List (Fin m)} {st : MangleState m} (h : MangledSoFar functions contractNo l st) {no : Fin m}
    (hnew : no ∉ l) : MangledSoFar functions contractNo (l ++ [no]) (mangleFunction contractNo st no) := by
  have hfields : (st.functions no).isPublic = (functions no).isPublic ∧
      (st.functions no).isOverride = (functions no).isOverride ∧ (st.functions no).ty = (functions no).ty ∧
      (st.functions no).id = (functions no).id := by
    obtain ⟨contracts, hsame⟩ := h.same no
    rw [hsame]
    exact ⟨rfl, rfl, rfl, rfl⟩
  obtain ⟨hpublic, hoverride, hty, hid⟩ := hfields
  -- no type is both of those that are compared
  have hskip : ((st.functions no).isOverride.isSome || (!(st.functions no).isPublic &&
      ((st.functions no).ty != .function || (st.functions no).ty != .constructor))) = true ↔
      ¬ (functions no).Counted := by
    rw [hpublic, hoverride, hty, Function.Counted]
    cases (functions no).isOverride <;> cases (functions no).isPublic <;> cases (functions no).ty <;> simp
  unfold mangleFunction
  dsimp only
  by_cases hcount : (functions no).Counted
  · rw [if_neg (mt hskip.mp (not_not.mpr hcount)), hid]
    have hseen : ∀ s f, Function.update st.repeatedNames (functions no).id (some no) s = some f →
        f ∈ l ++ [no] ∧ (functions f).Counted ∧ (functions f).id = s := by
      intro s f hf
      by_cases hs : s = (functions no).id
      · rw [hs, Function.update_self] at hf
        obtain rfl := Option.some.inj hf
        exact ⟨by simp, hcount, hs.symm⟩
      · rw [Function.update_of_ne hs] at hf
        obtain ⟨hmem, hrest⟩ := h.seen s f hf
        exact ⟨List.mem_append_left _ hmem, hrest⟩
    have hunseen : ∀ s, Function.update st.repeatedNames (functions no).id (some no) s = none →
        ∀ f ∈ l ++ [no], (functions f).Counted → (functions f).id ≠ s := by
      intro s hs f hf hfcount
      by_cases hne : s = (functions no).id
      · rw [hne, Function.update_self] at hs
        cases hs
      · rw [Function.update_of_ne hne] at hs
        rcases List.mem_append.mp hf with hf | hf
        · exact h.unseen s hs f hf hfcount
        · rw [List.mem_singleton.mp hf]
          exact fun heq => hne heq.symm
    cases hold : st.repeatedNames (functions no).id with
    | none =>
      refine ⟨h.same, fun f => ?_, hseen, hunseen⟩
      rw [Repeated.concat_iff hnew hcount, ← h.marked]
      refine (or_iff_left fun ⟨_, _, _, g, hg, hgcount, hgid⟩ => ?_).symm
      exact h.unseen _ hold g hg hgcount hgid
    | some old =>
      obtain ⟨hmem, holdcount, holdid⟩ := h.seen _ old hold
      refine ⟨mark_same no (mark_same old h.same), fun f => ?_, hseen, hunseen⟩
      rw [mem_mark_iff, mem_mark_iff, Repeated.concat_iff hnew hcount]
      show _ ∨ _ ∨ contractNo ∈ (st.functions f).mangledNameContracts ↔ _
      rw [h.marked]
      constructor
      · rintro (rfl | rfl | hf)
        · exact .inr ⟨.inl rfl, hcount, rfl, old, hmem, holdcount, holdid⟩
        · exact .inr ⟨.inr hmem, holdcount, holdid, f, hmem, holdcount, holdid⟩
        · exact .inl hf
      · rintro (hf | ⟨rfl | hf, hfcount, hfid, -⟩)
        · exact .inr (.inr hf)
        · exact .inl rfl
        · by_cases hfold : f = old
          · exact .inr (.inl hfold)
          · exact .inr (.inr ⟨hf, hfcount, old, hmem, fun h => hfold h.symm, holdcount, holdid.trans hfid.symm⟩)
  · rw [if_pos (hskip.mpr hcount)]
    refine ⟨h.same, fun f => ?_, fun s f hf => ?_, fun s hs f hf hfcount => ?_⟩
    · rw [h.marked, Repeated.concat_iff_of_not_counted hcount]
    · obtain ⟨hmem, hrest⟩ := h.seen s f hf
      exact ⟨List.mem_append_left _ hmem, hrest⟩
    · rcases List.mem_append.mp hf with hf | hf
      · exact h.unseen s hs f hf hfcount
      · exact absurd (List.mem_singleton.mp hf ▸ hfcount) hcount

theorem MangledSoFar.foldl {l : List (Fin m)} {st : MangleState m} (h : MangledSoFar functions contractNo l st)
    (l' : List (Fin m)) (hnodup : (l ++ l').Nodup) :
    MangledSoFar functions contractNo (l ++ l') (l'.foldl (mangleFunction contractNo) st) := by
  induction l' generalizing l st with
  | nil => rwa [List.append_nil]
  | cons no l' ih =>
    rw [List.append_cons] at hnodup ⊢
    refine ih (h.step fun hmem => ?_) hnodup
    exact List.nodup_append.mp (List.nodup_append.mp hnodup).1 |>.2.2 no hmem no List.mem_cons_self rfl

theorem mangleFunctionNames_spec {all : List (Fin m)} (hnodup : all.Nodup)
    (hfresh : ∀ no, contractNo ∉ (functions no).mangledNameContracts) (no : Fin m) :
    (∃ contracts, mangleFunctionNames contractNo all functions no =
      { functions no with mangledNameContracts := contracts }) ∧
    (contractNo ∈ (mangleFunctionNames contractNo all functions no).mangledNameContracts ↔ Repeated functions all no) := by
  have hinit : MangledSoFar functions contractNo [] ⟨fun _ => none, functions⟩ :=
    ⟨fun no => ⟨_, rfl⟩, fun no => iff_of_false (hfresh no) fun h => absurd h.1 List.not_mem_nil, nofun,
      fun _ _ no hno => absurd hno List.not_mem_nil⟩
  have h := hinit.foldl all hnodup
  exact ⟨h.same no, h.marked no⟩

/-! ## The checks -/

theorem uniqueNames_eq_nil {names : String → Option (Fin m)} {l : List (Fin m)} (h : uniqueNames functions names l = []) :
    (∀ f ∈ l, (functions f).isPublic = true → names (functions f).mangledName = none) ∧
      l.Pairwise fun f g => (functions f).isPublic = true → (functions g).isPublic = true →
        (functions f).mangledName ≠ (functions g).mangledName := by
  induction l generalizing names with
  | nil => exact ⟨fun f hf => absurd hf List.not_mem_nil, .nil⟩
  | cons no l ih =>
    rw [uniqueNames] at h
    by_cases hpublic : (functions no).isPublic = true
    · simp only [hpublic, Bool.not_true, Bool.false_eq_true, if_false, List.append_eq_nil_iff] at h
      obtain ⟨hno, hrest⟩ := h
      obtain ⟨hnone, hpairs⟩ := ih hrest
      have hfirst : names (functions no).mangledName = none := by
        by_contra hsome
        rw [if_pos (Option.isSome_iff_ne_none.mpr hsome)] at hno
        cases hno
      have hne : ∀ f ∈ l, (functions f).isPublic = true → (functions no).mangledName ≠ (functions f).mangledName := by
        intro f hf hfpublic heq
        have := hnone f hf hfpublic
        rw [← heq, Function.update_self] at this
        cases this
      refine ⟨List.forall_mem_cons.mpr ⟨fun _ => hfirst, fun f hf hfpublic => ?_⟩,
        .cons (fun f hf _ hfpublic => hne f hf hfpublic) hpairs⟩
      have := hnone f hf hfpublic
      rwa [Function.update_of_ne fun heq => hne f hf hfpublic heq.symm] at this
    · have hskip : (!(functions no).isPublic) = true := by simpa using hpublic
      simp only [hskip, if_true] at h
      obtain ⟨hnone, hpairs⟩ := ih h
      exact ⟨List.forall_mem_cons.mpr ⟨fun h => absurd h hpublic, hnone⟩,
        .cons (fun f _ h => absurd h hpublic) hpairs⟩

theorem checkMangledFunctionNames_eq_nil {all : List (Fin m)} (h : checkMangledFunctionNames all functions = [])
    {f g : Fin m} (hf : f ∈ all) (hg : g ∈ all) (hfpublic : (functions f).isPublic = true)
    (hgpublic : (functions g).isPublic = true)
    (hfty : (functions f).ty = .function ∨ (functions f).ty = .constructor)
    (hgty : (functions g).ty = .function ∨ (functions g).ty = .constructor) :
    (functions f).mangledName ≠ (functions g).id := by
  intro heq
  have hmem : ∀ x ∈ all, (functions x).isPublic = true →
      ((functions x).ty = .function ∨ (functions x).ty = .constructor) →
      x ∈ (all.filter fun f => (functions f).isPublic).filter fun f =>
        (functions f).ty = .function || (functions f).ty = .constructor := by
    intro x hx hpublic hty
    simpa [List.mem_filter, hx, hpublic] using hty
  have herror := List.flatMap_eq_nil_iff.mp h f (hmem f hf hfpublic hfty)
  rw [if_pos (List.any_eq_true.mpr ⟨g, hmem g hg hgpublic hgty, decide_eq_true heq⟩)] at herror
  cases herror

end

namespace Program

variable {p : Program n m} {st : InheritanceState m} {c : Fin n} {order : List (Fin n)}

/-! ## The functions of a contract -/

theorem nodup_addFunction (no : Fin m) (h : st.allFunctions.Nodup) : (p.addFunction no st).allFunctions.Nodup := by
  have hinsert : ∀ st : InheritanceState m, st.allFunctions.Nodup → (st.insertFunction no).allFunctions.Nodup := by
    intro st h
    unfold InheritanceState.insertFunction
    dsimp only
    split
    · exact h
    · rename_i hno
      exact (List.perm_orderedInsert (· ≤ ·) no st.allFunctions).nodup_iff.mpr (List.nodup_cons.mpr ⟨hno, h⟩)
  unfold addFunction
  dsimp only
  split
  · exact hinsert _ h
  · exact hinsert _ h

theorem checkEntry_all (entry : List (Nat × Fin m)) (no : Fin m) :
    (p.checkEntry entry no st).allFunctions = st.allFunctions := by
  have hif : ∀ (b : Bool) (message : String) (st : InheritanceState m),
      (st.errorIf b message).allFunctions = st.allFunctions := by
    intro b message st
    cases b <;> rfl
  unfold checkEntry
  dsimp only
  split
  · exact hif _ _ _
  · split
    · exact (hif _ _ _).trans (hif _ _ _)
    · exact hif _ _ _

theorem checkPrevious_all (base : Fin n) (no prev : Fin m) :
    (p.checkPrevious base no st prev).allFunctions = st.allFunctions := by
  unfold checkPrevious
  dsimp only
  repeat' split
  all_goals rfl

theorem foldl_checkPrevious_all (base : Fin n) (no : Fin m) (l : List (Fin m)) :
    (l.foldl (p.checkPrevious base no) st).allFunctions = st.allFunctions := by
  induction l generalizing st with
  | nil => rfl
  | cons prev l ih => exact ih.trans (checkPrevious_all base no prev)

/-- A step adds the function to `all_functions`, unless there is an error or the function has no body. -/
theorem checkFunction_all (c base : Fin n) (no : Fin m) :
    ((p.checkFunction c st (base, no)).allFunctions = st.allFunctions ∧
      ((p.functions no).hasBody = true → (p.checkFunction c st (base, no)).diagnostics ≠ [])) ∨
    ∃ st', st'.allFunctions = st.allFunctions ∧ p.checkFunction c st (base, no) = p.addFunction no st' := by
  unfold checkFunction
  dsimp only
  split
  · exact .inr ⟨_, checkEntry_all _ no, rfl⟩
  split
  · exact .inl ⟨rfl, fun _ => error_diagnostics⟩
  split
  · rename_i hbody
    refine .inl ⟨rfl, fun h => ?_⟩
    simp [h] at hbody
  · exact .inr ⟨_, foldl_checkPrevious_all base no _, rfl⟩

theorem foldl_checkFunction_all (c : Fin n) (l : List (Fin n × Fin m)) (hnodup : st.allFunctions.Nodup) :
    (l.foldl (p.checkFunction c) st).allFunctions.Nodup ∧
      (∀ f ∈ st.allFunctions, f ∈ (l.foldl (p.checkFunction c) st).allFunctions) ∧
      ((l.foldl (p.checkFunction c) st).diagnostics = [] → ∀ d ∈ l, (p.functions d.2).hasBody = true →
        d.2 ∈ (l.foldl (p.checkFunction c) st).allFunctions) := by
  induction l generalizing st with
  | nil => exact ⟨hnodup, fun f hf => hf, fun _ d hd => absurd hd List.not_mem_nil⟩
  | cons d l ih =>
    obtain ⟨base, no⟩ := d
    rw [List.foldl_cons]
    rcases checkFunction_all c base no with ⟨hall, hbody⟩ | ⟨st', hall, hadd⟩
    · obtain ⟨hnd, hkeep, hmem⟩ := ih (by rwa [hall])
      rw [hall] at hkeep
      refine ⟨hnd, hkeep, fun h d hd hb => ?_⟩
      obtain rfl | hd := List.mem_cons.mp hd
      · exact absurd (foldl_checkFunction_diagnostics l h) (hbody hb)
      · exact hmem h d hd hb
    · obtain ⟨hnd, hkeep, hmem⟩ := ih (hadd ▸ nodup_addFunction no (hall ▸ hnodup))
      rw [hadd] at hkeep hmem hnd ⊢
      refine ⟨hnd, fun f hf => hkeep f (mem_addFunction.mpr (.inr (hall ▸ hf))), fun h d hd hb => ?_⟩
      obtain rfl | hd := List.mem_cons.mp hd
      · exact hkeep no (mem_addFunction.mpr (.inl rfl))
      · exact hmem h d hd hb

theorem nodup_allFunctions (p : Program n m) (c : Fin n) (order : List (Fin n)) :
    (p.checkInheritance c order).allFunctions.Nodup :=
  (foldl_checkFunction_all c (p.declarations order) List.nodup_nil).1

/-- A function with a body is in `all_functions` if there is no error. -/
theorem mem_allFunctions {b : Fin n} {no : Fin m} (h : (p.checkInheritance c order).diagnostics = []) (hb : b ∈ order)
    (hno : no ∈ p.contractFunctions b) (hbody : (p.functions no).hasBody = true) :
    no ∈ (p.checkInheritance c order).allFunctions := by
  unfold checkInheritance at h ⊢
  dsimp only at h ⊢
  have heq := errors_diagnostics h
  rw [heq] at h ⊢
  refine (foldl_checkFunction_all c (p.declarations order) List.nodup_nil).2.2 h (b, no) ?_ hbody
  exact List.mem_flatMap.mpr ⟨b, hb, List.mem_map.mpr ⟨no, hno, rfl⟩⟩

/-! ## Unique names -/

/-- The functions as they are declared: signatures and mangled names are those of `Function::new`, a name is an
identifier, and only a constructor that is not named is called `new`, which is a keyword. -/
structure Declared (p : Program n m) (c : Fin n) : Prop where
  new : ∀ no, ∃ params, (p.functions no).signature = (Function.new (p.functions no).id (p.functions no).contractNo
    (p.functions no).ty (p.functions no).visibility params).signature
  mangledName : ∀ no, (p.functions no).mangledName = mangle (p.functions no).signature
  unnamed : ∀ no, (p.functions no).ty = .fallback ∨ (p.functions no).ty = .receive → (p.functions no).id = ""
  named : ∀ no, (p.functions no).ty = .function ∨ (p.functions no).ty = .constructor →
    (p.functions no).id ≠ "" ∧ '@' ∉ (p.functions no).id.toList
  keyword : ∀ no, (p.functions no).ty = .function → (p.functions no).id ≠ "new"
  nodup : (p.contractFunctions c).Nodup
  fresh : ∀ no, c.val ∉ (p.functions no).mangledNameContracts

/-- A constructor or a message of the metadata -/
def Exported (p : Program n m) (c : Fin n) (order : List (Fin n)) (no : Fin m) : Prop :=
  no ∈ p.exportedConstructors c order ∨ no ∈ p.messages c order

/-- The name is not mangled: a constructor, an overriding function, or the only other public function of its name -/
def Plain (p : Program n m) (c : Fin n) (order : List (Fin n)) (no : Fin m) : Prop :=
  (p.functions no).ty = .constructor ∨ (p.functions no).isOverride ≠ none ∨
    ∀ g ∈ (p.checkInheritance c order).allFunctions, (p.functions g).isPublic = true →
      (p.functions g).isOverride = none → (p.functions g).id = (p.functions no).id → g = no

/-- No name is plain twice, and mangled names differ unless both functions are of the contract itself. -/
def NamesApart (p : Program n m) (c : Fin n) (order : List (Fin n)) : Prop :=
  ∀ f g, p.Exported c order f → p.Exported c order g → f ≠ g →
    (p.Plain c order f → p.Plain c order g → (p.functions f).id ≠ (p.functions g).id) ∧
    (¬ p.Plain c order f → ¬ p.Plain c order g → ¬ (f ∈ p.contractFunctions c ∧ g ∈ p.contractFunctions c) →
      (p.functions f).mangledName ≠ (p.functions g).mangledName)

/-- The name of a function in the metadata -/
def nameOf (p : Program n m) (c : Fin n) (order : List (Fin n)) (no : Fin m) : String :=
  if (p.functions no).ty = .constructor then constructorLabel (p.mangled c order no).toFunction
  else messageLabel c (p.mangled c order no).toFunction

section

variable (hdecl : p.Declared c)

include hdecl

/-- The pass changes only where a function is mangled. -/
theorem mangled_fields (no : Fin m) :
    (p.mangled c order no).id = (p.functions no).id ∧ (p.mangled c order no).ty = (p.functions no).ty ∧
      (p.mangled c order no).visibility = (p.functions no).visibility ∧
      (p.mangled c order no).mangledName = (p.functions no).mangledName := by
  obtain ⟨⟨contracts, hsame⟩, -⟩ := mangleFunctionNames_spec (nodup_allFunctions p c order) hdecl.fresh no
  rw [mangled, hsame]
  exact ⟨rfl, rfl, rfl, rfl⟩

theorem isPublic_mangled (no : Fin m) : (p.mangled c order no).isPublic = (p.functions no).isPublic := by
  rw [Function.isPublic, (mangled_fields hdecl no).2.2.1, Function.isPublic]

theorem isConstructor_mangled (no : Fin m) :
    (p.mangled c order no).isConstructor = decide ((p.functions no).ty = .constructor) := by
  rw [Function.isConstructor, (mangled_fields hdecl no).2.1]
  rfl

theorem externallyCallable_spec {no : Fin m} (h : p.externallyCallable c order no = true) :
    (p.functions no).isPublic = true ∧ (p.functions no).ty ≠ .modifier := by
  unfold externallyCallable at h
  dsimp only at h
  split at h
  · cases h
  split at h
  · simp only [Bool.and_eq_true, bne_iff_ne] at h
    rw [isPublic_mangled hdecl, (mangled_fields hdecl no).2.1] at h
    exact ⟨h.1.2, h.2⟩
  · cases h

theorem mem_exportedConstructors {no : Fin m} (h : no ∈ p.exportedConstructors c order) :
    no ∈ p.contractFunctions c ∧ (p.functions no).ty = .constructor ∧ (p.functions no).isPublic = true := by
  obtain ⟨hmem, h⟩ := List.mem_filter.mp h
  rw [Bool.and_eq_true, isConstructor_mangled hdecl, decide_eq_true_iff] at h
  exact ⟨hmem, h.1, (externallyCallable_spec hdecl h.2).1⟩

theorem mem_messages {no : Fin m} (h : no ∈ p.messages c order) :
    no ∈ (p.checkInheritance c order).allFunctions ∧ (p.functions no).ty ≠ .constructor ∧
      (p.functions no).isPublic = true ∧ (p.functions no).ty ≠ .modifier := by
  obtain ⟨h, hty⟩ := List.mem_filter.mp h
  obtain ⟨hmem, hcall⟩ := List.mem_filter.mp h
  rw [isConstructor_mangled hdecl] at hty
  exact ⟨hmem, by simpa using hty, externallyCallable_spec hdecl hcall⟩

/-- What an exported function is, in a contract without errors -/
structure IsExported (p : Program n m) (c : Fin n) (order : List (Fin n)) (no : Fin m) : Prop where
  all : no ∈ (p.checkInheritance c order).allFunctions
  isPublic : (p.functions no).isPublic = true
  ty : (p.functions no).ty ≠ .modifier
  own : (p.functions no).ty = .constructor → no ∈ p.contractFunctions c

theorem exported_spec (h : (p.checkInheritance c order).diagnostics = []) (hc : c ∈ order) {no : Fin m}
    (hno : p.Exported c order no) : IsExported p c order no := by
  rcases hno with hno | hno
  · obtain ⟨hmem, hty, hpublic⟩ := mem_exportedConstructors hdecl hno
    have hbody : (p.functions no).hasBody = true := by
      by_contra hbody
      have hvirtual := p.virtual_of_no_body no (by simpa using hbody)
      rw [p.constructor_not_virtual no hty] at hvirtual
      cases hvirtual
    exact ⟨mem_allFunctions h hc hmem hbody, hpublic, by rw [hty]; nofun, fun _ => hmem⟩
  · obtain ⟨hmem, hty, hpublic, hmodifier⟩ := mem_messages hdecl hno
    exact ⟨hmem, hpublic, hmodifier, fun h => absurd h hty⟩

/-- A plain name is the name of the function, another one is the mangled name. -/
theorem nameOf_eq {no : Fin m} (hno : IsExported p c order no) [Decidable (p.Plain c order no)] :
    p.nameOf c order no = if p.Plain c order no then (p.functions no).id else (p.functions no).mangledName := by
  obtain ⟨hid, -, -, hmangled⟩ := @mangled_fields _ _ p c order hdecl no
  unfold nameOf
  by_cases hty : (p.functions no).ty = .constructor
  · have hempty : (p.functions no).id.isEmpty = false := by
      have := (hdecl.named no (.inr hty)).1
      simpa [String.isEmpty_iff] using this
    rw [if_pos hty, if_pos (.inl hty), constructorLabel, hid, hempty]
    rfl
  · have hmark : (p.mangled c order no).mangledNameContracts.contains c.val = true ↔ ¬ p.Plain c order no := by
      have hspec := (mangleFunctionNames_spec (nodup_allFunctions p c order) hdecl.fresh no).2
      rw [List.contains_iff_mem, mangled, hspec, Plain, Repeated, Function.Counted]
      push Not
      constructor
      · rintro ⟨-, ⟨-, hoverride⟩, g, hg, hne, hcount, hgid⟩
        exact ⟨hty, hoverride, g, hg, hcount.1, hcount.2, hgid, hne⟩
      · rintro ⟨-, hoverride, g, hg, hpublic, hgoverride, hgid, hne⟩
        exact ⟨hno.all, ⟨hno.isPublic, hoverride⟩, g, hg, hne, ⟨hpublic, hgoverride⟩, hgid⟩
    rw [if_neg hty, messageLabel, hid, hmangled]
    by_cases hplain : p.Plain c order no
    · rw [if_neg (fun h => hmark.mp h hplain), if_pos hplain]
    · rw [if_pos (hmark.mpr hplain), if_neg hplain]

/-- The mangled names of the functions without a name have an `@`, the others an underscore. -/
theorem at_mem_mangledName {no : Fin m} (hty : (p.functions no).ty = .fallback ∨ (p.functions no).ty = .receive) :
    '@' ∈ (p.functions no).mangledName.toList := by
  obtain ⟨params, hsignature⟩ := hdecl.new no
  rw [hdecl.mangledName, hsignature]
  rcases hty with hty | hty
  · rw [hty]
    exact (by decide : '@' ∈ (mangle "@fallback").toList)
  · rw [hty]
    exact (by decide : '@' ∈ (mangle "@receive").toList)

theorem underscore_mem_mangledName {no : Fin m}
    (hty : ¬ ((p.functions no).ty = .fallback ∨ (p.functions no).ty = .receive)) :
    '_' ∈ (p.functions no).mangledName.toList := by
  obtain ⟨params, hsignature⟩ := hdecl.new no
  rw [hdecl.mangledName, hsignature]
  refine underscore_mem_mangle ?_
  cases h : (p.functions no).ty with
  | fallback => exact absurd (.inl h) hty
  | receive => exact absurd (.inr h) hty
  | constructor | function => simp [Function.new, String.toList_append]
  | modifier => simp [Function.new, String.toList_append]

/-- No function has the name that another one is mangled to. -/
theorem id_ne_mangledName
    (hcheck : checkMangledFunctionNames (p.checkInheritance c order).allFunctions (p.mangled c order) = [])
    {f g : Fin m} (hf : IsExported p c order f) (hg : IsExported p c order g) :
    (p.functions f).id ≠ (p.functions g).mangledName := by
  intro heq
  have hnamed : ∀ {no : Fin m}, IsExported p c order no →
      ¬ ((p.functions no).ty = .fallback ∨ (p.functions no).ty = .receive) →
      (p.functions no).ty = .function ∨ (p.functions no).ty = .constructor := by
    intro no hno hty
    have := hno.ty
    cases h : (p.functions no).ty <;> simp_all
  by_cases hgty : (p.functions g).ty = .fallback ∨ (p.functions g).ty = .receive
  · have hat := at_mem_mangledName hdecl hgty
    rw [← heq] at hat
    by_cases hfty : (p.functions f).ty = .fallback ∨ (p.functions f).ty = .receive
    · rw [hdecl.unnamed f hfty] at hat
      cases hat
    · exact (hdecl.named f (hnamed hf hfty)).2 hat
  · by_cases hfty : (p.functions f).ty = .fallback ∨ (p.functions f).ty = .receive
    · have hunderscore := underscore_mem_mangledName hdecl hgty
      rw [← heq, hdecl.unnamed f hfty] at hunderscore
      cases hunderscore
    · obtain ⟨hfid, hftyeq, -, -⟩ := @mangled_fields _ _ p c order hdecl f
      obtain ⟨-, hgtyeq, -, hgname⟩ := @mangled_fields _ _ p c order hdecl g
      refine checkMangledFunctionNames_eq_nil hcheck hg.all hf.all ?_ ?_ ?_ ?_ ?_
      · rw [isPublic_mangled hdecl, hg.isPublic]
      · rw [isPublic_mangled hdecl, hf.isPublic]
      · rw [hgtyeq]
        exact hnamed hg hgty
      · rw [hftyeq]
        exact hnamed hf hfty
      · rw [hgname, hfid, heq]

theorem nameOf_ne_iff
    (hcheck : checkMangledFunctionNames (p.checkInheritance c order).allFunctions (p.mangled c order) = [])
    (hunique : uniqueNames (p.mangled c order) (fun _ => none) (p.contractFunctions c) = [])
    {f g : Fin m} (hf : IsExported p c order f) (hg : IsExported p c order g) (hne : f ≠ g) :
    p.nameOf c order f ≠ p.nameOf c order g ↔
      (p.Plain c order f → p.Plain c order g → (p.functions f).id ≠ (p.functions g).id) ∧
      (¬ p.Plain c order f → ¬ p.Plain c order g → ¬ (f ∈ p.contractFunctions c ∧ g ∈ p.contractFunctions c) →
        (p.functions f).mangledName ≠ (p.functions g).mangledName) := by
  classical
  rw [nameOf_eq hdecl hf, nameOf_eq hdecl hg]
  by_cases hfplain : p.Plain c order f <;> by_cases hgplain : p.Plain c order g
  · simp [hfplain, hgplain]
  · simp [hfplain, hgplain, id_ne_mangledName hdecl hcheck hf hg]
  · simp [hfplain, hgplain, (id_ne_mangledName hdecl hcheck hg hf).symm]
  · have hown : f ∈ p.contractFunctions c ∧ g ∈ p.contractFunctions c →
        (p.functions f).mangledName ≠ (p.functions g).mangledName := by
      rintro ⟨hfmem, hgmem⟩
      have : Std.Symm fun f g => (p.mangled c order f).isPublic = true → (p.mangled c order g).isPublic = true →
          (p.mangled c order f).mangledName ≠ (p.mangled c order g).mangledName := ⟨fun _ _ h hg hf => (h hf hg).symm⟩
      have := (uniqueNames_eq_nil hunique).2.forall hfmem hgmem hne
      rw [isPublic_mangled hdecl, isPublic_mangled hdecl, (mangled_fields hdecl f).2.2.2,
        (mangled_fields hdecl g).2.2.2] at this
      exact this hf.isPublic hg.isPublic
    rw [if_neg hfplain, if_neg hgplain]
    exact ⟨fun h => ⟨fun h => absurd h hfplain, fun _ _ _ => h⟩, fun h =>
      (em _).elim hown (h.2 hfplain hgplain)⟩

theorem nameOf_ne_new {no : Fin m} (hno : IsExported p c order no) (hty : (p.functions no).ty ≠ .constructor) :
    p.nameOf c order no ≠ "new" := by
  classical
  rw [nameOf_eq hdecl hno]
  split
  · intro heq
    cases h : (p.functions no).ty with
    | constructor => exact hty h
    | modifier => exact hno.ty h
    | function => exact hdecl.keyword no h heq
    | fallback =>
      rw [hdecl.unnamed no (.inl h)] at heq
      exact absurd heq (by decide)
    | receive =>
      rw [hdecl.unnamed no (.inr h)] at heq
      exact absurd heq (by decide)
  · intro heq
    by_cases hunnamed : (p.functions no).ty = .fallback ∨ (p.functions no).ty = .receive
    · have := at_mem_mangledName hdecl hunnamed
      rw [heq] at this
      exact absurd this (by decide)
    · have := underscore_mem_mangledName hdecl hunnamed
      rw [heq] at this
      exact absurd this (by decide)

end

/-- The names in the metadata of a contract without errors -/
theorem exportedNames_nodup_iff (hash : SelectorHash) (hord : p.ns.Linearises c order) (hdecl : p.Declared c)
    (h : p.resolveContract hash c order = []) : (p.exportedNames c order).Nodup ↔ p.NamesApart c order := by
  have hc : c ∈ order := (hord.mem_iff c).mpr (.inl rfl)
  unfold resolveContract at h
  dsimp only at h
  obtain ⟨h, hcheck⟩ := List.append_eq_nil_iff.mp h
  obtain ⟨h, hunique⟩ := List.append_eq_nil_iff.mp h
  rw [uniqueConstructorNames, h] at hunique
  have hinherit := (List.append_eq_nil_iff.mp (List.append_eq_nil_iff.mp h).1).1
  have hexported : ∀ no, p.Exported c order no → IsExported p c order no := fun no => exported_spec hdecl hinherit hc
  have hconstructors : (p.exportedConstructors c order).map
      (fun no => constructorLabel (p.mangled c order no).toFunction) =
        (p.exportedConstructors c order).map (p.nameOf c order) :=
    List.map_congr_left fun no hno => by rw [nameOf, if_pos (mem_exportedConstructors hdecl hno).2.1]
  have hmessages : (p.messages c order).map (fun no => messageLabel c (p.mangled c order no).toFunction) =
      (p.messages c order).map (p.nameOf c order) :=
    List.map_congr_left fun no hno => by rw [nameOf, if_neg (mem_messages hdecl hno).2.1]
  have hnodup : (p.exportedConstructors c order ++ p.messages c order).Nodup := by
    refine List.nodup_append.mpr ⟨hdecl.nodup.filter _, ((nodup_allFunctions p c order).filter _).filter _, ?_⟩
    rintro f hf g hg rfl
    exact (mem_messages hdecl hg).2.1 (mem_exportedConstructors hdecl hf).2.1
  -- the name of the default constructor is that of no message
  have hdefault : (p.exportedNames c order).Nodup ↔
      ((p.exportedConstructors c order ++ p.messages c order).map (p.nameOf c order)).Nodup := by
    rw [exportedNames, hconstructors, hmessages, List.map_append]
    by_cases hd : p.hasDefaultConstructor c = true
    · have hnone : p.exportedConstructors c order = [] := by
        rw [hasDefaultConstructor, Bool.not_eq_true', List.any_eq_false] at hd
        refine List.filter_eq_nil_iff.mpr fun no hno hcons => hd no hno ?_
        rw [Bool.and_eq_true, isConstructor_mangled hdecl] at hcons
        simpa [Function.isConstructor] using hcons.1
      have hnew : "new" ∉ (p.messages c order).map (p.nameOf c order) := by
        intro hmem
        obtain ⟨no, hno, heq⟩ := List.mem_map.mp hmem
        exact nameOf_ne_new hdecl (hexported no (.inr hno)) (mem_messages hdecl hno).2.1 heq
      rw [if_pos hd, hnone]
      exact (List.nodup_cons (a := "new")).trans (and_iff_right hnew)
    · rw [if_neg hd, List.append_nil]
  rw [hdefault, List.nodup_map_iff_inj_on hnodup]
  constructor
  · intro h f g hf hg hne
    refine (nameOf_ne_iff hdecl hcheck hunique (hexported f hf) (hexported g hg) hne).mp fun heq => hne ?_
    exact h f (List.mem_append.mpr hf) g (List.mem_append.mpr hg) heq
  · intro h f hf g hg heq
    by_contra hne
    have hf := List.mem_append.mp hf
    have hg := List.mem_append.mp hg
    exact (nameOf_ne_iff hdecl hcheck hunique (hexported f hf) (hexported g hg) hne).mpr (h f g hf hg hne) heq

/-! ## An overload beside an overriding function -/

namespace Overloads

def declaration (f : Function) (params : List Codegen.Ty) : Declaration where
  toFunction := f
  mutability := .nonpayable
  isAccessor := false
  params := params
  returns := []
  solanaAccounts := []

local instance neZero_two : NeZero 2 := ⟨by decide⟩

local instance neZero_three : NeZero 3 := ⟨by decide⟩

/-- `interface I { function f(int32) external; }`, and a contract with `f(int32)`, with or without `override`, and
`f(int64)` -/
def program (overrides : Bool) : Program 2 3 where
  ns :=
    { contracts := List.get [⟨"I", .interface, []⟩, ⟨"C", .contract, [0]⟩]
      diagnostics := [] }
  functions := List.get
    [declaration { Function.new "f" (some 0) .function .external ["int32"] with isVirtual := true } [.int 32],
      declaration
        { Function.new "f" (some 1) .function .pub ["int32"] with
          isOverride := if overrides then some [] else none
          hasBody := true }
        [.int 32],
      declaration { Function.new "f" (some 1) .function .pub ["int64"] with hasBody := true } [.int 64]]
  contractFunctions := List.get [[0], [1, 2]]
  symbolErrors := []
  virtual_of_no_body := by cases overrides <;> decide
  constructor_not_virtual := by cases overrides <;> decide
  library_bases := by decide
  library_functions := by cases overrides <;> decide

/-- The beginning of `keccak256` for both signatures -/
def hash : SelectorHash where
  keccak256 s := if s = "f(int32)" then [0xab, 0x49, 0x02, 0x72] else [0x82, 0x55, 0xdb, 0x59]
  functionDiscriminator _ := []

theorem linearises (overrides : Bool) : (program overrides).ns.Linearises 1 [0, 1] := by
  have hlt : ∀ x y, (program overrides).ns.Inherits x y → y < x := by
    cases overrides <;> simp only [Namespace.Inherits] <;> decide
  have htrans : ∀ x y, Relation.TransGen (program overrides).ns.Inherits x y → y < x := by
    intro x y hxy
    induction hxy with
    | single h => exact hlt _ _ h
    | tail _ h ih => exact (hlt _ _ h).trans ih
  obtain ⟨order, hord, hs⟩ := Namespace.contractBases_settles (fun x hx => absurd (htrans x x hx) (lt_irrefl x)) 1
  have heval : Fuel.Settles (fun fuel => (program overrides).ns.contractBases fuel 1) [0, 1] := by
    refine ⟨3, fun fuel hfuel => ?_⟩
    obtain ⟨k, rfl⟩ := Nat.exists_eq_add_of_le' hfuel
    rfl
  rwa [hs.unique heval] at hord

theorem declared (overrides : Bool) : (program overrides).Declared 1 where
  new no := by
    match no with
    | 0 | 1 => exact ⟨["int32"], rfl⟩
    | 2 => exact ⟨["int64"], rfl⟩
  mangledName no := by
    match no with
    | 0 | 1 | 2 => rfl
  unnamed := by cases overrides <;> decide
  named := by cases overrides <;> decide
  keyword := by cases overrides <;> decide
  nodup := by cases overrides <;> decide
  fresh := by cases overrides <;> decide

/-- Without `override` both functions are mangled. -/
theorem exportedNames_nodup_iff_implemented : (program false).exportedNames 1 [0, 1] = ["new", "f_int32", "f_int64"] ∧
    (program false).NamesApart 1 [0, 1] :=
  ⟨by decide, (exportedNames_nodup_iff hash (linearises false) (declared false) (by decide)).mp (by decide)⟩

/-- With `override` neither is: the overriding function is not counted, and the other one is alone. -/
theorem overriding_overload_not_mangled : (program true).resolveContract hash 1 [0, 1] = [] ∧
    (program true).exportedNames 1 [0, 1] = ["new", "f", "f"] ∧ ¬ ((program true).exportedNames 1 [0, 1]).Nodup := by
  decide

end Overloads

end Program

end Solang.Sema
