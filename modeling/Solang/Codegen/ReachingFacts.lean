import Solang.Codegen.ReachingDefinitions

/-!
# Definitions as sets of facts

The maps of the analysis are read as sets of facts, which is all that the
order of their entries leaves. Every operation of the analysis is specified by
the facts it adds or removes.
-/

namespace Solang.Codegen

namespace IndexMap

variable {κ ν : Type} [DecidableEq κ]

theorem mem_entries_iff {m : IndexMap κ ν} {k : κ} {v : ν} :
    (⟨k, v⟩ : Sigma fun _ : κ => ν) ∈ m.entries ↔ m.lookup k = some v := by
  rw [← Option.mem_def]
  exact (AList.mem_lookup_iff).symm

@[simp] theorem lookup_mapValues (f : ν → ν) (m : IndexMap κ ν) (k : κ) :
    (mapValues f m).lookup k = (m.lookup k).map f := by
  ext v
  simp only [Option.map_eq_some_iff, ← mem_entries_iff, mapValues, List.mem_map,
    Sigma.mk.injEq, Sigma.exists, heq_eq_eq]
  constructor
  · rintro ⟨k', w, h, rfl, rfl⟩
    exact ⟨w, h, rfl⟩
  · rintro ⟨w, h, rfl⟩
    exact ⟨k, w, h, rfl, rfl⟩

theorem lookup_insert (m : IndexMap κ ν) (k j : κ) (v : ν) :
    (m.insert k v).lookup j = if j = k then some v else m.lookup j := by
  by_cases h : j = k
  · subst h
    simp
  · rw [AList.lookup_insert_ne h, if_neg h]

theorem lookup_erase (m : IndexMap κ ν) (k j : κ) :
    (m.erase k).lookup j = if j = k then none else m.lookup j := by
  by_cases h : j = k
  · subst h
    simp
  · rw [AList.lookup_erase_ne h, if_neg h]

/-- Equal maps find the same values up to `eqv`, in the other direction too:
the entries of `a` are among the keys of `b`, which has no more of them. -/
theorem lookup_of_beq {eqv : ν → ν → Bool} {a b : IndexMap κ ν} (h : beq eqv a b = true)
    {k : κ} {w : ν} (hw : b.lookup k = some w) : ∃ v, a.lookup k = some v ∧ eqv v w = true := by
  simp only [beq, Bool.and_eq_true, beq_iff_eq, List.all_eq_true] at h
  obtain ⟨hlen, hall⟩ := h
  have hsub : a.keys ⊆ b.keys := by
    intro j hj
    obtain ⟨v, hv⟩ := AList.lookup_isSome.mpr hj |> Option.isSome_iff_exists.mp
    have := hall _ (mem_entries_iff.mpr hv)
    rcases hb : b.lookup j with _ | u
    · rw [hb] at this; cases this
    · exact AList.lookup_isSome.mp (by rw [hb]; rfl)
  have hperm : a.keys.Perm b.keys := by
    refine (List.subperm_of_subset a.keys_nodup hsub).perm_of_length_le ?_
    simp [AList.keys, List.keys, hlen]
  have hk : k ∈ a := by
    refine hperm.symm.subset ?_
    exact AList.lookup_isSome.mp (by rw [hw]; rfl)
  obtain ⟨v, hv⟩ := AList.lookup_isSome.mpr hk |> Option.isSome_iff_exists.mp
  refine ⟨v, hv, ?_⟩
  have := hall _ (mem_entries_iff.mpr hv)
  rwa [hw] at this

end IndexMap

namespace ReachingDefinitions

/-- What can be known about a variable at the start of a block. -/
inductive Kind where
  | present
  | reaches (d : Def)
  | modified (d : Def)
  /-- The variable is in `loop_reaching_variables`. -/
  | loop
  deriving DecidableEq

structure Fact where
  varNo : Nat
  kind : Kind
  deriving DecidableEq

/-- What a variable's definitions say, without the loop marks. -/
def DefsHold (defs : IndexMap Def Bool) : Kind → Prop
  | .present => True
  | .reaches d => d ∈ defs
  | .modified d => defs.lookup d = some true
  | .loop => False

def Holds (vars : VarDefs) (f : Fact) : Prop :=
  ∃ defs, vars.lookup f.varNo = some defs ∧ DefsHold defs f.kind

def BlockHolds (block : BasicBlock) (f : Fact) : Prop :=
  Holds block.defs f ∨ (f.kind = .loop ∧ f.varNo ∈ block.loopReachingVariables)

/-- The order of the analysis: `b` knows everything that `a` does. -/
def Le (a b : VarDefs) : Prop := ∀ f, Holds a f → Holds b f

/-- What one entry of such a map says. -/
def EntryHolds (e : Sigma fun _ : Def => Bool) (k : Kind) : Prop :=
  k = .reaches e.1 ∨ (e.2 = true ∧ k = .modified e.1)

variable {defs : IndexMap Def Bool} {k : Kind} {vars : VarDefs} {f : Fact} {v : Nat}

theorem defsHold_insert {d : Def} {m : Bool} :
    DefsHold (defs.insert d m) k ↔
      EntryHolds ⟨d, m⟩ k ∨ (k ≠ .modified d ∧ DefsHold defs k) := by
  cases k with
  | present | loop | reaches d' => simp [DefsHold, EntryHolds]
  | modified d' =>
    simp only [DefsHold, IndexMap.lookup_insert, EntryHolds]
    split <;> simp_all

theorem not_holds_of_lookup_none (h : vars.lookup f.varNo = none) :
    ¬ Holds vars f := by
  rintro ⟨defs, hl, -⟩
  rw [h] at hl
  cases hl

theorem holds_insert :
    Holds (vars.insert v defs) f ↔
      if f.varNo = v then DefsHold defs f.kind else Holds vars f := by
  unfold Holds
  rw [IndexMap.lookup_insert]
  split <;> simp

/-! ## Transfers -/

theorem holds_kill :
    Holds (applyTransfer vars (.kill v)) f ↔ f.varNo ≠ v ∧ Holds vars f := by
  unfold Holds applyTransfer
  rw [IndexMap.lookup_erase]
  split <;> simp [*]

theorem holds_mod :
    Holds (applyTransfer vars (.mod v)) f ↔
      Holds vars f ∨ (f.varNo = v ∧ ∃ d, f.kind = .modified d ∧ Holds vars ⟨v, .reaches d⟩) := by
  rcases f with ⟨u, k⟩
  simp only [applyTransfer]
  rcases hl : vars.lookup v with _ | entry
  · simp only
    constructor
    · exact .inl
    · rintro (h | ⟨-, d, -, h⟩)
      · exact h
      · exact absurd h (not_holds_of_lookup_none hl)
  · simp only [holds_insert]
    by_cases hu : u = v
    · subst hu
      simp only [if_pos, Holds, hl, Option.some.injEq, exists_eq_left', true_and]
      cases k with
      | present | loop => simp [DefsHold]
      | reaches d =>
        simp [DefsHold, ← AList.lookup_isSome]
      | modified d =>
        simp only [DefsHold, IndexMap.lookup_mapValues, Option.map_eq_some_iff, Kind.modified.injEq,
          exists_eq_left', ← AList.lookup_isSome, Option.isSome_iff_exists]
        constructor
        · rintro ⟨m, hm, -⟩
          exact .inr ⟨m, hm⟩
        · rintro (hm | ⟨m, hm⟩)
          · exact ⟨true, hm, trivial⟩
          · exact ⟨m, hm, trivial⟩
    · simp [hu]

theorem holds_gen {d : Def} :
    Holds (applyTransfer vars (.gen d v)) f ↔
      f = ⟨v, .present⟩ ∨ f = ⟨v, .reaches d⟩ ∨ (f ≠ ⟨v, .modified d⟩ ∧ Holds vars f) := by
  rcases f with ⟨u, k⟩
  by_cases hu : u = v
  · subst hu
    rcases hl : vars.lookup u with _ | entry
    · have hn : ¬ Holds vars ⟨u, k⟩ := not_holds_of_lookup_none hl
      simp only [applyTransfer, hl, holds_insert, if_pos, Fact.mk.injEq, true_and, hn, and_false,
        or_false, defsHold_insert]
      cases k <;> simp [DefsHold, EntryHolds]
    · simp only [applyTransfer, hl, holds_insert, if_pos, Fact.mk.injEq, true_and, defsHold_insert]
      simp only [Holds, hl, Option.some.injEq, exists_eq_left']
      cases k <;> simp [DefsHold, EntryHolds]
  · have : ∀ k', (⟨u, k⟩ : Fact) ≠ ⟨v, k'⟩ := by simp [hu]
    rcases hl : vars.lookup v with _ | entry <;>
      simp [applyTransfer, hl, holds_insert, this, hu]

/-- The copy that an assignment makes after the kill of its target. -/
theorem holds_copy {src : Nat} (hv : vars.lookup v = none) :
    Holds (applyTransfer vars (.copy v src)) f ↔
      (f.varNo = v ∧ Holds vars ⟨src, f.kind⟩) ∨ (f.varNo ≠ v ∧ Holds vars f) := by
  rcases f with ⟨u, k⟩
  rcases hl : vars.lookup src with _ | defs
  · have hn : ¬ Holds vars ⟨src, k⟩ := not_holds_of_lookup_none hl
    simp only [applyTransfer, hl, hn, and_false, false_or, ne_eq]
    constructor
    · intro h
      refine ⟨?_, h⟩
      rintro rfl
      exact not_holds_of_lookup_none hv h
    · exact And.right
  · by_cases hu : u = v
    · simp only [applyTransfer, hl, holds_insert, if_pos hu]
      simp [hu, Holds, hl]
    · simp [applyTransfer, hl, holds_insert, hu]

/-! ## Merging -/

/-- The definition is new, or newly marked, or known as it is. -/
theorem mergeDef_cases (r : IndexMap Def Bool × Bool) (d : Def) (m : Bool) :
    (r.1.lookup d = none ∧ mergeDef r ⟨d, m⟩ = (r.1.insert d m, true)) ∨
    (r.1.lookup d = some false ∧ m = true ∧ mergeDef r ⟨d, m⟩ = (r.1.insert d true, true)) ∨
    (∃ old, r.1.lookup d = some old ∧ (m = true → old = true) ∧ mergeDef r ⟨d, m⟩ = r) := by
  rcases hl : r.1.lookup d with _ | old
  · exact .inl ⟨rfl, by simp [mergeDef, hl]⟩
  · cases old with
    | true => exact .inr (.inr ⟨true, rfl, fun _ => rfl, by simp [mergeDef, hl]⟩)
    | false =>
      cases m with
      | true => exact .inr (.inl ⟨rfl, rfl, by simp [mergeDef, hl]⟩)
      | false => exact .inr (.inr ⟨false, rfl, id, by simp [mergeDef, hl]⟩)

theorem accumulates_mergeDef (e : Sigma fun _ : Def => Bool) :
    Accumulates DefsHold (EntryHolds e) (mergeDef · e) := by
  obtain ⟨d, m⟩ := e
  constructor
  · intro r k
    rcases mergeDef_cases r d m with ⟨hl, he⟩ | ⟨hl, rfl, he⟩ | ⟨old, hl, hm, he⟩
    · have hk : k = .modified d → ¬ DefsHold r.1 k := by
        rintro rfl
        simp [DefsHold, hl]
      rw [he, defsHold_insert]
      tauto
    · rw [he, defsHold_insert]
      simp only [EntryHolds]
      tauto
    · have hk : EntryHolds ⟨d, m⟩ k → DefsHold r.1 k := by
        rintro (rfl | ⟨rfl, rfl⟩)
        · exact AList.lookup_isSome.mp (by rw [hl]; rfl)
        · rw [hm rfl] at hl
          exact hl
      rw [he]
      tauto
  · intro r
    rcases mergeDef_cases r d m with ⟨hl, he⟩ | ⟨hl, rfl, he⟩ | ⟨old, hl, hm, he⟩
    · rw [he]
      simp only [true_iff]
      exact .inr ⟨.reaches d, .inl rfl, AList.lookup_eq_none.mp hl⟩
    · rw [he]
      simp only [true_iff]
      refine .inr ⟨.modified d, .inr ⟨rfl, rfl⟩, ?_⟩
      simp [DefsHold, hl]
    · rw [he]
      refine ⟨.inl, ?_⟩
      rintro (h | ⟨k, rfl | ⟨rfl, rfl⟩, hk⟩)
      · exact h
      · exact absurd (AList.lookup_isSome.mp (by rw [hl]; rfl)) hk
      · rw [hm rfl] at hl
        exact absurd hl hk

theorem exists_entryHolds (hp : k ≠ .present) :
    (∃ e ∈ defs.entries, EntryHolds e k) ↔ DefsHold defs k := by
  simp only [Sigma.exists, IndexMap.mem_entries_iff, EntryHolds]
  cases k with
  | present => exact absurd rfl hp
  | loop => simp [DefsHold]
  | reaches d =>
    simp only [Kind.reaches.injEq, reduceCtorEq, and_false, or_false, DefsHold,
      ← AList.lookup_isSome, Option.isSome_iff_exists]
    constructor
    · rintro ⟨d', m, h, rfl⟩
      exact ⟨m, h⟩
    · rintro ⟨m, h⟩
      exact ⟨d, m, h, rfl⟩
  | modified d =>
    simp only [reduceCtorEq, Kind.modified.injEq, false_or, DefsHold]
    constructor
    · rintro ⟨d', m, h, rfl, rfl⟩
      exact h
    · intro h
      exact ⟨d, true, h, rfl, rfl⟩

theorem defsHold_mergeDefs {entry incoming : IndexMap Def Bool} :
    DefsHold (mergeDefs entry incoming).1 k ↔ DefsHold entry k ∨ DefsHold incoming k := by
  by_cases hp : k = .present
  · simp [hp, DefsHold]
  · have h := (Accumulates.foldl accumulates_mergeDef incoming.entries).holds (entry, false) k
    rwa [exists_entryHolds hp] at h

theorem mergeDefs_changed {entry incoming : IndexMap Def Bool} :
    (mergeDefs entry incoming).2 = true ↔ ∃ k, DefsHold incoming k ∧ ¬ DefsHold entry k := by
  have h := (Accumulates.foldl accumulates_mergeDef incoming.entries).changed (entry, false)
  refine h.trans ?_
  simp only [Bool.false_eq_true, false_or]
  constructor
  · rintro ⟨k, he, hk⟩
    have hp : k ≠ .present := by
      rintro rfl
      exact hk trivial
    exact ⟨k, (exists_entryHolds hp).mp he, hk⟩
  · rintro ⟨k, he, hk⟩
    have hp : k ≠ .present := by
      rintro rfl
      exact hk trivial
    exact ⟨k, (exists_entryHolds hp).mpr he, hk⟩

/-- What the definitions `defs` of a variable `v` say on arrival at `edge`. -/
def VarHolds (edge : Nat) (e : Sigma fun _ : Nat => IndexMap Def Bool) (f : Fact) : Prop :=
  (f.varNo = e.1 ∧ DefsHold e.2 f.kind) ∨
    (f = ⟨e.1, .loop⟩ ∧ ∃ d ∈ e.2.entries, edge ≤ d.1.blockNo)

theorem blockHolds_insert {block : BasicBlock} :
    BlockHolds { block with defs := block.defs.insert v defs } f ↔
      (if f.varNo = v then DefsHold defs f.kind else Holds block.defs f) ∨
        (f.kind = .loop ∧ f.varNo ∈ block.loopReachingVariables) := by
  simp only [BlockHolds, holds_insert]

/-- The first half of `mergeVar`. -/
def mergeVarDefs (incoming : Sigma fun _ : Nat => IndexMap Def Bool) (r : BasicBlock × Bool) :
    BasicBlock × Bool :=
  match r.1.defs.lookup incoming.1 with
  | some entry =>
    let m := mergeDefs entry incoming.2
    ({ r.1 with defs := r.1.defs.insert incoming.1 m.1 }, r.2 || m.2)
  | none => ({ r.1 with defs := r.1.defs.insert incoming.1 incoming.2 }, true)

theorem mergeVar_eq (edge : Nat) (r : BasicBlock × Bool)
    (e : Sigma fun _ : Nat => IndexMap Def Bool) :
    mergeVar edge r e =
      e.2.entries.foldl (fun r d => markLoop edge e.1 r d.1) (mergeVarDefs e r) := rfl

theorem accumulates_mergeVarDefs (e : Sigma fun _ : Nat => IndexMap Def Bool) :
    Accumulates BlockHolds (fun f => f.varNo = e.1 ∧ DefsHold e.2 f.kind) (mergeVarDefs e) := by
  obtain ⟨v, defs⟩ := e
  have hloop : ∀ {k}, k = .loop → ¬ DefsHold defs k := by
    rintro k rfl
    exact id
  constructor
  · rintro r ⟨u, k⟩
    rcases hl : r.1.defs.lookup v with _ | entry
    · simp only [mergeVarDefs, hl, blockHolds_insert]
      by_cases hu : u = v
      · subst hu
        have := not_holds_of_lookup_none (f := ⟨u, k⟩) hl
        simp only [BlockHolds, if_pos]
        tauto
      · simp only [BlockHolds, if_neg hu]
        tauto
    · simp only [mergeVarDefs, hl, blockHolds_insert, defsHold_mergeDefs]
      by_cases hu : u = v
      · subst hu
        simp only [BlockHolds, Holds, hl, Option.some.injEq, exists_eq_left', if_pos]
        tauto
      · simp only [BlockHolds, if_neg hu]
        tauto
  · intro r
    rcases hl : r.1.defs.lookup v with _ | entry
    · simp only [mergeVarDefs, hl, true_iff]
      refine .inr ⟨⟨v, .present⟩, ⟨rfl, trivial⟩, ?_⟩
      rintro (h | ⟨h, -⟩)
      · exact not_holds_of_lookup_none hl h
      · cases h
    · simp only [mergeVarDefs, hl, Bool.or_eq_true, mergeDefs_changed]
      refine or_congr_right ⟨?_, ?_⟩
      · rintro ⟨k, hk, hn⟩
        refine ⟨⟨v, k⟩, ⟨rfl, hk⟩, ?_⟩
        rintro (⟨defs', hl', h⟩ | ⟨h, -⟩)
        · cases hl.symm.trans hl'
          exact hn h
        · exact hloop h hk
      · rintro ⟨⟨u, k⟩, ⟨rfl, hk⟩, hn⟩
        exact ⟨k, hk, fun h => hn (.inl ⟨entry, hl, h⟩)⟩

theorem accumulates_markLoop (edge v : Nat) (d : Def) :
    Accumulates BlockHolds (fun f => edge ≤ d.blockNo ∧ f = ⟨v, .loop⟩) (markLoop edge v · d) := by
  constructor
  · rintro r ⟨u, k⟩
    unfold markLoop
    split
    · simp only [BlockHolds, List.mem_insert_iff, Fact.mk.injEq]
      tauto
    · simp_all
  · intro r
    unfold markLoop
    split
    · rename_i hd
      simp only [Bool.or_eq_true, Bool.not_eq_true', List.contains_eq_mem, decide_eq_false_iff_not]
      refine or_congr_right ⟨?_, ?_⟩
      · intro hv
        refine ⟨_, ⟨hd, rfl⟩, ?_⟩
        rintro (⟨_, _, h⟩ | ⟨-, h⟩)
        · exact h
        · exact hv h
      · rintro ⟨_, ⟨-, rfl⟩, hn⟩ hv
        exact hn (.inr ⟨rfl, hv⟩)
    · simp_all

theorem accumulates_mergeVar (edge : Nat) (e : Sigma fun _ : Nat => IndexMap Def Bool) :
    Accumulates BlockHolds (VarHolds edge e) (mergeVar edge · e) := by
  simp only [mergeVar_eq]
  refine ((accumulates_mergeVarDefs e).comp
    (Accumulates.foldl (fun d => accumulates_markLoop edge e.1 d.1) e.2.entries)).congr ?_
  intro f
  unfold VarHolds
  refine or_congr_right ⟨?_, ?_⟩
  · rintro ⟨d, hd, hb, hf⟩
    exact ⟨hf, d, hd, hb⟩
  · rintro ⟨hf, d, hd, hb⟩
    exact ⟨d, hd, hb, hf⟩

/-- Everything the set `vars` says on arrival at `edge`. -/
def Incoming (edge : Nat) (vars : VarDefs) (f : Fact) : Prop :=
  ∃ e ∈ vars.entries, VarHolds edge e f

theorem Incoming.of_holds {edge : Nat} (h : Holds vars f) :
    Incoming edge vars f := by
  obtain ⟨defs, hl, hd⟩ := h
  exact ⟨_, IndexMap.mem_entries_iff.mpr hl, .inl ⟨rfl, hd⟩⟩

theorem Incoming.varNo {edge : Nat} {vars : VarDefs} {f : Fact} (h : Incoming edge vars f) :
    Holds vars ⟨f.varNo, .present⟩ := by
  obtain ⟨⟨v, defs⟩, he, ⟨rfl, -⟩ | ⟨rfl, -⟩⟩ := h
  · exact ⟨defs, IndexMap.mem_entries_iff.mp he, trivial⟩
  · exact ⟨defs, IndexMap.mem_entries_iff.mp he, trivial⟩

theorem Incoming.holds {edge : Nat} (h : Incoming edge vars f) (hf : f.kind ≠ .loop) :
    Holds vars f := by
  obtain ⟨⟨v, defs⟩, he, ⟨rfl, hd⟩ | ⟨rfl, -⟩⟩ := h
  · exact ⟨defs, IndexMap.mem_entries_iff.mp he, hd⟩
  · exact absurd rfl hf

/-- A set that compares equal has every fact of the other. -/
theorem le_of_beq {a b : VarDefs} (h : IndexMap.beq (IndexMap.beq (· == ·)) a b = true) :
    Le b a := by
  rintro ⟨v, k⟩ ⟨defs, hl, hk⟩
  obtain ⟨defs', hl', he⟩ := IndexMap.lookup_of_beq h hl
  refine ⟨defs', hl', ?_⟩
  cases k with
  | present => trivial
  | loop => exact hk
  | reaches d =>
    obtain ⟨m, hm⟩ := Option.isSome_iff_exists.mp (AList.lookup_isSome.mpr hk)
    obtain ⟨m', hm', -⟩ := IndexMap.lookup_of_beq he hm
    exact AList.lookup_isSome.mp (by rw [hm']; rfl)
  | modified d =>
    obtain ⟨m', hm', heq⟩ := IndexMap.lookup_of_beq he hk
    rw [beq_iff_eq] at heq
    rw [DefsHold, hm', heq]

section MergeInto

variable {edge : Nat} {vars : VarDefs} {block : BasicBlock}

/-- Either the sets were equal and nothing happens, or everything incoming is
added and the flag says whether that is new. -/
theorem mergeInto_cases (edge : Nat) (vars : VarDefs) (block : BasicBlock) :
    (Le vars block.defs ∧ mergeInto edge vars block = (block, false)) ∨
    ((∀ f, BlockHolds (mergeInto edge vars block).1 f ↔
        BlockHolds block f ∨ Incoming edge vars f) ∧
      ((mergeInto edge vars block).2 = true ↔
        ∃ f, Incoming edge vars f ∧ ¬ BlockHolds block f)) := by
  unfold mergeInto
  split
  · rename_i h
    exact .inl ⟨le_of_beq h, rfl⟩
  · have hacc := Accumulates.foldl (accumulates_mergeVar edge) vars.entries
    refine .inr ⟨hacc.holds (block, false), (hacc.changed (block, false)).trans ?_⟩
    simp only [Bool.false_eq_true, false_or]
    rfl

theorem mergeVar_code (edge : Nat) (r : BasicBlock × Bool)
    (e : Sigma fun _ : Nat => IndexMap Def Bool) :
    (mergeVar edge r e).1.instr = r.1.instr ∧
      (mergeVar edge r e).1.transfers = r.1.transfers := by
  have hmark : ∀ (l : List (Sigma fun _ : Def => Bool)) (r : BasicBlock × Bool),
      (l.foldl (fun r d => markLoop edge e.1 r d.1) r).1.instr = r.1.instr ∧
        (l.foldl (fun r d => markLoop edge e.1 r d.1) r).1.transfers = r.1.transfers := by
    intro l
    induction l with
    | nil => intro r; exact ⟨rfl, rfl⟩
    | cons d l ih =>
      intro r
      rw [List.foldl_cons, (ih _).1, (ih _).2]
      unfold markLoop
      split <;> exact ⟨rfl, rfl⟩
  rw [mergeVar_eq, (hmark _ _).1, (hmark _ _).2]
  unfold mergeVarDefs
  split <;> exact ⟨rfl, rfl⟩

theorem mergeInto_code (edge : Nat) (vars : VarDefs) (block : BasicBlock) :
    (mergeInto edge vars block).1.instr = block.instr ∧
      (mergeInto edge vars block).1.transfers = block.transfers := by
  have hfold : ∀ (l : List (Sigma fun _ : Nat => IndexMap Def Bool)) (r : BasicBlock × Bool),
      (l.foldl (mergeVar edge) r).1.instr = r.1.instr ∧
        (l.foldl (mergeVar edge) r).1.transfers = r.1.transfers := by
    intro l
    induction l with
    | nil => intro r; exact ⟨rfl, rfl⟩
    | cons e l ih =>
      intro r
      rw [List.foldl_cons, (ih _).1, (ih _).2]
      exact mergeVar_code edge r e
  unfold mergeInto
  split
  · exact ⟨rfl, rfl⟩
  · exact hfold _ _

theorem blockHolds_mono_mergeInto (h : BlockHolds block f) :
    BlockHolds (mergeInto edge vars block).1 f := by
  rcases mergeInto_cases edge vars block with ⟨-, he⟩ | ⟨hh, -⟩
  · rw [he]
    exact h
  · exact (hh f).mpr (.inl h)

theorem incoming_of_mergeInto (h : BlockHolds (mergeInto edge vars block).1 f) :
    BlockHolds block f ∨ Incoming edge vars f := by
  rcases mergeInto_cases edge vars block with ⟨-, he⟩ | ⟨hh, -⟩
  · rw [he] at h
    exact .inl h
  · exact (hh f).mp h

theorem holds_mergeInto (h : Holds vars f) :
    BlockHolds (mergeInto edge vars block).1 f := by
  rcases mergeInto_cases edge vars block with ⟨hle, he⟩ | ⟨hh, -⟩
  · rw [he]
    exact .inl (hle f h)
  · exact (hh f).mpr (.inr (.of_holds h))

theorem blockHolds_of_unchanged (hc : (mergeInto edge vars block).2 = false)
    (h : BlockHolds (mergeInto edge vars block).1 f) : BlockHolds block f := by
  rcases mergeInto_cases edge vars block with ⟨-, he⟩ | ⟨hh, hch⟩
  · rwa [he] at h
  · rcases (hh f).mp h with h | h
    · exact h
    · by_contra hn
      rw [hch.mpr ⟨f, h, hn⟩] at hc
      cases hc

theorem exists_new_of_changed (hc : (mergeInto edge vars block).2 = true) :
    ∃ f, Incoming edge vars f ∧ BlockHolds (mergeInto edge vars block).1 f ∧
      ¬ BlockHolds block f := by
  rcases mergeInto_cases edge vars block with ⟨-, he⟩ | ⟨hh, hch⟩
  · rw [he] at hc
    cases hc
  · obtain ⟨f, hf, hn⟩ := hch.mp hc
    exact ⟨f, hf, (hh f).mpr (.inr hf), hn⟩

end MergeInto

end ReachingDefinitions

end Solang.Codegen
