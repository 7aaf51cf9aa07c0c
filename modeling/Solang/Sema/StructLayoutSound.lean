import Solang.Lib.Sweep
import Solang.Sema.StructSizes

/-!
# Struct offsets

On ranked structs `struct_offsets` ends, and the offsets that it ends with are those that the sizes and
the alignments of the fields call for.
-/

namespace Solang.Sema.Structs

open Fuel

/-! ## Laid out fields -/

/-- The fields, given by their alignments and sizes, lie behind each other, each of them aligned. What
comes last is the end of the last field, aligned. -/
structure LaidOut (alignment : Nat) (fields : List (Nat × Nat)) (offsets : List Nat) : Prop where
  length : offsets.length = fields.length + 1
  aligned : ∀ (i : Nat) (field : Nat × Nat) (offset : Nat), fields[i]? = some field → offsets[i]? = some offset →
    field.1 ∣ offset
  disjoint : ∀ (i : Nat) (field : Nat × Nat) (offset next : Nat), fields[i]? = some field →
    offsets[i]? = some offset → offsets[i + 1]? = some next → offset + field.2 ≤ next
  size : ∀ total, offsets.getLast? = some total → alignment ∣ total ∧
    ∀ (i : Nat) (field : Nat × Nat) (offset : Nat), i + 1 = fields.length → fields[i]? = some field →
      offsets[i]? = some offset → total < offset + field.2 + alignment

theorem alignUp_lt {alignment : Nat} (h : 0 < alignment) (offset : Nat) :
    Storage.alignUp offset alignment < offset + alignment := by
  unfold Storage.alignUp
  simp only
  split <;> omega

theorem foldl_max (l : List Nat) : l.foldl max 0 = l.max?.getD 0 := by
  cases l with
  | nil => rfl
  | cons a l => rw [List.max?_cons', List.foldl_cons, Nat.zero_max, Option.getD_some]

theorem head_fieldOffsets (offset : Nat) (fields : List (Nat × Nat)) :
    ∃ next, ((Storage.fieldOffsets offset fields).1 ++ [(Storage.fieldOffsets offset fields).2])[0]? = some next ∧
      offset ≤ next := by
  cases fields with
  | nil => exact ⟨offset, rfl, Nat.le_refl _⟩
  | cons field fields => exact ⟨_, rfl, Storage.le_alignUp offset field.1⟩

theorem length_fieldOffsets (offset : Nat) (fields : List (Nat × Nat)) :
    (Storage.fieldOffsets offset fields).1.length = fields.length := by
  induction fields generalizing offset with
  | nil => rfl
  | cons field fields ih => exact congrArg (· + 1) (ih _)

variable {fields : List (Nat × Nat)} {k no : Nat} {field : Field} {f : Nat → Layout}

/-- Each field is aligned and ends before what comes next. -/
theorem fieldOffsets_spec (hpos : ∀ field ∈ fields, 0 < field.1) (start : Nat) {i : Nat}
    {field : Nat × Nat} (h : fields[i]? = some field) :
    ∃ offset next, (Storage.fieldOffsets start fields).1[i]? = some offset ∧ field.1 ∣ offset ∧
      ((Storage.fieldOffsets start fields).1 ++ [(Storage.fieldOffsets start fields).2])[i + 1]? = some next ∧
      offset + field.2 ≤ next ∧
      (i + 1 = fields.length → (Storage.fieldOffsets start fields).2 = offset + field.2) := by
  induction fields generalizing start i with
  | nil => exact absurd h (by simp)
  | cons f fields ih =>
    obtain ⟨hf, hfields⟩ := List.forall_mem_cons.mp hpos
    let first := Storage.alignUp start f.1
    cases i with
    | zero =>
      obtain rfl : f = field := by simpa using h
      obtain ⟨next, hnext, hle⟩ := head_fieldOffsets (first + f.2) fields
      refine ⟨first, next, rfl, Storage.dvd_alignUp hf start, hnext, hle, fun hlast => ?_⟩
      obtain rfl : fields = [] := List.length_eq_zero_iff.mp (by simpa using hlast.symm)
      rfl
    | succ i =>
      obtain ⟨offset, next, hoffset, hdvd, hnext, hle, hlast⟩ := ih hfields (first + f.2) (i := i) h
      exact ⟨offset, next, hoffset, hdvd, hnext, hle, fun hi => hlast (Nat.succ.inj hi)⟩

theorem laidOut_structOffsets (hpos : ∀ field ∈ fields, 0 < field.1) :
    LaidOut ((fields.map (·.1)).max?.getD 1) fields (Storage.structOffsets fields) := by
  have hlen := length_fieldOffsets 0 fields
  let stop := (Storage.fieldOffsets 0 fields).2
  let largest := (fields.map (·.1)).foldl max 0
  let total := if 1 < largest then Storage.alignUp stop largest else stop
  have hoffsets : Storage.structOffsets fields = (Storage.fieldOffsets 0 fields).1 ++ [total] := rfl
  have hstop : stop ≤ total := by
    simp only [total]
    split
    · exact Storage.le_alignUp stop largest
    · exact Nat.le_refl stop
  have hget : ∀ i < fields.length, (Storage.structOffsets fields)[i]? = (Storage.fieldOffsets 0 fields).1[i]? := by
    intro i hi
    rw [hoffsets, List.getElem?_append_left (by omega)]
  refine ⟨by rw [hoffsets]; simp [hlen], ?_, ?_, ?_⟩
  · intro i field offset hfield hoffset
    obtain ⟨hi, -⟩ := List.getElem?_eq_some_iff.mp hfield
    obtain ⟨_, _, hoffset', hdvd, -⟩ := fieldOffsets_spec hpos 0 hfield
    rw [hget i hi, hoffset'] at hoffset
    exact Option.some.inj hoffset ▸ hdvd
  · intro i field offset next hfield hoffset hnext
    obtain ⟨hi, -⟩ := List.getElem?_eq_some_iff.mp hfield
    obtain ⟨_, next', hoffset', -, hnext', hle, hlast⟩ := fieldOffsets_spec hpos 0 hfield
    rw [hget i hi, hoffset'] at hoffset
    obtain rfl := Option.some.inj hoffset
    by_cases hend : i + 1 = fields.length
    · have htotal : next = total := by
        rw [hoffsets, List.getElem?_append_right (by omega)] at hnext
        simpa [hlen, hend] using hnext.symm
      rw [htotal, ← hlast hend]
      exact hstop
    · rw [hget (i + 1) (by omega)] at hnext
      rw [List.getElem?_append_left (by omega), hnext] at hnext'
      exact Option.some.inj hnext' ▸ hle
  · intro total' htotal
    obtain rfl : total = total' := by simpa [hoffsets] using htotal
    have hend : ∀ (i : Nat) (field : Nat × Nat) (offset : Nat), i + 1 = fields.length → fields[i]? = some field →
        (Storage.structOffsets fields)[i]? = some offset → stop = offset + field.2 := by
      intro i field offset hi hfield hoffset
      obtain ⟨_, _, hoffset', -, -, -, hlast⟩ := fieldOffsets_spec hpos 0 hfield
      rw [hget i (by omega), hoffset'] at hoffset
      exact Option.some.inj hoffset ▸ hlast hi
    obtain ⟨halign, htotal⟩ : (fields.map (·.1)).max?.getD 1 ∣ total ∧
        total < stop + (fields.map (·.1)).max?.getD 1 := by
      have hlargest : largest = (fields.map (·.1)).max?.getD 0 := foldl_max _
      cases hmax : (fields.map (·.1)).max? with
      | none =>
        rw [hmax] at hlargest
        simp [total, hlargest]
      | some a =>
        rw [hmax] at hlargest
        obtain ⟨field, hfield, rfl⟩ := List.mem_map.mp (List.max?_mem hmax)
        have ha := hpos field hfield
        simp only [Option.getD_some] at hlargest ⊢
        simp only [total, hlargest]
        split
        · exact ⟨Storage.dvd_alignUp ha stop, alignUp_lt ha stop⟩
        · obtain hone : field.1 = 1 := by omega
          simp [hone]
    refine ⟨halign, fun i field offset hi hfield hoffset => ?_⟩
    rw [← hend i field offset hi hfield hoffset]
    exact htotal

/-! ## One struct -/

variable {ns : Namespace} {rank : Nat → Nat} {p : Prop}

/-- The alignment of a field in memory and the size that it counts for -/
def MemoryField (ns : Namespace) (field : Field) (x : Nat × Nat) : Prop :=
  0 < x.1 ∧ Returns (fun fuel => alignOf ns fuel field.ty) x.1 ∧
    if field.infiniteSize = false ∧ ns.target = .solana then Returns (fun fuel => solanaStorageSize ns fuel field.ty) x.2
    else x.2 = 0

def StorageField (ns : Namespace) (p : Prop) (field : Field) (x : Nat × Nat) : Prop :=
  (0 < x.1 ∧ x.1 ≤ 8) ∧ ReturnsUnless p (fun fuel => storageAlign ns fuel field.ty) x.1 ∧
    Returns (fun fuel => storageSlots ns fuel field.ty) x.2

theorem checkAlignment_pos {a : Nat} (h : 0 < a) : checkAlignment a = pure a := if_neg (Nat.ne_of_gt h)

theorem memoryField_returns (hns : ns.Declarable) (hrank : ns.Ranked rank)
    (hty : field.ty.Declarable ns) (hbelow : field.ty.Below ns rank k) :
    ∃ x, MemoryField ns field x ∧ Returns (fun fuel => memoryField ns fuel field) x := by
  obtain ⟨a, ha, halign⟩ := alignOf_returns hns hrank k hty hbelow
  obtain ⟨size, hsize⟩ := solanaStorageSize_returns hty
  by_cases hcounts : field.infiniteSize = false ∧ ns.target = .solana
  · refine ⟨(a, size), ⟨ha, halign, ?_⟩, ?_⟩
    · rw [if_pos hcounts]
      exact hsize
    · refine halign.bind ?_
      simp only [checkAlignment_pos ha, pure_bind, hcounts]
      exact hsize.map (Prod.mk a)
  · refine ⟨(a, 0), ⟨ha, halign, ?_⟩, ?_⟩
    · rw [if_neg hcounts]
    · refine halign.bind ?_
      have hcond : (!field.infiniteSize && ns.target = .solana) = false := by simpa using hcounts
      simp only [checkAlignment_pos ha, pure_bind, hcond, Bool.false_eq_true, if_false]
      exact returns_pure (a, 0)

theorem storageField_returns (haddr : 0 < ns.addressLength) (hns : ns.Declarable)
    (hrank : ns.Ranked rank) (hfields : p ∨ ns.Alignable) (hty : field.ty.Declarable ns)
    (hbelow : field.ty.Below ns rank k) (halign : ns.target = .solana → p ∨ field.ty.Alignable) :
    ∃ x, StorageField ns p field x ∧ ReturnsUnless p (fun fuel => storageField ns fuel field) x := by
  obtain ⟨a, ha, halign⟩ := storageAlign_spec haddr hns hrank hfields k hty hbelow halign
  obtain ⟨slots, hslots⟩ := storageSlots_returns hns hrank k hty hbelow
  refine ⟨(a, slots), ⟨ha, halign, hslots⟩, halign.bind ?_⟩
  simp only [checkAlignment_pos ha.1, pure_bind]
  exact hslots.unless.map (Prod.mk a)

/-! ## The loop -/

def fieldsOf (ns : Namespace) (no : Nat) : List Field := (ns.structs[no]?.map StructDecl.fields).getD []

/-- What the body of the loop computes for a struct -/
noncomputable def layoutOf (ns : Namespace) (f : Nat → Layout) (no : Nat) : Layout :=
  (value fun fuel => memoryOffsets (ns.withLayouts f) fuel (fieldsOf ns no),
    value fun fuel => storageOffsets (ns.withLayouts f) fuel (fieldsOf ns no))

theorem fieldsOf_eq {decl : StructDecl} (h : ns.structs[no]? = some decl) :
    fieldsOf ns no = decl.fields := by
  unfold fieldsOf
  rw [h]
  rfl

theorem field_below (hrank : ns.Ranked rank) (h : field ∈ fieldsOf ns no) :
    field.ty.Below ns rank (rank no) := by
  unfold fieldsOf at h
  cases hdecl : ns.structs[no]? with
  | none =>
    rw [hdecl] at h
    exact absurd h List.not_mem_nil
  | some decl =>
    rw [hdecl] at h
    exact hrank no decl hdecl field h

section Agree

variable {f f' : Nat → Layout} {no : Nat} (hrank : ns.Ranked rank) (hagree : Agree ns rank (rank no) f f')
include hrank hagree

theorem memoryOffsets_local (fuel : Nat) :
    memoryOffsets (ns.withLayouts f) fuel (fieldsOf ns no) = memoryOffsets (ns.withLayouts f') fuel (fieldsOf ns no) := by
  refine congrArg (· >>= fun xs => pure (Storage.structOffsets xs)) (mapM_congr fun field hfield => ?_)
  unfold memoryField
  rw [alignOf_withLayouts, alignOf_withLayouts, solanaStorageSize_local hagree fuel (field_below hrank hfield)]
  rfl

theorem storageOffsets_local (fuel : Nat) : storageOffsets (ns.withLayouts f) fuel (fieldsOf ns no) =
    storageOffsets (ns.withLayouts f') fuel (fieldsOf ns no) := by
  refine congrArg (· >>= fun xs => pure (Storage.structOffsets xs)) (mapM_congr fun field hfield => ?_)
  have hbelow := field_below hrank (List.mem_filter.mp hfield).1
  unfold storageField
  rw [storageAlign_local hagree hrank fuel hbelow, (slots_local hagree hrank fuel hbelow).1]

end Agree

theorem layoutOf_local (hrank : ns.Ranked rank) :
    Sweep.Local (layoutOf ns) rank (List.range ns.structs.length) := by
  intro f f' no _ hagree
  have h : Agree ns rank (rank no) f f' := fun m hm hlt => hagree m (List.mem_range.mpr hm) hlt
  unfold layoutOf
  simp only [memoryOffsets_local hrank h, storageOffsets_local hrank h]

/-! The types and the ranks are those of every namespace with other offsets. -/

theorem declarable_withLayouts {ty : Ty} (f : Nat → Layout) (h : ty.Declarable ns) :
    ty.Declarable (ns.withLayouts f) := by
  induction ty with
  | array elem dims ih => exact ⟨ih h.1, h.2⟩
  | struct ty =>
    cases ty with
    | userDefined no =>
      show no < (ns.withLayouts f).structs.length
      rwa [length_withLayouts]
    | _ => exact h
  | _ => exact h

theorem mem_withLayouts {decl : StructDecl} (h : decl ∈ (ns.withLayouts f).structs) :
    ∃ decl' ∈ ns.structs, decl.fields = decl'.fields := by
  obtain ⟨no, hno⟩ := List.getElem?_of_mem h
  rw [getElem_withLayouts] at hno
  obtain ⟨decl', hdecl', rfl⟩ := Option.map_eq_some_iff.mp hno
  exact ⟨decl', List.mem_of_getElem? hdecl', rfl⟩

theorem Namespace.Declarable.withLayouts (h : ns.Declarable) (f : Nat → Layout) : (ns.withLayouts f).Declarable := by
  intro decl hdecl field hfield
  obtain ⟨decl', hdecl', heq⟩ := mem_withLayouts hdecl
  exact declarable_withLayouts f (h decl' hdecl' field (heq ▸ hfield))

theorem Namespace.Alignable.withLayouts (h : ns.Alignable) (f : Nat → Layout) : (ns.withLayouts f).Alignable := by
  intro hsolana decl hdecl field hfield
  obtain ⟨decl', hdecl', heq⟩ := mem_withLayouts hdecl
  exact h hsolana decl' hdecl' field (heq ▸ hfield)

theorem below_withLayouts {ty : Ty} (f : Nat → Layout) (h : ty.Below ns rank k) :
    ty.Below (ns.withLayouts f) rank k := by
  intro no hno
  rw [length_withLayouts]
  exact h no hno

theorem Namespace.Ranked.withLayouts (h : ns.Ranked rank) (f : Nat → Layout) : (ns.withLayouts f).Ranked rank := by
  intro no decl hdecl field hfield
  rw [getElem_withLayouts] at hdecl
  obtain ⟨decl', hdecl', rfl⟩ := Option.map_eq_some_iff.mp hdecl
  exact below_withLayouts f (h no decl' hdecl' field hfield)

/-- The offsets that fit the fields of a struct when the offsets of all structs are `f` -/
structure Fits (ns : Namespace) (p : Prop) (f : Nat → Layout) (no : Nat) : Prop where
  memory : ∃ xs, List.Forall₂ (MemoryField (ns.withLayouts f)) (fieldsOf ns no) xs ∧
    Returns (fun fuel => memoryOffsets (ns.withLayouts f) fuel (fieldsOf ns no)) (Storage.structOffsets xs)
  storage : ∃ xs, List.Forall₂ (StorageField (ns.withLayouts f) p)
      ((fieldsOf ns no).filter (!·.infiniteSize)) xs ∧
    ReturnsUnless p (fun fuel => storageOffsets (ns.withLayouts f) fuel (fieldsOf ns no)) (Storage.structOffsets xs)

theorem fits (haddr : 0 < ns.addressLength) (hns : ns.Declarable) (hrank : ns.Ranked rank)
    (hfields : p ∨ ns.Alignable) (f : Nat → Layout) (no : Nat) (hno : no < ns.structs.length) : Fits ns p f no := by
  have hdecl := List.getElem?_eq_getElem hno
  have hfield : ∀ field ∈ fieldsOf ns no, field.ty.Declarable (ns.withLayouts f) ∧
      field.ty.Below (ns.withLayouts f) rank (rank no) ∧ (ns.target = .solana → p ∨ field.ty.Alignable) := by
    intro field hfield
    have hmem : field ∈ ns.structs[no].fields := by rwa [fieldsOf_eq hdecl] at hfield
    exact ⟨declarable_withLayouts f (hns.field hdecl hmem), below_withLayouts f (field_below hrank hfield),
      fun hsolana => hfields.imp_right fun h => h hsolana _ (List.getElem_mem hno) field hmem⟩
  constructor
  · obtain ⟨xs, hxs, hreturns⟩ := exists_mapM (p := False) fun field h => by
      obtain ⟨hty, hbelow, -⟩ := hfield field h
      obtain ⟨x, hx, hreturns⟩ := memoryField_returns (hns.withLayouts f) (hrank.withLayouts f) hty hbelow
      exact ⟨x, hx, hreturns.unless⟩
    exact ⟨xs, hxs, (hreturns.returns id).map Storage.structOffsets⟩
  · have haddr' : 0 < (ns.withLayouts f).addressLength := haddr
    obtain ⟨xs, hxs, hreturns⟩ := exists_mapM (l := (fieldsOf ns no).filter (!·.infiniteSize)) fun field h => by
      obtain ⟨hty, hbelow, halign⟩ := hfield field (List.mem_filter.mp h).1
      exact storageField_returns haddr' (hns.withLayouts f) (hrank.withLayouts f)
        (hfields.imp_right fun h => h.withLayouts f) hty hbelow halign
    exact ⟨xs, hxs, hreturns.map Storage.structOffsets⟩

theorem Fits.layoutOf_fst (h : Fits ns p f no) :
    Returns (fun fuel => memoryOffsets (ns.withLayouts f) fuel (fieldsOf ns no)) (layoutOf ns f no).1 := by
  obtain ⟨xs, -, hreturns⟩ := h.memory
  have hvalue : (layoutOf ns f no).1 = Storage.structOffsets xs := hreturns.value_eq
  rw [hvalue]
  exact hreturns

theorem Fits.layoutOf_snd (h : Fits ns p f no) :
    ReturnsUnless p (fun fuel => storageOffsets (ns.withLayouts f) fuel (fieldsOf ns no)) (layoutOf ns f no).2 := by
  obtain ⟨xs, -, hreturns⟩ := h.storage
  rcases hreturns with hreturns | hfails
  · have hvalue : (layoutOf ns f no).2 = Storage.structOffsets xs := hreturns.value_eq
    rw [hvalue]
    exact .inl hreturns
  · exact .inr hfails

/-- The state of the loop -/
def state (ns : Namespace) (s : (Nat → Layout) × Bool) : Namespace × Bool := (ns.withLayouts s.1, s.2)

theorem updateStruct_spec (hrank : ns.Ranked rank) {changes : Bool} (hno : no < ns.structs.length)
    (hfits : Fits ns p f no) :
    ReturnsUnless p (fun fuel => updateStruct fuel (state ns (f, changes)) no)
      (state ns (Sweep.update (layoutOf ns) (f, changes) no)) := by
  have hdecl : (ns.withLayouts f).structs[no]? = some { ns.structs[no] with
      offsets := (f no).1, storageOffsets := (f no).2 } := by
    rw [getElem_withLayouts, List.getElem?_eq_getElem hno]
    rfl
  obtain ⟨offsets, hoffsets⟩ : ∃ offsets, (layoutOf ns f no).1 = offsets := ⟨_, rfl⟩
  -- with the new offsets in memory the storage offsets are still the same
  let f' := Function.update f no (offsets, (f no).2)
  have hagree : Agree ns rank (rank no) f' f := fun m _ hlt =>
    Function.update_of_ne (fun heq => absurd hlt (by rw [heq]; exact Nat.lt_irrefl _)) _ _
  have hstorage : ∀ fuel, storageOffsets (ns.withLayouts f') fuel (fieldsOf ns no) =
      storageOffsets (ns.withLayouts f) fuel (fieldsOf ns no) := storageOffsets_local hrank hagree
  have hset : ∀ (g : Nat → Layout) (layout : Layout), (ns.withLayouts g).setStruct no
      ⟨fieldsOf ns no, layout.1, layout.2⟩ = ns.withLayouts (Function.update g no layout) := fun g layout => by
    rw [fieldsOf_eq (List.getElem?_eq_getElem hno)]
    exact setStruct_withLayouts g (List.getElem?_eq_getElem hno) layout
  have hmemory : (if (f no).1 ≠ offsets then
        ((ns.withLayouts f).setStruct no ⟨fieldsOf ns no, offsets, (f no).2⟩,
          StructDecl.mk (fieldsOf ns no) offsets (f no).2, true)
      else (ns.withLayouts f, ⟨fieldsOf ns no, (f no).1, (f no).2⟩, changes)) =
      (ns.withLayouts f', ⟨fieldsOf ns no, offsets, (f no).2⟩, changes || decide ((f no).1 ≠ offsets)) := by
    split
    next h =>
      rw [hset f (offsets, (f no).2), decide_eq_true h, Bool.or_true]
    next h =>
      have heq : (f no).1 = offsets := not_not.mp h
      have hf' : f' = f := by
        simp only [f', ← heq]
        exact Function.update_eq_self no f
      rw [decide_eq_false h, Bool.or_false, hf', heq]
  unfold updateStruct state
  simp only [hdecl, orPanic, pure_bind, ← fieldsOf_eq (List.getElem?_eq_getElem hno)]
  refine hfits.layoutOf_fst.unless.bind ?_
  simp only [hoffsets, hmemory, hstorage]
  refine hfits.layoutOf_snd.bind ?_
  obtain ⟨storage, hstorage⟩ : ∃ storage, (layoutOf ns f no).2 = storage := ⟨_, rfl⟩
  have hlayout : layoutOf ns f no = (offsets, storage) := Prod.ext hoffsets hstorage
  rw [Sweep.update_eq, hlayout]
  by_cases hsame : (f no).2 = storage
  · have hchanged : ((offsets, storage) ≠ f no) = ((f no).1 ≠ offsets) := by
      rw [Ne, Prod.ext_iff, eq_comm (a := offsets), eq_comm (a := storage)]
      simp [hsame]
    simp only [hsame, ne_eq, not_true_eq_false, if_false, f', hchanged]
    exact (returns_pure _).unless
  · have hchanged : (offsets, storage) ≠ f no := fun heq => hsame (heq ▸ rfl)
    have hset' : (ns.withLayouts f').setStruct no ⟨fieldsOf ns no, offsets, storage⟩ =
        ns.withLayouts (Function.update f no (offsets, storage)) := by
      rw [hset f' (offsets, storage), Function.update_idem]
    simp only [ne_eq, hsame, not_false_eq_true, if_true, hset', hchanged, decide_true, Bool.or_true]
    exact (returns_pure _).unless

/-- The loop ends with offsets that its body leaves as they are. -/
theorem structOffsets_spec (haddr : 0 < ns.addressLength) (hns : ns.Declarable) (hrank : ns.Ranked rank)
    (hfields : p ∨ ns.Alignable) (f : Nat → Layout) :
    ∃ f', Sweep.Solves (layoutOf ns) (List.range ns.structs.length) f' ∧
      ReturnsUnless p (fun fuel => structOffsets fuel (ns.withLayouts f)) (ns.withLayouts f') := by
  refine (layoutOf_local hrank).sweeps_end (P := fun f => ∃ f',
    Sweep.Solves (layoutOf ns) (List.range ns.structs.length) f' ∧
      ReturnsUnless p (fun fuel => structOffsets fuel (ns.withLayouts f)) (ns.withLayouts f')) (fun x ih => ?_) f
  let s := Sweep.sweep (layoutOf ns) (List.range ns.structs.length) (x, false)
  have hpass : ReturnsUnless p (fun fuel => (List.range (ns.withLayouts x).structs.length).foldlM (updateStruct fuel)
      (ns.withLayouts x, false)) (state ns s) := by
    rw [length_withLayouts]
    exact returnsUnless_foldlM (state ns) (Sweep.update (layoutOf ns)) (fun no hno t =>
      updateStruct_spec hrank (List.mem_range.mp hno)
        (fits haddr hns hrank hfields t.1 no (List.mem_range.mp hno))) (x, false)
  cases hchanges : s.2 with
  | true =>
    obtain ⟨f', hsolves, hloop⟩ := ih hchanges
    refine ⟨f', hsolves, (hpass.bind (g := fun fuel t => if t.2 then structOffsets fuel t.1 else pure t.1) ?_).succ
      fun _ => rfl⟩
    simp only [state, hchanges, if_true]
    exact hloop
  | false =>
    obtain ⟨hsolves, heq⟩ := Sweep.sweep_snd hchanges
    refine ⟨x, hsolves, (hpass.bind (g := fun fuel t => if t.2 then structOffsets fuel t.1 else pure t.1) ?_).succ
      fun _ => rfl⟩
    have hs : s = (x, false) := heq
    simp only [state, hs, Bool.false_eq_true, if_false]
    exact (returns_pure _).unless

/-! ## The offsets -/

/-- The offsets of a struct fit the alignments and the sizes that its fields have, and the alignment and the size
that it has itself: the size is the last offset. -/
def SoundOffsets (align size : Nat → Ty → Run Nat) (no : Nat) (fields : List Field) (offsets : List Nat) : Prop :=
  ∃ a xs total,
    List.Forall₂ (fun field x => Returns (fun fuel => align fuel field.ty) x.1 ∧
      Returns (fun fuel => size fuel field.ty) x.2) fields xs ∧
    Returns (fun fuel => align fuel (.struct (.userDefined no))) a ∧ LaidOut a xs offsets ∧
    offsets.getLast? = some total ∧ Returns (fun fuel => size fuel (.struct (.userDefined no))) total

theorem getLast_structOffsets (fields : List (Nat × Nat)) :
    ∃ total, (Storage.structOffsets fields).getLast? = some total := ⟨_, List.getLast?_concat⟩

theorem max_ones {l : List Nat} (h : ∀ a ∈ l, a = 1) : l.max?.getD 1 = 1 := by
  cases hmax : l.max? with
  | none => rfl
  | some a => exact h a (List.max?_mem hmax)

theorem alignUp_one (offset : Nat) : Storage.alignUp offset 1 = offset := by simp [Storage.alignUp, Nat.mod_one]

/-- Where nothing has to be aligned -/
theorem structOffsets_ones (h : ∀ field ∈ fields, field.1 = 1) :
    (Storage.structOffsets fields).getLast? = some (fields.map (·.2)).sum := by
  have hstop : ∀ (fields : List (Nat × Nat)) (start : Nat), (∀ field ∈ fields, field.1 = 1) →
      (Storage.fieldOffsets start fields).2 = start + (fields.map (·.2)).sum := by
    intro fields
    induction fields with
    | nil => exact fun _ _ => rfl
    | cons field fields ih =>
      intro start h
      obtain ⟨hfield, hfields⟩ := List.forall_mem_cons.mp h
      show (Storage.fieldOffsets (Storage.alignUp start field.1 + field.2) fields).2 = _
      rw [ih _ hfields, hfield, alignUp_one, List.map_cons, List.sum_cons]
      omega
  have hlargest : ¬ 1 < (fields.map (·.1)).foldl max 0 := by
    rw [foldl_max]
    cases hmax : (fields.map (·.1)).max? with
    | none => decide
    | some a =>
      obtain ⟨field, hfield, rfl⟩ := List.mem_map.mp (List.max?_mem hmax)
      simp [h field hfield]
  unfold Storage.structOffsets
  simp only [if_neg hlargest, List.getLast?_concat, hstop fields 0 h, Nat.zero_add]

theorem alignUp_zero (alignment : Nat) : Storage.alignUp 0 alignment = 0 := by simp [Storage.alignUp]

/-- Where nothing counts -/
theorem structOffsets_zero (h : ∀ field ∈ fields, field.2 = 0) :
    ∀ offset ∈ Storage.structOffsets fields, offset = 0 := by
  have hzero : ∀ fields : List (Nat × Nat), (∀ field ∈ fields, field.2 = 0) →
      (∀ offset ∈ (Storage.fieldOffsets 0 fields).1, offset = 0) ∧ (Storage.fieldOffsets 0 fields).2 = 0 := by
    intro fields
    induction fields with
    | nil => exact fun _ => ⟨nofun, rfl⟩
    | cons field fields ih =>
      intro h
      obtain ⟨hfield, hfields⟩ := List.forall_mem_cons.mp h
      unfold Storage.fieldOffsets
      simp only [alignUp_zero, hfield, Nat.add_zero]
      exact ⟨List.forall_mem_cons.mpr ⟨rfl, (ih hfields).1⟩, (ih hfields).2⟩
  obtain ⟨hoffsets, hstop⟩ := hzero fields h
  intro offset hmem
  unfold Storage.structOffsets at hmem
  simp only [hstop, alignUp_zero, ite_self] at hmem
  rcases List.mem_append.mp hmem with hmem | hmem
  · exact hoffsets offset hmem
  · exact List.mem_singleton.mp hmem

section Struct

variable {no : Nat} {decl : StructDecl} (hdecl : ns.structs[no]? = some decl)
  (haccepted : ∀ field ∈ decl.fields, field.infiniteSize = false)
include hdecl

omit hdecl in
include haccepted in
theorem filter_accepted : decl.fields.filter (!·.infiniteSize) = decl.fields :=
  List.filter_eq_self.mpr fun field hfield => by rw [haccepted field hfield]; rfl

include haccepted

variable {xs : List (Nat × Nat)}

theorem sound_memory (hsolana : ns.target = .solana)
    (hxs : List.Forall₂ (MemoryField ns) decl.fields xs)
    (hoffsets : decl.offsets = Storage.structOffsets xs) :
    SoundOffsets (alignOf ns) (solanaStorageSize ns) no decl.fields decl.offsets := by
  obtain ⟨total, htotal⟩ := getLast_structOffsets xs
  have hpos : ∀ x ∈ xs, 0 < x.1 := forall₂_right (hxs.imp fun _ _ h => h.1)
  have hfields : List.Forall₂ (fun field (x : Nat × Nat) => Returns (fun fuel => alignOf ns fuel field.ty) x.1 ∧
      Returns (fun fuel => solanaStorageSize ns fuel field.ty) x.2) decl.fields xs := by
    refine ((List.forall₂_and_left _ _).mpr ⟨haccepted, hxs⟩).imp ?_
    rintro field x ⟨hfield, -, halign, hsize⟩
    rw [if_pos ⟨hfield, hsolana⟩] at hsize
    exact ⟨halign, hsize⟩
  refine ⟨_, xs, total, hfields, ?_, hoffsets ▸ laidOut_structOffsets hpos, hoffsets ▸ htotal, ?_⟩
  · have haligns := forall₂_mapM (List.forall₂_map_right_iff.mpr (hfields.imp fun _ _ h => h.1))
    refine (haligns.map fun aligns => aligns.max?.getD 1).succ fun fuel => ?_
    show (orPanic .unreachable ns.structs[no]? >>= fun decl : StructDecl => _) = _
    rw [hdecl]
    simp only [orPanic, pure_bind, filter_accepted haccepted]
  · refine returns_at 1 fun fuel => ?_
    show (orPanic .unreachable ns.structs[no]? >>= fun decl : StructDecl => _) = _
    rw [hdecl]
    simp only [orPanic, pure_bind, hoffsets, htotal, Option.getD_some]

omit hdecl haccepted in
/-- Elsewhere than on Solana nothing has to be aligned. -/
theorem aligns_one (hsolana : ns.target ≠ .solana) {fields : List Field}
    (hxs : List.Forall₂ (StorageField ns False) fields xs) : ∀ x ∈ xs, x.1 = 1 := by
  have hone : ∀ ty, Returns (fun fuel => storageAlign ns fuel ty) 1 := fun ty => returns_at 1 fun fuel => by
    rw [storageAlign, if_neg hsolana]
  exact forall₂_right (hxs.imp fun field _ h => (h.2.1.returns id).unique (hone field.ty))

theorem storageAlign_struct (hxs : List.Forall₂ (StorageField ns False) decl.fields xs) :
    Returns (fun fuel => storageAlign ns fuel (.struct (.userDefined no))) ((xs.map (·.1)).max?.getD 1) := by
  by_cases hsolana : ns.target = .solana
  · have haligns := forall₂_mapM (List.forall₂_map_right_iff.mpr (hxs.imp fun _ _ h => h.2.1.returns id))
    have hle : (xs.map (·.1)).max?.getD 1 ≤ 8 := by
      cases hmax : (xs.map (·.1)).max? with
      | none => decide
      | some a =>
        obtain ⟨x, hx, rfl⟩ := List.mem_map.mp (List.max?_mem hmax)
        exact forall₂_right (hxs.imp fun _ _ h => h.1.2) x hx
    have hstruct := haligns.map fun aligns => min (aligns.max?.getD 1) 8
    rw [Nat.min_eq_left hle] at hstruct
    refine hstruct.succ fun fuel => ?_
    rw [storageAlign, if_pos hsolana]
    show (orPanic .unreachable ns.structs[no]? >>= fun decl : StructDecl => _) = _
    rw [hdecl]
    simp only [orPanic, pure_bind, filter_accepted haccepted]
  · have hones : ∀ a ∈ xs.map (·.1), a = 1 := by
      intro a ha
      obtain ⟨x, hx, rfl⟩ := List.mem_map.mp ha
      exact aligns_one hsolana hxs x hx
    rw [max_ones hones]
    refine returns_at 1 fun fuel => ?_
    rw [storageAlign, if_neg hsolana]

theorem sound_storage (hxs : List.Forall₂ (StorageField ns False) decl.fields xs)
    (hoffsets : decl.storageOffsets = Storage.structOffsets xs) :
    SoundOffsets (storageAlign ns) (storageSlots ns) no decl.fields decl.storageOffsets := by
  obtain ⟨total, htotal⟩ := getLast_structOffsets xs
  have hpos : ∀ x ∈ xs, 0 < x.1 := forall₂_right (hxs.imp fun _ _ h => h.1.1)
  refine ⟨_, xs, total, hxs.imp fun _ _ h => ⟨h.2.1.returns id, h.2.2⟩, storageAlign_struct hdecl haccepted hxs,
    hoffsets ▸ laidOut_structOffsets hpos, hoffsets ▸ htotal, ?_⟩
  by_cases hsolana : ns.target = .solana
  · refine returns_at 1 fun fuel => ?_
    rw [storageSlots, if_pos hsolana]
    show (orPanic .unreachable ns.structs[no]? >>= fun decl : StructDecl => _) = _
    rw [hdecl]
    simp only [orPanic, pure_bind, hoffsets, htotal, Option.getD_some]
  · have hslots := forall₂_mapM (List.forall₂_map_right_iff.mpr (hxs.imp fun _ _ h => h.2.2))
    rw [structOffsets_ones (aligns_one hsolana hxs)] at htotal
    obtain rfl := Option.some.inj htotal
    refine (hslots.map List.sum).succ fun fuel => ?_
    rw [storageSlots, if_neg hsolana]
    show (orPanic .unreachable ns.structs[no]? >>= fun decl : StructDecl => _) = _
    rw [hdecl]
    simp only [orPanic, pure_bind, filter_accepted haccepted]

end Struct

/-- When the check for recursive structs accepts the structs and none contains itself, the loop ends with
offsets that fit: those in storage for every target, and those in memory on Solana. On other targets
the sizes in memory do not count. On Solana the alignment in storage has to be known for all types. -/
theorem struct_offsets_sound (ns : Namespace) (haddr : 0 < ns.addressLength) (hns : ns.Declarable)
    (hfinite : ∀ no, ¬ ContainsItself ns no)
    (haccepted : ∀ decl ∈ ns.structs, ∀ field ∈ decl.fields, field.infiniteSize = false) (halign : ns.Alignable) :
    ∃ f, Returns (fun fuel => structOffsets fuel ns) (ns.withLayouts f) ∧
      ∀ (no : Nat) (decl : StructDecl), (ns.withLayouts f).structs[no]? = some decl →
        SoundOffsets (storageAlign (ns.withLayouts f)) (storageSlots (ns.withLayouts f)) no decl.fields
          decl.storageOffsets ∧
        (ns.target = .solana → SoundOffsets (alignOf (ns.withLayouts f)) (solanaStorageSize (ns.withLayouts f)) no
          decl.fields decl.offsets) ∧
        (ns.target ≠ .solana → ∀ offset ∈ decl.offsets, offset = 0) := by
  obtain ⟨rank, hrank⟩ := exists_ranked hns hfinite
  obtain ⟨f, hsolves, hreturns⟩ := structOffsets_spec (p := False) haddr hns hrank (.inr halign) ns.layouts
  rw [withLayouts_layouts] at hreturns
  refine ⟨f, hreturns.returns id, fun no decl hdecl => ?_⟩
  obtain ⟨decl₀, hdecl₀, heq⟩ : ∃ decl₀, ns.structs[no]? = some decl₀ ∧
      decl = { decl₀ with offsets := (f no).1, storageOffsets := (f no).2 } := by
    rw [getElem_withLayouts] at hdecl
    obtain ⟨decl₀, hdecl₀, heq⟩ := Option.map_eq_some_iff.mp hdecl
    exact ⟨decl₀, hdecl₀, heq.symm⟩
  have hno : no < ns.structs.length := (List.getElem?_eq_some_iff.mp hdecl₀).1
  have hfields : fieldsOf ns no = decl.fields := by rw [fieldsOf_eq hdecl₀, heq]
  have hacc : ∀ field ∈ decl.fields, field.infiniteSize = false := by
    rw [heq]
    exact haccepted decl₀ (List.mem_of_getElem? hdecl₀)
  have hlayout : layoutOf ns f no = f no := hsolves no (List.mem_range.mpr hno)
  have hfits := fits (p := False) haddr hns hrank (.inr halign) f no hno
  obtain ⟨xs, hxs, hmemory⟩ := hfits.memory
  obtain ⟨ys, hys, hstorage⟩ := hfits.storage
  have hoffsets : decl.offsets = Storage.structOffsets xs := by
    rw [← hfits.layoutOf_fst.unique hmemory, hlayout, heq]
  have hstorageOffsets : decl.storageOffsets = Storage.structOffsets ys := by
    rw [← (hfits.layoutOf_snd.returns id).unique (hstorage.returns id), hlayout, heq]
  rw [hfields] at hxs hys
  rw [filter_accepted hacc] at hys
  refine ⟨sound_storage hdecl hacc hys hstorageOffsets, fun hsolana =>
    sound_memory hdecl hacc hsolana hxs hoffsets, fun hsolana => ?_⟩
  rw [hoffsets]
  refine structOffsets_zero (forall₂_right (P := fun x : Nat × Nat => x.2 = 0) (hxs.imp fun field x h => ?_))
  have hsize := h.2.2
  rwa [if_neg fun hc => hsolana hc.2] at hsize

/-- `struct Entry { uint24 a; uint64 b; }` and
`struct Book { bool open; Entry last; Entry[2] best; mapping(address => Book) next; Book[] others; }` -/
def book : Namespace where
  target := .solana
  addressLength := 32
  valueLength := 8
  structs := [
    { fields := [⟨.uint 24, false, false⟩, ⟨.uint 64, false, false⟩] },
    { fields := [⟨.bool, false, false⟩, ⟨.struct (.userDefined 0), false, false⟩,
        ⟨.array (.struct (.userDefined 0)) [.fixed 2], false, false⟩,
        ⟨.mapping (.address false) (.struct (.userDefined 1)), false, false⟩,
        ⟨.array (.struct (.userDefined 1)) [.dynamic], false, false⟩] }]
  userTypes := []

theorem book_ranked : book.Ranked id := by
  intro no decl hdecl
  match no with
  | 0 | 1 =>
    cases hdecl
    simp [book, Ty.Below, Ty.inside]
  | no + 2 => exact absurd hdecl (by simp [book])

theorem book_sound : ∃ f, Returns (fun fuel => structOffsets fuel book) (book.withLayouts f) ∧
    ∀ (no : Nat) (decl : StructDecl), (book.withLayouts f).structs[no]? = some decl →
      SoundOffsets (storageAlign (book.withLayouts f)) (storageSlots (book.withLayouts f)) no decl.fields
        decl.storageOffsets ∧
      (book.target = .solana → SoundOffsets (alignOf (book.withLayouts f)) (solanaStorageSize (book.withLayouts f)) no
        decl.fields decl.offsets) ∧
      (book.target ≠ .solana → ∀ offset ∈ decl.offsets, offset = 0) :=
  struct_offsets_sound book (by decide) (by simp [Namespace.Declarable, Ty.Declarable, book]) book_ranked.finite
    (by simp [book]) (by simp [Namespace.Alignable, Ty.Alignable, book])

/-- `struct Pair { uint256 a; uint256 b; }` -/
def pair : Namespace where
  target := .polkadot
  addressLength := 32
  valueLength := 16
  structs := [{ fields := [⟨.uint 256, false, false⟩, ⟨.uint 256, false, false⟩] }]
  userTypes := []

/-- Both fields of 32 bytes are at 0. -/
theorem pair_overlaps : ∃ ns' decl, Returns (fun fuel => structOffsets fuel pair) ns' ∧
    ns'.structs[0]? = some decl ∧ memorySizeOf ns' 1 (.uint 256) = some 32 ∧
    ∀ a, ¬ LaidOut a [(8, 32), (8, 32)] decl.offsets := by
  refine ⟨pair.withLayouts fun _ => ([0, 0, 0], [0, 1, 2]), _, returns_at 4 fun _ => rfl, rfl, rfl, fun a h => ?_⟩
  exact absurd (h.disjoint 0 (8, 32) 0 0 rfl rfl rfl) (by decide)

end Solang.Sema.Structs
