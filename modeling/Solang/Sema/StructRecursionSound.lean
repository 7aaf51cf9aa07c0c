import Solang.Sema.StructLayoutSound

/-!
# What the check for recursive structs finds

Of every struct only the first cycle through it that the graph library lists is looked at. The structs on
such cycles are reported, and what is reported leads to one.
-/

namespace Solang.Sema.Structs

open Fuel

variable {ns : Namespace}

/-! ## The graph -/

/-- The edges of the graph -/
def allEdges (ns : Namespace) : List Edge :=
  (List.range ns.structs.length).flatMap fun no =>
    ((ns.structs[no]?.map StructDecl.fields).getD []).zipIdx.flatMap fun (field, fieldNo) =>
      field.ty.userStructNo.map fun reaching => ⟨no, reaching, fieldNo⟩

/-- The number of edges that are still to be found -/
def missing (ns : Namespace) (edges : List Edge) : Nat := ((allEdges ns).toFinset \ edges.toFinset).card

variable {edges : List Edge} {edge : Edge} {a w : Nat} {field : Field} {ns' : Namespace}

theorem missing_cons (hedge : edge ∈ allEdges ns) (hnew : edge ∉ edges) :
    missing ns (edge :: edges) < missing ns edges := by
  unfold missing
  rw [List.toFinset_cons, Finset.sdiff_insert]
  exact Finset.card_erase_lt_of_mem (by simp [hedge, hnew])

theorem missing_le {edges' : List Edge} (h : edges ⊆ edges') :
    missing ns edges' ≤ missing ns edges := by
  refine Finset.card_le_card (Finset.sdiff_subset_sdiff subset_rfl fun e he => ?_)
  rw [List.mem_toFinset] at he ⊢
  exact h he

/-- What a part of the search makes of the edges found so far -/
def Collects (ns : Namespace) (f : Nat → Option (List Edge)) (edges wanted : List Edge) : Prop :=
  ∃ edges', Settles f edges' ∧ edges ⊆ edges' ∧ edges' ⊆ allEdges ns ∧ wanted ⊆ edges'

/-- A loop that collects for each element what is wanted of it -/
theorem collects_foldlM {β : Type} {f : Nat → List Edge → β → Option (List Edge)}
    (wanted : β → List Edge) {l : List β} {m : Nat}
    (h : ∀ b ∈ l, ∀ edges ⊆ allEdges ns, missing ns edges ≤ m →
      Collects ns (fun fuel => f fuel edges b) edges (wanted b)) (hedges : edges ⊆ allEdges ns)
    (hm : missing ns edges ≤ m) :
    Collects ns (fun fuel => l.foldlM (f fuel) edges) edges (l.flatMap wanted) := by
  induction l generalizing edges with
  | nil => exact ⟨edges, settles_const _, List.Subset.refl _, hedges, List.nil_subset _⟩
  | cons b l ih =>
    obtain ⟨edges₁, hsettles₁, hsub₁, hedges₁, hwanted₁⟩ := h b List.mem_cons_self edges hedges hm
    obtain ⟨edges₂, hsettles₂, hsub₂, hedges₂, hwanted₂⟩ := ih (fun c hc => h c (List.mem_cons_of_mem b hc)) hedges₁
      (Nat.le_trans (missing_le hsub₁) hm)
    refine ⟨edges₂, ?_, List.Subset.trans hsub₁ hsub₂, hedges₂, ?_⟩
    · simp only [List.foldlM_cons]
      exact hsettles₁.bind hsettles₂
    · rw [List.flatMap_cons]
      exact List.append_subset.mpr ⟨List.Subset.trans hwanted₁ hsub₂, hwanted₂⟩

/-- The edges of one struct -/
def edgesFrom (ns : Namespace) (no : Nat) : List Edge :=
  ((ns.structs[no]?.map StructDecl.fields).getD []).zipIdx.flatMap fun (field, fieldNo) =>
    field.ty.userStructNo.map fun reaching => ⟨no, reaching, fieldNo⟩

theorem edgesFrom_subset (no : Nat) : edgesFrom ns no ⊆ allEdges ns := by
  intro e he
  by_cases hno : no < ns.structs.length
  · exact List.mem_flatMap.mpr ⟨no, List.mem_range.mpr hno, he⟩
  · unfold edgesFrom at he
    rw [List.getElem?_eq_none (Nat.le_of_not_lt hno)] at he
    exact absurd he (by simp)

theorem collectStructEdges_collects (no : Nat) (hedges : edges ⊆ allEdges ns) :
    Collects ns (fun fuel => collectStructEdges ns fuel no edges) edges (edgesFrom ns no) := by
  induction hn : missing ns edges using Nat.strong_induction_on generalizing no edges with
  | _ n ih =>
    let collect (fuel : Nat) (edges : List Edge) (edge : Edge) : Option (List Edge) :=
      if edge ∈ edges then some edges else collectStructEdges ns fuel edge.target (edge :: edges)
    -- an edge that is new is followed with fewer edges missing
    have hedge : ∀ edge ∈ edgesFrom ns no, ∀ edges ⊆ allEdges ns, missing ns edges ≤ n →
        Collects ns (fun fuel => collect fuel edges edge) edges [edge] := by
      intro edge hedge edges hedges hm
      by_cases hmem : edge ∈ edges
      · refine ⟨edges, ?_, List.Subset.refl _, hedges, List.cons_subset.mpr ⟨hmem, List.nil_subset _⟩⟩
        simp only [collect, if_pos hmem]
        exact settles_const edges
      · have hedge := edgesFrom_subset no hedge
        obtain ⟨edges', hsettles, hsub, hedges', -⟩ := ih _ (Nat.lt_of_lt_of_le (missing_cons hedge hmem) hm)
          edge.target (List.cons_subset.mpr ⟨hedge, hedges⟩) rfl
        obtain ⟨hmem', hsub'⟩ := List.cons_subset.mp hsub
        refine ⟨edges', ?_, hsub', hedges', List.cons_subset.mpr ⟨hmem', List.nil_subset _⟩⟩
        simp only [collect, if_neg hmem]
        exact hsettles
    obtain ⟨edges', hsettles, hsub, hedges', hwanted⟩ := collects_foldlM
      (f := fun fuel edges (x : Field × Nat) => x.1.ty.userStructNo.foldlM (fun edges reaching =>
        collect fuel edges ⟨no, reaching, x.2⟩) edges)
      (l := ((ns.structs[no]?.map StructDecl.fields).getD []).zipIdx)
      (fun x => x.1.ty.userStructNo.map fun reaching => ⟨no, reaching, x.2⟩) (fun x hx edges hedges hm => by
        rw [List.map_eq_flatMap]
        refine collects_foldlM (fun reaching => [⟨no, reaching, x.2⟩]) (fun reaching hreaching edges hedges hm =>
          hedge _ ?_ edges hedges hm) hedges hm
        exact List.mem_flatMap.mpr ⟨x, hx, List.mem_map_of_mem hreaching⟩)
      hedges (Nat.le_of_eq hn)
    exact ⟨edges', hsettles.succ fun _ => rfl, hsub, hedges', hwanted⟩

theorem structGraph_settles (ns : Namespace) (order : List Edge → List Edge) :
    ∃ edges, (∀ e, e ∈ edges ↔ e ∈ allEdges ns) ∧ Settles (structGraph ns order) (order edges) := by
  obtain ⟨edges, hsettles, -, hedges, hwanted⟩ := collects_foldlM (m := missing ns [])
    (f := fun fuel edges n => collectStructEdges ns fuel n edges) (l := List.range ns.structs.length)
    (edgesFrom ns) (fun no _ edges hedges _ => collectStructEdges_collects no hedges) (List.nil_subset _)
    (Nat.le_refl _)
  exact ⟨edges, fun e => ⟨fun h => hedges h, fun h => hwanted h⟩, hsettles.map order⟩

/-! ## Flags -/

def Infinite (ns : Namespace) (structNo fieldNo : Nat) : Prop :=
  ∃ field, ns.field? structNo fieldNo = some field ∧ field.infiniteSize = true

/-- Some field of the struct is flagged. -/
def Flagged (ns : Namespace) (structNo : Nat) : Prop := ∃ fieldNo, Infinite ns structNo fieldNo

/-- What the check may do to the fields: set flags -/
structure Marks (ns ns' : Namespace) : Prop where
  target : ns'.target = ns.target
  addressLength : ns'.addressLength = ns.addressLength
  userTypes : ns'.userTypes = ns.userTypes
  length : ns'.structs.length = ns.structs.length
  types : ∀ structNo fieldNo,
    (ns'.field? structNo fieldNo).map Field.ty = (ns.field? structNo fieldNo).map Field.ty
  keeps : ∀ structNo fieldNo, Infinite ns structNo fieldNo → Infinite ns' structNo fieldNo

theorem Marks.refl (ns : Namespace) : Marks ns ns := ⟨rfl, rfl, rfl, rfl, fun _ _ => rfl, fun _ _ h => h⟩

theorem Marks.trans {ns₁ ns₂ ns₃ : Namespace} (h : Marks ns₁ ns₂) (h' : Marks ns₂ ns₃) : Marks ns₁ ns₃ :=
  ⟨h'.target.trans h.target, h'.addressLength.trans h.addressLength, h'.userTypes.trans h.userTypes,
    h'.length.trans h.length, fun a w => (h'.types a w).trans (h.types a w), fun a w hw => h'.keeps a w (h.keeps a w hw)⟩

theorem field?_modifyField (structNo fieldNo : Nat) (f : Field → Field) (a w : Nat) :
    (ns.modifyField structNo fieldNo f).field? a w =
      if structNo = a ∧ fieldNo = w then (ns.field? a w).map f else ns.field? a w := by
  unfold Namespace.field? Namespace.modifyField
  simp only [List.getElem?_modify]
  cases ns.structs[a]? with
  | none => simp
  | some decl =>
    by_cases ha : structNo = a
    · by_cases hw : fieldNo = w <;> simp [ha, hw]
    · simp [ha]

theorem Marks.modifyField (ns : Namespace) (a w : Nat) {f : Field → Field} (hty : ∀ field, (f field).ty = field.ty)
    (hinfinite : ∀ field : Field, field.infiniteSize = true → (f field).infiniteSize = true) :
    Marks ns (ns.modifyField a w f) := by
  refine ⟨rfl, rfl, rfl, List.length_modify .., fun a' w' => ?_, fun a' w' => ?_⟩
  · rw [field?_modifyField]
    split
    next h =>
      obtain ⟨rfl, rfl⟩ := h
      cases ns.field? a w with
      | none => rfl
      | some field => simp [hty]
    next => rfl
  · rintro ⟨field, hfield, h⟩
    unfold Infinite
    rw [field?_modifyField]
    split
    next heq =>
      obtain ⟨rfl, rfl⟩ := heq
      exact ⟨f field, by rw [hfield]; rfl, hinfinite field h⟩
    next => exact ⟨field, hfield, h⟩

def setRecursive (field : Field) : Field := { field with recursive := true }

def setInfinite (field : Field) : Field := { field with infiniteSize := true }

theorem Marks.setRecursive (ns : Namespace) (a w : Nat) : Marks ns (ns.modifyField a w setRecursive) :=
  .modifyField ns a w (fun _ => rfl) fun _ h => h

theorem Marks.setInfinite (ns : Namespace) (a w : Nat) : Marks ns (ns.modifyField a w setInfinite) :=
  .modifyField ns a w (fun _ => rfl) fun _ _ => rfl

variable {a' w' no b n : Nat}

theorem infinite_setRecursive (h : Infinite (ns.modifyField a w setRecursive) a' w') :
    Infinite ns a' w' := by
  obtain ⟨field, hfield, h⟩ := h
  rw [field?_modifyField] at hfield
  split at hfield
  next heq =>
    obtain ⟨rfl, rfl⟩ := heq
    obtain ⟨field', hfield', rfl⟩ := Option.map_eq_some_iff.mp hfield
    exact ⟨field', hfield', h⟩
  next => exact ⟨field, hfield, h⟩

theorem infinite_setInfinite (h : Infinite (ns.modifyField a w setInfinite) a' w') :
    Infinite ns a' w' ∨ a' = a := by
  obtain ⟨field, hfield, h⟩ := h
  rw [field?_modifyField] at hfield
  split at hfield
  next heq => exact .inr heq.1.symm
  next => exact .inl ⟨field, hfield, h⟩

theorem infinite_self (h : ns.field? a w = some field) :
    Infinite (ns.modifyField a w setInfinite) a w :=
  ⟨setInfinite field, by rw [field?_modifyField, if_pos ⟨rfl, rfl⟩, h]; rfl, rfl⟩

theorem exists_field? : ns.field? a w = some field ↔
    ∃ decl, ns.structs[a]? = some decl ∧ decl.fields[w]? = some field := by
  unfold Namespace.field?
  exact Option.bind_eq_some_iff

theorem anyInfinite_iff (structNo : Nat) : ns.anyInfinite structNo = true ↔ Flagged ns structNo := by
  unfold Namespace.anyInfinite Flagged Infinite
  simp only [exists_field?, Option.any_eq_true, List.any_eq_true]
  constructor
  · rintro ⟨decl, hdecl, field, hfield, h⟩
    obtain ⟨w, hw⟩ := List.getElem?_of_mem hfield
    exact ⟨w, field, ⟨decl, hdecl, hw⟩, h⟩
  · rintro ⟨w, field, ⟨decl, hdecl, hw⟩, h⟩
    exact ⟨decl, hdecl, field, List.mem_of_getElem? hw, h⟩

theorem Marks.hardEdges {ns' : Namespace} (h : Marks ns ns') (graph : List Edge) (w : Nat × Nat) :
    hardEdges ns' graph w = hardEdges ns graph w := by
  have hany : ∀ a w, (ns'.field? a w).any (·.ty.hard) = (ns.field? a w).any (·.ty.hard) := fun a w => by
    have hmap : ∀ o : Option Field, o.any (·.ty.hard) = (o.map Field.ty).any Ty.hard := by
      rintro (_ | _) <;> rfl
    rw [hmap, hmap, h.types a w]
  unfold Structs.hardEdges
  simp only [hany]

/-! ## Cycles -/

variable {lib : Petgraph} {graph : List Edge}

def Step (graph : List Edge) (a b : Nat) : Prop := ∃ edge ∈ graph, edge.source = a ∧ edge.target = b

/-- The struct is on a cycle that is looked at, and every step of the cycle has an edge that is infinite. -/
def OnFound (ns : Namespace) (lib : Petgraph) (graph : List Edge) (no : Nat) : Prop :=
  ∃ n ∈ nodeOrder lib graph, ∃ cycle, firstCycle lib graph n = some cycle ∧
    (∀ w ∈ windows cycle, hardEdges ns graph w ≠ []) ∧ ∃ w ∈ windows cycle, w.1 = no

/-- Fields of other structs, mappings and dynamic arrays included, lead from the struct to such a cycle. -/
def Leads (ns : Namespace) (lib : Petgraph) (graph : List Edge) (no : Nat) : Prop :=
  ∃ no', Relation.ReflTransGen (Step graph) no no' ∧ OnFound ns lib graph no'

/-- What holds at every point of the check: only structs that lead to a cycle are flagged, and what was
flagged stays so. -/
structure Inv (ns : Namespace) (lib : Petgraph) (graph : List Edge) (kept : Nat → Prop) (ns' : Namespace) : Prop where
  marks : Marks ns ns'
  leads : ∀ no, Flagged ns' no → Leads ns lib graph no
  keeps : ∀ no, kept no → Flagged ns' no

theorem Marks.flagged (h : Marks ns ns') (hno : Flagged ns no) : Flagged ns' no := by
  obtain ⟨w, hw⟩ := hno
  exact ⟨w, h.keeps no w hw⟩

variable {kept : Nat → Prop}

theorem Inv.setInfinite {ns' : Namespace} (h : Inv ns lib graph kept ns') {a : Nat} (w : Nat)
    (ha : Leads ns lib graph a) : Inv ns lib graph kept (ns'.modifyField a w setInfinite) := by
  refine ⟨h.marks.trans (.setInfinite ns' a w), ?_, fun no hno => (Marks.setInfinite ns' a w).flagged (h.keeps no hno)⟩
  rintro no ⟨w', hw'⟩
  rcases infinite_setInfinite hw' with hw' | rfl
  · exact h.leads no ⟨w', hw'⟩
  · exact ha

theorem Inv.setRecursive {ns' : Namespace} (h : Inv ns lib graph kept ns') (a w : Nat) :
    Inv ns lib graph kept (ns'.modifyField a w setRecursive) := by
  refine ⟨h.marks.trans (.setRecursive ns' a w), ?_, fun no hno => (Marks.setRecursive ns' a w).flagged (h.keeps no hno)⟩
  rintro no ⟨w', hw'⟩
  exact h.leads no ⟨w', infinite_setRecursive hw'⟩

theorem Inv.markRecursive {ns' : Namespace} (h : Inv ns lib graph kept ns') {edge : Edge} (hedge : edge ∈ graph) :
    Inv ns lib graph kept (markRecursive ns' edge) := by
  have hrecursive := h.setRecursive edge.source edge.weight
  unfold Structs.markRecursive
  simp only
  split
  next hany =>
    obtain ⟨no', hreach, hfound⟩ := hrecursive.leads edge.target ((anyInfinite_iff edge.target).mp hany)
    exact hrecursive.setInfinite edge.weight ⟨no', .head ⟨edge, hedge, rfl, rfl⟩ hreach, hfound⟩
  next => exact hrecursive

theorem mem_edgesConnecting :
    edge ∈ edgesConnecting graph a b ↔ edge ∈ graph ∧ edge.source = a ∧ edge.target = b := by
  simp [edgesConnecting]

theorem Inv.checkRecursiveStructField {ns' : Namespace} (h : Inv ns lib graph kept ns') (node : Nat) :
    Inv ns lib graph kept (checkRecursiveStructField ns' lib node graph) := by
  unfold Structs.checkRecursiveStructField
  refine List.foldlRecOn _ _ h fun ns₁ h₁ n _ => ?_
  refine List.foldlRecOn _ _ h₁ fun ns₂ h₂ path _ => ?_
  refine List.foldlRecOn _ _ h₂ fun ns₃ h₃ w _ => ?_
  exact List.foldlRecOn _ _ h₃ fun ns₄ h₄ edge hedge => h₄.markRecursive (mem_edgesConnecting.mp hedge).1

theorem mem_hardEdges {w : Nat × Nat} (h : edge ∈ hardEdges ns graph w) :
    edge.source = w.1 ∧ ∃ field, ns.field? edge.source edge.weight = some field := by
  unfold hardEdges at h
  obtain ⟨hconnect, hany⟩ := List.mem_filter.mp h
  obtain ⟨field, hfield, -⟩ := Option.any_eq_true _ _ |>.mp hany
  exact ⟨(mem_edgesConnecting.mp hconnect).2.1, field, hfield⟩

theorem Inv.checkInfiniteStructSize {ns' : Namespace} (h : Inv ns lib graph kept ns') {n : Nat}
    (hn : n ∈ nodeOrder lib graph) {cycle : List Nat} (hcycle : firstCycle lib graph n = some cycle) :
    Inv ns lib graph kept (checkInfiniteStructSize ns' graph cycle) := by
  unfold Structs.checkInfiniteStructSize
  simp only
  split
  next hall =>
    have hfound : ∀ w ∈ windows cycle, Structs.hardEdges ns graph w ≠ [] := fun w hw hnil => by
      have hw := List.all_eq_true.mp hall w hw
      rw [h.marks.hardEdges, hnil] at hw
      exact Bool.noConfusion hw
    refine List.foldlRecOn _ _ h fun ns₁ h₁ edge hedge => h₁.setInfinite edge.weight ?_
    obtain ⟨w, hw, hedge⟩ := List.mem_flatMap.mp hedge
    exact ⟨edge.source, .refl, n, hn, cycle, hcycle, hfound, w, hw, (mem_hardEdges hedge).1.symm⟩
  next => exact h

theorem Inv.checkNode {ns' : Namespace} (h : Inv ns lib graph kept ns') {n : Nat} (hn : n ∈ nodeOrder lib graph) :
    Inv ns lib graph kept (checkNode ns' lib graph n) := by
  unfold Structs.checkNode
  split
  next cycle hcycle => exact (h.checkInfiniteStructSize hn hcycle).checkRecursiveStructField n
  next => exact h

theorem Inv.checkNodes (h : Inv ns lib graph kept ns') (nodes : List Nat)
    (hnodes : nodes ⊆ nodeOrder lib graph) :
    Inv ns lib graph kept (nodes.foldl (fun ns n => Structs.checkNode ns lib graph n) ns') :=
  List.foldlRecOn _ _ h fun _ h _ hn => h.checkNode (hnodes hn)

theorem inv_init (lib : Petgraph) (graph : List Edge) (hflags : ∀ no, ¬ Flagged ns no) : Inv ns lib graph (fun _ => False) ns :=
  ⟨.refl ns, fun no h => absurd h (hflags no), fun _ h => h.elim⟩

/-- Flagging edges one after the other -/
theorem infinite_foldl (hedge : edge ∈ edges)
    (hfield : ns.field? edge.source edge.weight = some field) :
    Infinite (edges.foldl (fun ns edge => ns.modifyField edge.source edge.weight setInfinite) ns)
      edge.source edge.weight := by
  induction edges generalizing ns field with
  | nil => exact absurd hedge List.not_mem_nil
  | cons e edges ih =>
    rw [List.foldl_cons]
    rcases List.mem_cons.mp hedge with rfl | hedge
    · have hmarks : Marks (ns.modifyField edge.source edge.weight setInfinite) (edges.foldl
          (fun ns edge => ns.modifyField edge.source edge.weight setInfinite) _) :=
        List.foldlRecOn _ _ (.refl _) fun ns' h e _ => h.trans (.setInfinite ns' e.source e.weight)
      exact hmarks.keeps _ _ (infinite_self hfield)
    · have htypes := (Marks.setInfinite ns e.source e.weight).types edge.source edge.weight
      rw [hfield] at htypes
      obtain ⟨field', hfield', -⟩ := Option.map_eq_some_iff.mp htypes
      exact ih hedge hfield'

/-- All structs of a cycle of infinite edges are flagged when it is looked at. -/
theorem flagged_cycle (h : Inv ns lib graph kept ns') {cycle : List Nat}
    (hhard : ∀ w ∈ windows cycle, hardEdges ns graph w ≠ []) {w : Nat × Nat}
    (hw : w ∈ windows cycle) :
    Flagged (checkInfiniteStructSize ns' graph cycle) w.1 := by
  have hmarks : ∀ w, hardEdges ns' graph w = hardEdges ns graph w := h.marks.hardEdges graph
  obtain ⟨edge, hedge⟩ := List.exists_mem_of_ne_nil _ (hhard w hw)
  rw [← hmarks] at hedge
  obtain ⟨hsource, field, hfield⟩ := mem_hardEdges hedge
  have hall : ((windows cycle).all fun w => !(hardEdges ns' graph w).isEmpty) = true := by
    refine List.all_eq_true.mpr fun w hw => ?_
    rw [hmarks, Bool.not_eq_true', List.isEmpty_eq_false_iff]
    exact hhard w hw
  unfold checkInfiniteStructSize
  simp only [hall, if_true]
  exact ⟨edge.weight, hsource ▸ infinite_foldl (List.mem_flatMap.mpr ⟨w, hw, hedge⟩) hfield⟩

/-- A struct on a cycle that is looked at is flagged, and stays so. -/
theorem flagged_of_onFound (hflags : ∀ no, ¬ Flagged ns no) (h : OnFound ns lib graph no) :
    Flagged (checkNodes ns lib graph) no := by
  obtain ⟨n, hn, cycle, hcycle, hhard, w, hw, rfl⟩ := h
  obtain ⟨before, after, heq⟩ := List.append_of_mem hn
  have hbefore := (inv_init lib graph hflags).checkNodes before fun m hm => by
    rw [heq]
    exact List.mem_append_left _ hm
  have hflagged := flagged_cycle hbefore hhard hw
  have hchecked := hbefore.checkInfiniteStructSize hn hcycle
  have hcycle' : Inv ns lib graph (· = w.1) _ := ⟨hchecked.marks, hchecked.leads, fun _ h => h ▸ hflagged⟩
  have hnode := hcycle'.checkRecursiveStructField n
  have hafter := hnode.checkNodes after fun m hm => by
    rw [heq]
    exact List.mem_append_right _ (List.mem_cons_of_mem n hm)
  have hend : checkNodes ns lib graph = after.foldl (fun ns n => Structs.checkNode ns lib graph n)
      (checkRecursiveStructField (checkInfiniteStructSize (before.foldl (fun ns n =>
        Structs.checkNode ns lib graph n) ns) graph cycle) lib n graph) := by
    unfold checkNodes
    rw [heq, List.foldl_append, List.foldl_cons]
    congr 1
    unfold Structs.checkNode
    rw [hcycle]
  rw [hend]
  exact hafter.keeps w.1 rfl

/-! ## Errors -/

/-- There is an error about the struct. -/
def Reported (errors : List InfiniteSize) (no : Nat) : Prop := ∃ error ∈ errors, error.structNo = no

theorem infiniteSizeError_structNo {names : Names} {error : InfiniteSize}
    (h : infiniteSizeError ns names n = some error) : error.structNo = n := by
  unfold infiniteSizeError at h
  simp only at h
  split at h
  · exact absurd h (by simp)
  · exact (Option.some.inj h) ▸ rfl

theorem infiniteSizeError_none {names : Names} :
    infiniteSizeError ns names n = none ↔ ¬ Flagged ns n := by
  unfold infiniteSizeError Flagged Infinite
  cases hdecl : ns.structs[n]? with
  | none => simp [Namespace.field?, hdecl]
  | some decl =>
    simp only [Option.map_some, Option.getD_some, List.isEmpty_map, List.isEmpty_iff, ite_eq_left_iff,
      List.filter_eq_nil_iff, exists_field?, hdecl, Option.some.injEq, exists_eq_left', reduceCtorEq, imp_false,
      not_not, not_exists, not_and]
    constructor
    · intro h w field hfield
      exact h (field, w) (List.mk_mem_zipIdx_iff_getElem?.mpr hfield)
    · rintro h ⟨field, w⟩ hfield
      exact h w field (List.mk_mem_zipIdx_iff_getElem?.mp hfield)

theorem reported_iff (names : Names) (no : Nat) : Reported (infiniteSizeErrors ns names) no ↔ Flagged ns no := by
  unfold Reported infiniteSizeErrors
  simp only [List.mem_filterMap]
  constructor
  · rintro ⟨error, ⟨n, -, herror⟩, rfl⟩
    rw [infiniteSizeError_structNo herror]
    by_contra h
    rw [infiniteSizeError_none.mpr h] at herror
    exact absurd herror (by simp)
  · intro h
    have hne : infiniteSizeError ns names no ≠ none := fun hnone => infiniteSizeError_none.mp hnone h
    obtain ⟨error, herror⟩ := Option.ne_none_iff_exists'.mp hne
    obtain ⟨w, field, hfield, -⟩ := h
    obtain ⟨decl, hdecl, -⟩ := exists_field?.mp hfield
    exact ⟨error, ⟨no, List.mem_range.mpr (List.getElem?_eq_some_iff.mp hdecl).1, herror⟩,
      infiniteSizeError_structNo herror⟩

theorem errors_eq_nil (names : Names) : infiniteSizeErrors ns names = [] ↔ ∀ no, ¬ Flagged ns no := by
  simp only [← reported_iff names]
  unfold Reported
  rw [List.eq_nil_iff_forall_not_mem]
  exact ⟨fun h no ⟨error, herror, _⟩ => h error herror, fun h error herror => h error.structNo ⟨error, herror, rfl⟩⟩

/-! ## Termination -/

/-- `struct_offsets` ends, and so do the functions that recurse over types. -/
structure SizesEnd (ns : Namespace) : Prop where
  structOffsets : Ends fun fuel => structOffsets fuel ns
  alignOf : ∀ ty : Ty, ty.Declarable ns → Ends fun fuel => alignOf ns fuel ty
  solanaStorageSize : ∀ ty : Ty, ty.Declarable ns → Ends fun fuel => solanaStorageSize ns fuel ty
  storageSlots : ∀ ty : Ty, ty.Declarable ns → Ends fun fuel => storageSlots ns fuel ty
  storageAlign : ∀ ty : Ty, ty.Declarable ns → Ends fun fuel => storageAlign ns fuel ty

theorem sizesEnd (haddr : 0 < ns.addressLength) (hns : ns.Declarable) (hfinite : ∀ no, ¬ ContainsItself ns no) :
    SizesEnd ns := by
  obtain ⟨rank, hrank⟩ := exists_ranked hns hfinite
  obtain ⟨k, hk⟩ := Sweep.exists_rank_lt rank (List.range ns.structs.length)
  have hbelow : ∀ ty : Ty, ty.Declarable ns → ty.Below ns rank k := fun ty hty no hno =>
    ⟨hty.inside_lt hno, hk no (List.mem_range.mpr (hty.inside_lt hno))⟩
  constructor
  · obtain ⟨f, -, hreturns⟩ := structOffsets_spec (p := True) haddr hns hrank (.inl trivial) ns.layouts
    rw [withLayouts_layouts] at hreturns
    exact hreturns.ends
  · intro ty hty
    obtain ⟨_, -, hreturns⟩ := alignOf_returns hns hrank k hty (hbelow ty hty)
    exact hreturns.ends
  · intro ty hty
    obtain ⟨_, hreturns⟩ := solanaStorageSize_returns hty
    exact hreturns.ends
  · intro ty hty
    obtain ⟨_, hreturns⟩ := storageSlots_returns hns hrank k hty (hbelow ty hty)
    exact hreturns.ends
  · intro ty hty
    obtain ⟨_, -, hreturns⟩ := storageAlign_spec (p := True) haddr hns hrank (.inl trivial) k hty (hbelow ty hty)
      fun _ => .inl trivial
    exact hreturns.ends

theorem forall_field? {P : Field → Prop} :
    (∀ decl ∈ ns.structs, ∀ field ∈ decl.fields, P field) ↔ ∀ a w field, ns.field? a w = some field → P field := by
  simp only [exists_field?]
  constructor
  · rintro h a w field ⟨decl, hdecl, hfield⟩
    exact h decl (List.mem_of_getElem? hdecl) field (List.mem_of_getElem? hfield)
  · intro h decl hdecl field hfield
    obtain ⟨a, ha⟩ := List.getElem?_of_mem hdecl
    obtain ⟨w, hw⟩ := List.getElem?_of_mem hfield
    exact h a w field ⟨decl, ha, hw⟩

theorem Marks.declarable_ty (h : Marks ns ns') {ty : Ty} (hty : ty.Declarable ns) :
    ty.Declarable ns' := by
  induction ty with
  | array elem dims ih => exact ⟨ih hty.1, hty.2⟩
  | struct ty =>
    cases ty with
    | userDefined no =>
      show no < ns'.structs.length
      rwa [h.length]
    | _ => exact hty
  | userType no =>
    show no < ns'.userTypes.length
    rwa [h.userTypes]
  | _ => exact hty

theorem Marks.declarable (h : Marks ns ns') (hns : ns.Declarable) : ns'.Declarable := by
  refine forall_field?.mpr fun a w field hfield => ?_
  have htypes := h.types a w
  rw [hfield] at htypes
  obtain ⟨field', hfield', hty⟩ := Option.map_eq_some_iff.mp htypes.symm
  rw [← hty]
  exact h.declarable_ty (forall_field?.mp hns a w field' hfield')

theorem contains_iff :
    Contains ns a b ↔ ∃ w ty, (ns.field? a w).map Field.ty = some ty ∧ ty.inside = some b := by
  unfold Contains
  simp only [Option.map_eq_some_iff, exists_field?]
  constructor
  · rintro ⟨decl, hdecl, field, hfield, hinside⟩
    obtain ⟨w, hw⟩ := List.getElem?_of_mem hfield
    exact ⟨w, field.ty, ⟨field, ⟨decl, hdecl, hw⟩, rfl⟩, hinside⟩
  · rintro ⟨w, _, ⟨field, ⟨decl, hdecl, hw⟩, rfl⟩, hinside⟩
    exact ⟨decl, hdecl, field, List.mem_of_getElem? hw, hinside⟩

theorem Marks.containsItself (h : Marks ns ns') (no : Nat) :
    ContainsItself ns' no ↔ ContainsItself ns no := by
  have hcontains : Contains ns' = Contains ns := by
    funext a b
    rw [eq_iff_iff, contains_iff, contains_iff]
    simp only [h.types]
  unfold ContainsItself
  rw [hcontains]

/-! ## The check -/

/-- A struct that contains itself is reported when it is on a cycle that is looked at and has an infinite edge
for every step. Then the structs that pass have sizes. What is reported leads to such a cycle; and without a
struct that contains itself nothing is reported just when there is no such cycle, which a fixed-length array of
mappings can make. -/
theorem find_struct_recursion_complete (ns : Namespace) (haddr : 0 < ns.addressLength) (hns : ns.Declarable)
    (hflags : ∀ decl ∈ ns.structs, ∀ field ∈ decl.fields, field.infiniteSize = false) (lib : Petgraph)
    (order : List Edge → List Edge) (names : Names) :
    ∃ graph ns' errors, Settles (structGraph ns order) graph ∧
      Settles (findStructRecursion ns lib order names) (ns', errors) ∧
      ((∀ no, ContainsItself ns no → OnFound ns lib graph no) →
        (∀ no, ContainsItself ns no → Reported errors no) ∧ (errors = [] → SizesEnd ns')) ∧
      ((∀ no, ContainsItself ns no → Reported errors no) → ∀ no, ContainsItself ns no → Leads ns lib graph no) ∧
      (((∀ no, ¬ ContainsItself ns no) → errors = []) ↔
        (∃ no, ContainsItself ns no) ∨ ∀ no, ¬ OnFound ns lib graph no) := by
  obtain ⟨edges, -, hgraph⟩ := structGraph_settles ns order
  have hflags' : ∀ no, ¬ Flagged ns no := by
    rintro no ⟨w, field, hfield, h⟩
    rw [forall_field?.mp hflags no w field hfield] at h
    exact Bool.noConfusion h
  have hinv := (inv_init lib (order edges) hflags').checkNodes _ (List.Subset.refl _)
  have hreported : ∀ no, Reported (infiniteSizeErrors (checkNodes ns lib (order edges)) names) no ↔
      Flagged (checkNodes ns lib (order edges)) no := reported_iff names
  refine ⟨order edges, checkNodes ns lib (order edges), infiniteSizeErrors (checkNodes ns lib (order edges)) names,
    hgraph, ?_, ?_, ?_, ?_⟩
  · exact hgraph.bind (settles_const _)
  · intro hcovered
    have hcomplete : ∀ no, ContainsItself ns no → Flagged (checkNodes ns lib (order edges)) no :=
      fun no hno => flagged_of_onFound hflags' (hcovered no hno)
    refine ⟨fun no hno => (hreported no).mpr (hcomplete no hno), fun hpasses => ?_⟩
    refine sizesEnd (hinv.marks.addressLength ▸ haddr) (hinv.marks.declarable hns) fun no hno => ?_
    exact (errors_eq_nil names).mp hpasses no (hcomplete no ((hinv.marks.containsItself no).mp hno))
  · exact fun h no hno => hinv.leads no ((hreported no).mp (h no hno))
  · rw [errors_eq_nil names]
    constructor
    · intro h
      by_cases hself : ∃ no, ContainsItself ns no
      · exact .inl hself
      · exact .inr fun no hfound => h (not_exists.mp hself) no (flagged_of_onFound hflags' hfound)
    · rintro (⟨no, hno⟩ | hfound) hfinite
      · exact absurd hno (hfinite no)
      · rintro no hflagged
        obtain ⟨no', -, h⟩ := hinv.leads no hflagged
        exact absurd h (hfound no')

namespace Sample

/-- The last edge added comes first. -/
def neighbors (graph : List Edge) (n : Nat) : List Nat := (graph.filter (·.source = n)).reverse.map Edge.target

/-- The paths that go on from the nodes visited, the last of them first -/
def pathsFrom (graph : List Edge) (b : Nat) : Nat → List Nat → List (List Nat)
  | depth + 1, n :: visited => (neighbors graph n).flatMap fun child =>
    if child = b then [(b :: n :: visited).reverse]
    else if child ∈ n :: visited then []
    else pathsFrom graph b depth (child :: n :: visited)
  | _, _ => []

/-- The library on a graph with a single strongly connected component -/
def petgraph : Petgraph where
  tarjanScc graph := [List.range (nodeCount graph)]
  allSimplePaths graph a b _ most := pathsFrom graph b (most.elim (nodeCount graph - 1) (· + 1)) [a]

def names : Names := ⟨fun n => "S" ++ toString n, fun _ w => "f" ++ toString w⟩

def namespaceOf (structs : List (List Ty)) : Namespace where
  target := .polkadot
  addressLength := 32
  valueLength := 16
  structs := structs.map fun tys => { fields := tys.map fun ty => { ty := ty } }
  userTypes := []

/-- `struct S0 { S1 f0; }` and `struct S1 { mapping(address => S0) f0; S0[2] f1; }` -/
def twoStructs : Namespace := namespaceOf [[.struct (.userDefined 1)],
  [.mapping (.address false) (.struct (.userDefined 0)), .array (.struct (.userDefined 0)) [.fixed 2]]]

/-- Both structs are on the cycle that is looked at for each of them. -/
theorem twoStructs_reported : ∃ ns' errors, Settles (findStructRecursion twoStructs petgraph id names) (ns', errors) ∧
    ∀ no, ContainsItself twoStructs no → Reported errors no := by
  obtain ⟨graph, ns', errors, hgraph, hcheck, hcomplete, -, -⟩ := find_struct_recursion_complete twoStructs
    (by decide) (by simp [Namespace.Declarable, Ty.Declarable, twoStructs, namespaceOf])
    (by simp [twoStructs, namespaceOf]) petgraph id names
  obtain rfl : graph = [⟨1, 0, 1⟩, ⟨1, 0, 0⟩, ⟨0, 1, 0⟩] := hgraph.unique (settles_at 5 fun _ => rfl)
  refine ⟨ns', errors, hcheck, (hcomplete fun no hself => ?_).1⟩
  obtain ⟨no', ⟨decl, hdecl, -⟩, -⟩ := Relation.TransGen.head'_iff.mp hself
  have hno : no < 2 := (List.getElem?_eq_some_iff.mp hdecl).1
  interval_cases no
  · exact ⟨0, by decide, [0, 1, 0], by decide, by decide, (0, 1), by decide, rfl⟩
  · exact ⟨1, by decide, [1, 0, 1], by decide, by decide, (1, 0), by decide, rfl⟩

/-- `struct S0 { S1 f0; S2 f1; }`, `struct S1 { S0 f0; S3 f1; }`, `struct S2 { S0[] f0; }` and
`struct S3 { S1[] f0; }` -/
def fourStructs : Namespace := namespaceOf [[.struct (.userDefined 1), .struct (.userDefined 2)],
  [.struct (.userDefined 0), .struct (.userDefined 3)], [.array (.struct (.userDefined 0)) [.dynamic]],
  [.array (.struct (.userDefined 1)) [.dynamic]]]

/-- An order in which the edges to `S2` and `S3` are added last -/
def arraysLast (edges : List Edge) : List Edge :=
  edges.filter (·.target < 2) ++ edges.filter fun edge => !decide (edge.target < 2)

/-- All fields are recursive, and none is infinite. -/
def passed : Namespace := { fourStructs with
  structs := fourStructs.structs.map fun decl =>
    { decl with fields := decl.fields.map fun field => { field with recursive := true } } }

theorem first_field {no : Nat} {fields : List Field} {fuel : Nat}
    (hdecl : passed.structs[no]?.map (fun decl => decl.fields.filter (!·.infiniteSize)) = some (field :: fields))
    (h : (storageSlots passed fuel field.ty).run = none) :
    (storageSlots passed (fuel + 1) (.struct (.userDefined no))).run = none := by
  obtain ⟨decl, hdecl, hfields⟩ := Option.map_eq_some_iff.mp hdecl
  have hstep : storageSlots passed (fuel + 1) (.struct (.userDefined no)) =
      (decl.fields.filter (!·.infiniteSize)).mapM (fun field => storageSlots passed fuel field.ty) >>= fun slots =>
        pure slots.sum := by
    rw [storageSlots, if_neg (by decide)]
    show (orPanic .unreachable passed.structs[no]? >>= fun decl : StructDecl => _) = _
    rw [hdecl]
    rfl
  rw [hstep, hfields, List.mapM_cons, ExceptT.run_bind, ExceptT.run_bind, h]
  rfl

/-- The cycles that are found lead through dynamic arrays. The structs pass, and the size of the first is looked
for without end. -/
theorem fourStructs_pass : (∀ edges, (arraysLast edges).Perm edges) ∧
    Settles (findStructRecursion fourStructs petgraph arraysLast names) (passed, []) ∧
    ContainsItself fourStructs 0 ∧
    ∀ fuel, (storageSlots passed fuel (.struct (.userDefined 0))).run = none := by
  refine ⟨fun edges => List.filter_append_perm _ edges, settles_at 8 fun _ => rfl, ?_, fun fuel => ?_⟩
  · exact .head ⟨_, rfl, _, List.mem_cons_self, rfl⟩ (.single ⟨_, rfl, _, List.mem_cons_self, rfl⟩)
  · have hnone : (storageSlots passed fuel (.struct (.userDefined 0))).run = none ∧
        (storageSlots passed fuel (.struct (.userDefined 1))).run = none := by
      induction fuel with
      | zero => exact ⟨rfl, rfl⟩
      | succ fuel ih => exact ⟨first_field rfl ih.2, first_field rfl ih.1⟩
    exact hnone.1

end Sample

end Solang.Sema.Structs
