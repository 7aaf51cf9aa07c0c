import Solang.Lib.FirstVisit
import Solang.Lib.Fuel
import Solang.Sema.StructRecursion

/-!
# The size of structs in memory

`memory_size_of` is a walk of the graph of structs that counts a struct the first time it meets it.
-/

namespace Solang.Sema.Structs

open FirstVisit Fuel

variable (ns : Namespace)

/-! ## The graph of structs -/

/-- The size of a builtin struct: its fields hold no structs. -/
def builtinSize : StructType → Nat
  | .accountInfo => 4 * ns.pointerSize + 11
  | .accountMeta => ns.pointerSize + 2
  | .externalFunction => ns.target.selectorLength + ns.addressLength
  | _ => 0

def elementarySize : Elementary → Nat
  | .address _ => ns.addressLength
  | .bool => 1
  | .int bits | .uint bits => bits / 8
  | .bytes n => n
  | .unresolved => 0

/-- What a type counts for other than through structs -/
def ownSize : Ty → Nat
  | .enum _ | .bool => 1
  | .contract _ | .address _ => ns.addressLength
  | .bytes n => n
  | .value => ns.valueLength
  | .uint n | .int n => n / 8
  | .array elem dims =>
    if dims.head? = some .dynamic then ns.pointerSize else (product ns.pointerSize dims).getD 0 * ownSize elem
  | .struct ty => builtinSize ns ty
  | .string | .dynamicBytes | .slice _ | .internalFunction | .ref _ | .storageRef _ _ => ns.pointerSize
  | .externalFunction => ns.addressLength + 4
  | .userType no => (ns.userTypes[no]?.map (elementarySize ns)).getD 0
  | .functionSelector => ns.target.selectorLength
  | _ => 0

/-- The struct that the size of a type depends on, with the number of times that it counts -/
def edges : Ty → List (Nat × Nat)
  | .array elem dims =>
    if dims.head? = some .dynamic then []
    else (edges elem).map fun e => ((product ns.pointerSize dims).getD 0 * e.1, e.2)
  | .struct (.userDefined no) => [(1, no)]
  | _ => []

def fieldTypes (no : Nat) : List Ty := (ns.structs[no]?.map fun decl => decl.fields.map Field.ty).getD []

def ownSizeOf (no : Nat) : Nat := ((fieldTypes ns no).map (ownSize ns)).sum

def edgesOf (no : Nat) : List (Nat × Nat) := (fieldTypes ns no).flatMap (edges ns)

/-- The walk that `memory_size_of_internal` does -/
abbrev Walks (es : List (Nat × Nat)) (V : Set Nat) (m : Nat) (V' : Set Nat) : Prop :=
  Visits (ownSizeOf ns) (edgesOf ns) es V m V'

section Walk

variable {ns}

def marks (visited : List Nat) : Set Nat := {n | n ∈ visited}

theorem marks_cons (n : Nat) (visited : List Nat) : marks (n :: visited) = insert n (marks visited) := by
  ext x
  exact List.mem_cons

/-- The number of structs that have not been met -/
def unvisited (ns : Namespace) (visited : List Nat) : Nat :=
  (Finset.range ns.structs.length \ visited.toFinset).card

variable {visited : List Nat} {ty : Ty}

theorem unvisited_cons {n : Nat} (hn : n < ns.structs.length) (hnew : n ∉ visited) :
    unvisited ns (n :: visited) < unvisited ns visited := by
  unfold unvisited
  rw [List.toFinset_cons, Finset.sdiff_insert]
  exact Finset.card_erase_lt_of_mem (by simp [hn, hnew])

theorem unvisited_le {visited' : List Nat} (h : marks visited ⊆ marks visited') :
    unvisited ns visited' ≤ unvisited ns visited := by
  unfold unvisited
  refine Finset.card_le_card (Finset.sdiff_subset_sdiff subset_rfl fun n hn => ?_)
  rw [List.mem_toFinset] at hn ⊢
  exact h hn

theorem fieldTypes_eq {no : Nat} {decl : StructDecl} (h : ns.structs[no]? = some decl) :
    fieldTypes ns no = decl.fields.map Field.ty := by
  unfold fieldTypes
  rw [h]
  rfl

theorem product_some {dynamic : Nat} {dims : List ArrayLength}
    (h : ∀ d ∈ dims, d = .dynamic ∨ ∃ n > 0, d = .fixed n) (hdynamic : 0 < dynamic) :
    ∃ p > 0, product dynamic dims = some p := by
  unfold product
  induction dims with
  | nil => exact ⟨1, Nat.one_pos, rfl⟩
  | cons d dims ih =>
    obtain ⟨p, hp, hprod⟩ := ih fun e he => h e (List.mem_cons_of_mem d he)
    obtain ⟨l, hl, rfl⟩ := Option.map_eq_some_iff.mp hprod
    obtain ⟨c, hc, hcount⟩ : ∃ c > 0, d.count dynamic = some c := by
      rcases h d List.mem_cons_self with rfl | ⟨n, hn, rfl⟩
      · exact ⟨dynamic, hdynamic, rfl⟩
      · exact ⟨n, hn, rfl⟩
    refine ⟨c * l.prod, Nat.mul_pos hc hp, ?_⟩
    rw [List.mapM_cons, hcount, hl]
    rfl

/-- The result of a walk from the marks `visited` -/
def Computes (ns : Namespace) (ty : Ty) (visited : List Nat) : Prop :=
  ∃ m visited', Settles (fun fuel => memorySizeOfInternal ns fuel ty visited) (ownSize ns ty + m, visited') ∧
    Walks ns (edges ns ty) (marks visited) m (marks visited')

/-- A type that is not a struct of the program and holds none counts once. -/
theorem computes_leaf (hedges : edges ns ty = [])
    (h : Settles (fun fuel => memorySizeOfInternal ns fuel ty visited) (ownSize ns ty, visited)) :
    Computes ns ty visited := by
  refine ⟨0, visited, h, ?_⟩
  rw [hedges]
  exact .nil _

theorem settles_leaf {n : Nat}
    (h : ∀ fuel, memorySizeOfInternal ns (fuel + 1) ty visited = some (n, visited)) :
    Settles (fun fuel => memorySizeOfInternal ns fuel ty visited) (n, visited) :=
  (settles_const (n, visited)).succ h

theorem settles_elementary (e : Elementary) (visited : List Nat) :
    Settles (fun fuel => memorySizeOfInternal ns fuel e.ty visited) (elementarySize ns e, visited) := by
  cases e <;> exact settles_leaf fun _ => rfl

theorem Computes.array {elem : Ty} {dims : List ArrayLength} {visited : List Nat}
    (helem : Computes ns elem visited) (hdims : dims.head? ≠ some .dynamic) {p : Nat}
    (hp : product ns.pointerSize dims = some p) : Computes ns (.array elem dims) visited := by
  obtain ⟨m, visited', hsettles, hwalk⟩ := helem
  refine ⟨p * m, visited', ?_, ?_⟩
  · have hown : ownSize ns (.array elem dims) + p * m = (ownSize ns elem + m) * p := by
      rw [ownSize, if_neg hdims, hp, Option.getD_some, ← Nat.mul_add, Nat.mul_comm]
    rw [hown]
    refine (hsettles.bind (g := fun _ r => some (r.1 * p, r.2)) (settles_const _)).succ fun fuel => ?_
    have hunfold : memorySizeOfInternal ns (fuel + 1) (.array elem dims) visited =
        if dims.head? = some .dynamic then some (ns.pointerSize, visited)
        else memorySizeOfInternal ns fuel elem visited >>= fun r =>
          product ns.pointerSize dims >>= fun p => some (r.1 * p, r.2) := rfl
    rw [hunfold, if_neg hdims, hp]
    rfl
  · rw [edges, if_neg hdims, hp, Option.getD_some]
    exact hwalk.scale p

/-- What is done for a field of a struct -/
def addField (ns : Namespace) (fuel : Nat) (s : Nat × List Nat) (field : Field) : Option (Nat × List Nat) := do
  let (size, structsVisited) ← memorySizeOfInternal ns fuel field.ty s.2
  return (s.1 + size, structsVisited)

/-- The fields of a struct, one after the other -/
theorem settles_fields {fields : List Field} (sum : Nat)
    (h : ∀ field ∈ fields, ∀ visited', marks visited ⊆ marks visited' → Computes ns field.ty visited') :
    ∃ m visited', Settles (fun fuel => fields.foldlM (addField ns fuel) (sum, visited))
        (sum + ((fields.map Field.ty).map (ownSize ns)).sum + m, visited') ∧
      Walks ns ((fields.map Field.ty).flatMap (edges ns)) (marks visited) m (marks visited') := by
  induction fields generalizing sum visited with
  | nil => exact ⟨0, visited, settles_const _, .nil _⟩
  | cons field fields ih =>
    obtain ⟨m₁, visited₁, hsettles₁, hwalk₁⟩ := h field List.mem_cons_self visited subset_rfl
    obtain ⟨m₂, visited₂, hsettles₂, hwalk₂⟩ := ih (sum + (ownSize ns field.ty + m₁)) fun f hf visited' hsub =>
      h f (List.mem_cons_of_mem _ hf) visited' (hwalk₁.subset.trans hsub)
    refine ⟨m₁ + m₂, visited₂, ?_, hwalk₁.append hwalk₂⟩
    have hsum : sum + (((field :: fields).map Field.ty).map (ownSize ns)).sum + (m₁ + m₂) =
        sum + (ownSize ns field.ty + m₁) + ((fields.map Field.ty).map (ownSize ns)).sum + m₂ := by
      rw [List.map_cons, List.map_cons, List.sum_cons]
      omega
    rw [hsum]
    have hcons : ∀ fuel, (field :: fields).foldlM (addField ns fuel) (sum, visited) =
        memorySizeOfInternal ns fuel field.ty visited >>= fun r =>
          fields.foldlM (addField ns fuel) (sum + r.1, r.2) := fun fuel => by
      rw [List.foldlM_cons]
      exact bind_assoc ..
    simp only [hcons]
    exact hsettles₁.bind hsettles₂

theorem pointerSize_pos : 0 < ns.pointerSize := by
  unfold Namespace.pointerSize
  cases ns.target <;> decide

theorem settles_builtin {ty : StructType} {decl : StructDecl} {visited : List Nat}
    (hdecl : ty.definition ns = some decl) (hty : ∀ no, ty ≠ .userDefined no) :
    Settles (fun fuel => memorySizeOfInternal ns fuel (.struct ty) visited) (builtinSize ns ty, visited) := by
  refine ⟨2, fun fuel hfuel => ?_⟩
  obtain ⟨fuel, rfl⟩ := Nat.exists_eq_add_of_le' hfuel
  cases ty with
  | userDefined no => exact absurd rfl (hty no)
  | solParameters => exact absurd hdecl (by simp [StructType.definition])
  | accountInfo =>
    simp [memorySizeOfInternal, guardedRecursion, StructType.definition, Structs.accountInfo, builtinSize]
    omega
  | accountMeta =>
    simp [memorySizeOfInternal, guardedRecursion, StructType.definition, Structs.accountMeta, builtinSize]
  | externalFunction =>
    simp [memorySizeOfInternal, guardedRecursion, StructType.definition, externalFunctionStruct, builtinSize]

theorem Namespace.Accepted.field (hns : ns.Accepted) {no : Nat} {ty : Ty} (h : ty ∈ fieldTypes ns no) :
    ty.Accepted ns := by
  unfold fieldTypes at h
  cases hdecl : ns.structs[no]? with
  | none =>
    rw [hdecl] at h
    exact absurd h List.not_mem_nil
  | some decl =>
    rw [hdecl] at h
    obtain ⟨field, hfield, rfl⟩ := List.mem_map.mp h
    exact hns decl (List.mem_of_getElem? hdecl) field hfield

/-- A struct that is met for the first time -/
theorem computes_struct {no : Nat} {decl : StructDecl} (hdecl : ns.structs[no]? = some decl)
    (hnew : no ∉ visited)
    (h : ∀ field ∈ decl.fields, ∀ visited', marks (no :: visited) ⊆ marks visited' → Computes ns field.ty visited') :
    Computes ns (.struct (.userDefined no)) visited := by
  obtain ⟨m, visited', hsettles, hwalk⟩ := settles_fields 0 h
  have hown : ownSizeOf ns no = ((decl.fields.map Field.ty).map (ownSize ns)).sum := by
    unfold ownSizeOf
    rw [fieldTypes_eq hdecl]
  have hedges : edgesOf ns no = (decl.fields.map Field.ty).flatMap (edges ns) := by
    unfold edgesOf
    rw [fieldTypes_eq hdecl]
  rw [Nat.zero_add, ← hown] at hsettles
  rw [← hedges, marks_cons] at hwalk
  have hvisit : Walks ns [(1, no)] (marks visited) (1 * (ownSizeOf ns no + m) + 0) (marks visited') :=
    .visit hnew hwalk (.nil _)
  rw [Nat.one_mul, Nat.add_zero] at hvisit
  refine ⟨ownSizeOf ns no + m, visited', ?_, hvisit⟩
  show Settles _ (0 + (ownSizeOf ns no + m), visited')
  rw [Nat.zero_add]
  refine hsettles.succ fun fuel => ?_
  have hunfold : memorySizeOfInternal ns (fuel + 1) (.struct (.userDefined no)) visited =
      if no ∈ visited then some (0, visited)
      else ns.structs[no]? >>= fun decl => decl.fields.foldlM (addField ns fuel) (0, no :: visited) := rfl
  rw [hunfold, if_neg hnew, hdecl]
  rfl

/-- Every accepted type has a size, which is that of a walk. -/
theorem computes (hns : ns.Accepted) (visited : List Nat) {ty : Ty} (hty : ty.Accepted ns) :
    Computes ns ty visited := by
  induction hn : unvisited ns visited using Nat.strong_induction_on generalizing visited ty with
  | _ n ih =>
    induction ty with
    | array elem dims ihelem =>
      obtain ⟨helem, -, hdims⟩ := hty
      by_cases hhead : dims.head? = some .dynamic
      · refine computes_leaf (by rw [edges, if_pos hhead]) ?_
        rw [ownSize, if_pos hhead]
        exact settles_leaf fun fuel => if_pos hhead
      · obtain ⟨p, -, hp⟩ := product_some hdims pointerSize_pos
        exact (ihelem helem).array hhead hp
    | struct ty =>
      cases ty with
      | userDefined no =>
        by_cases hmem : no ∈ visited
        · exact ⟨0, visited, settles_leaf fun fuel => if_pos hmem, .skip hmem (.nil _)⟩
        · have hlt := unvisited_cons hty hmem
          refine computes_struct (List.getElem?_eq_getElem hty) hmem fun field hfield visited' hsub => ?_
          refine ih _ ?_ visited' ?_ rfl
          · rw [← hn]
            exact Nat.lt_of_le_of_lt (unvisited_le hsub) hlt
          · exact hns _ (List.getElem_mem hty) field hfield
      | solParameters => exact hty.elim
      | accountInfo | accountMeta => exact computes_leaf rfl (settles_builtin rfl nofun)
      | externalFunction => exact computes_leaf rfl (settles_builtin rfl nofun)
    | externalFunction =>
      have haddress : Settles (fun fuel => memorySizeOfInternal ns fuel (.address false) visited)
          (ns.addressLength, visited) := settles_leaf fun _ => rfl
      have hselector : Settles (fun fuel => memorySizeOfInternal ns fuel (.uint 32) visited) (4, visited) :=
        settles_leaf fun _ => rfl
      refine computes_leaf rfl ((haddress.bind (hselector.bind (g := fun _ r =>
        some (ns.addressLength + r.1, r.2)) (settles_const _))).succ fun _ => rfl)
    | userType no =>
      have hdecl := List.getElem?_eq_getElem hty
      refine computes_leaf rfl ?_
      rw [ownSize, hdecl]
      refine (settles_elementary ns.userTypes[no] visited).succ fun fuel => ?_
      have hunfold : memorySizeOfInternal ns (fuel + 1) (.userType no) visited =
          ns.userTypes[no]? >>= fun decl => memorySizeOfInternal ns fuel decl.ty visited := rfl
      rw [hunfold, hdecl]
      rfl
    | rational | void | unreachable | bufferPointer => exact hty.elim
    | _ => exact computes_leaf rfl (settles_leaf fun _ => rfl)

theorem edges_positive (hty : ty.Accepted ns) : ∀ e ∈ edges ns ty, 0 < e.1 := by
  induction ty with
  | array elem dims ih =>
    obtain ⟨helem, -, hdims⟩ := hty
    intro e he
    rw [edges] at he
    split at he
    · exact absurd he List.not_mem_nil
    · obtain ⟨p, hp, hprod⟩ := product_some hdims (@pointerSize_pos ns)
      obtain ⟨e', he', rfl⟩ := List.mem_map.mp he
      rw [hprod]
      exact Nat.mul_pos hp (ih helem e' he')
  | struct ty =>
    intro e he
    cases ty with
    | userDefined no =>
      rw [List.mem_singleton.mp he]
      exact Nat.one_pos
    | _ => exact absurd he List.not_mem_nil
  | _ => exact fun e he => absurd he List.not_mem_nil

theorem edgesOf_positive (hns : ns.Accepted) (no : Nat) : ∀ e ∈ edgesOf ns no, 0 < e.1 := by
  intro e he
  obtain ⟨ty, hty, he⟩ := List.mem_flatMap.mp he
  exact edges_positive (hns.field hty) e he

theorem positive (hns : ns.Accepted) {es : List (Nat × Nat)} (h : ∀ e ∈ es, 0 < e.1) :
    Visits.Positive (edgesOf ns) es := ⟨h, edgesOf_positive hns⟩

end Walk

/-! ## Additivity -/

/-- `memory_size_of` -/
def MemorySize (ty : Ty) (n : Nat) : Prop := Settles (fun fuel => memorySizeOf ns fuel ty) n

/-- The size of the type depends on the struct. -/
def Meets (ty : Ty) (no : Nat) : Prop := Reached (edgesOf ns) (edges ns ty) no

/-- No struct that holds something other than mappings and structs is met in two fields. The struct
itself is met in none, unless everything in it is mappings. -/
structure UsedOnce (no : Nat) : Prop where
  siblings : (fieldTypes ns no).Pairwise fun ty ty' => ∀ a, Meets ns ty a → Meets ns ty' a → ownSizeOf ns a = 0
  self : ∀ ty ∈ fieldTypes ns no, Meets ns ty no →
    ∀ a, Meets ns (.struct (.userDefined no)) a → ownSizeOf ns a = 0

section Additive

variable {ns}

variable {ty : Ty} {no n : Nat} {dims : List ArrayLength}

theorem Computes.memorySize (h : Computes ns ty []) :
    ∃ m V, MemorySize ns ty (ownSize ns ty + m) ∧ Walks ns (edges ns ty) ∅ m V := by
  obtain ⟨m, visited, ⟨n, hn⟩, hwalk⟩ := h
  have hempty : marks [] = ∅ := Set.eq_empty_iff_forall_notMem.mpr fun _ => List.not_mem_nil
  rw [hempty] at hwalk
  refine ⟨m, marks visited, ⟨n, fun fuel hfuel => ?_⟩, hwalk⟩
  dsimp only at hn ⊢
  unfold memorySizeOf
  rw [hn fuel hfuel]
  rfl

theorem meets_field (hty : ty ∈ fieldTypes ns no) {a : Nat} (h : Meets ns ty a) :
    Meets ns (.struct (.userDefined no)) a := by
  obtain ⟨e, he, hreach⟩ := h
  exact ⟨(1, no), List.mem_singleton_self _, .head ⟨e.1, List.mem_flatMap.mpr ⟨ty, hty, he⟩⟩ hreach⟩

/-- The sizes of the fields, each with marks of its own -/
theorem memorySize_fields (hns : ns.Accepted) {tys : List Ty} (htys : ∀ ty ∈ tys, ty.Accepted ns) :
    ∃ ms sizes, List.Forall₂ (MemorySize ns) tys sizes ∧
      List.Forall₂ (fun es m => ∃ V, Walks ns es ∅ m V) (tys.map (edges ns)) ms ∧
      sizes.sum = (tys.map (ownSize ns)).sum + ms.sum := by
  induction tys with
  | nil => exact ⟨[], [], .nil, .nil, rfl⟩
  | cons ty tys ih =>
    obtain ⟨ms, sizes, hsizes, hms, hsum⟩ := ih fun t ht => htys t (List.mem_cons_of_mem _ ht)
    obtain ⟨m, V, hsize, hwalk⟩ := (computes hns [] (htys ty List.mem_cons_self)).memorySize
    refine ⟨m :: ms, (ownSize ns ty + m) :: sizes, .cons hsize hsizes, .cons ⟨V, hwalk⟩ hms, ?_⟩
    rw [List.sum_cons, List.sum_cons, List.map_cons, List.sum_cons, hsum]
    omega

/-- Nothing but mappings -/
theorem walk_eq_zero (hns : ns.Accepted) {es : List (Nat × Nat)} {V V' : Set Nat} {m : Nat}
    (h : Walks ns es V m V') (hes : ∀ e ∈ es, 0 < e.1)
    (hzero : ∀ a, Reached (edgesOf ns) es a → ownSizeOf ns a = 0) : m = 0 :=
  (h.eq_zero_iff (positive hns hes)).mpr fun a ha hnew => hzero a (h.reached ha hnew)

theorem struct_additive (hns : ns.Accepted) (hno : no < ns.structs.length) :
    ∃ size sizes, MemorySize ns (.struct (.userDefined no)) size ∧
      List.Forall₂ (MemorySize ns) (fieldTypes ns no) sizes ∧ (UsedOnce ns no → size = sizes.sum) ∧
      ((∀ ty ∈ fieldTypes ns no, ¬ Meets ns ty no) → size = sizes.sum → UsedOnce ns no) := by
  obtain ⟨m, V, hsize, hwalk⟩ := (@computes ns hns [] (.struct (.userDefined no)) hno).memorySize
  obtain ⟨ms, sizes, hsizes, hms, hsum⟩ := memorySize_fields hns fun ty hty => hns.field hty
  have hflatten : ((fieldTypes ns no).map (edges ns)).flatten = edgesOf ns no := by
    unfold edgesOf
    rw [List.flatMap_def]
  have hpos := positive hns (edgesOf_positive hns no)
  refine ⟨_, sizes, hsize, hsizes, ?_⟩
  cases hwalk with
  | skip hmem => exact absurd hmem (Set.notMem_empty _)
  | @visit _ c m' _ _ _ V₁ _ _ hc hnil =>
    cases hnil
    have hown : ownSize ns (.struct (.userDefined no)) + (1 * (ownSizeOf ns no + c) + 0) = sizes.sum ↔
        c = ms.sum := by
      rw [hsum]
      change 0 + _ = ownSizeOf ns no + _ ↔ _
      omega
    rw [hown]
    have hiff : (∀ ty ∈ fieldTypes ns no, ¬ Meets ns ty no) → (c = ms.sum ↔
        (fieldTypes ns no).Pairwise fun ty ty' => ∀ a, Meets ns ty a → Meets ns ty' a → ownSizeOf ns a = 0) := by
      intro hself
      have hself' : ¬ Reached (edgesOf ns) (edgesOf ns no) no := by
        rintro ⟨e, he, hreach⟩
        obtain ⟨ty, hty, he⟩ := List.mem_flatMap.mp he
        exact hself ty hty ⟨e, he, hreach⟩
      have hV : insert no ∅ = ({no} : Set Nat) := insert_empty_eq no
      rw [← hflatten, hV] at hc
      rw [← hflatten] at hself' hpos
      have hclosed : ClosedFor (edgesOf ns) ((fieldTypes ns no).map (edges ns)).flatten {no} := by
        rintro a rfl ha
        exact absurd ha hself'
      rw [(hc.flatten_le hclosed hpos hms).2, List.pairwise_map]
      refine and_iff_right ?_
      rintro a rfl ha
      exact absurd ha hself'
    constructor
    · intro honce
      by_cases hself : ∀ ty ∈ fieldTypes ns no, ¬ Meets ns ty no
      · exact (hiff hself).mpr honce.siblings
      · obtain ⟨ty, hty, hmeets⟩ : ∃ ty ∈ fieldTypes ns no, Meets ns ty no := by simpa using hself
        have hzero := honce.self ty hty hmeets
        -- the struct is in one of its fields, and there is nothing to count
        have hc0 : c = 0 := walk_eq_zero hns hc (edgesOf_positive hns no) fun a ha =>
          hzero a ⟨(1, no), List.mem_singleton_self _, ha.of_children⟩
        have hms0 : ∀ m ∈ ms, m = 0 := by
          intro m hm
          obtain ⟨es, hes, V, hwalk⟩ : ∃ es ∈ (fieldTypes ns no).map (edges ns), ∃ V, Walks ns es ∅ m V := by
            obtain ⟨i, hi, rfl⟩ := List.mem_iff_getElem.mp hm
            have hlen := hms.length_eq
            exact ⟨_, List.getElem_mem (by omega), hms.get (by omega) hi⟩
          obtain ⟨ty, hty, rfl⟩ := List.mem_map.mp hes
          exact walk_eq_zero hns hwalk (edges_positive (hns.field hty)) fun a ha => hzero a (meets_field hty ha)
        rw [hc0, List.sum_eq_zero hms0]
    · intro hself heq
      exact ⟨(hiff hself).mp heq, fun ty hty hmeets => absurd hmeets (hself ty hty)⟩

theorem memorySize_leaf (h : Settles (fun fuel => memorySizeOfInternal ns fuel ty []) (n, [])) :
    MemorySize ns ty n := by
  obtain ⟨k, hk⟩ := h
  refine ⟨k, fun fuel hfuel => ?_⟩
  dsimp only at hk ⊢
  unfold memorySizeOf
  rw [hk fuel hfuel]
  rfl

theorem builtin_additive {ty : StructType} {decl : StructDecl} (hdecl : ty.definition ns = some decl)
    (hty : ∀ no, ty ≠ .userDefined no) :
    ∃ sizes, MemorySize ns (.struct ty) sizes.sum ∧
      List.Forall₂ (MemorySize ns) (decl.fields.map Field.ty) sizes := by
  have hsize := memorySize_leaf (@settles_builtin ns ty decl [] hdecl hty)
  have hleaf : ∀ ty n, (∀ fuel, memorySizeOfInternal ns (fuel + 1) ty [] = some (n, [])) → MemorySize ns ty n :=
    fun ty n h => memorySize_leaf (settles_leaf h)
  have hptr : ∀ ty, MemorySize ns (.ref ty) ns.pointerSize := fun ty => hleaf _ _ fun _ => rfl
  have hbool : MemorySize ns .bool 1 := hleaf _ _ fun _ => rfl
  cases ty with
  | userDefined no => exact absurd rfl (hty no)
  | solParameters => exact absurd hdecl (by simp [StructType.definition])
  | accountInfo =>
    cases hdecl
    refine ⟨[ns.pointerSize, ns.pointerSize, ns.pointerSize, ns.pointerSize, 8, 1, 1, 1], ?_, ?_⟩
    · have hsum : [ns.pointerSize, ns.pointerSize, ns.pointerSize, ns.pointerSize, 8, 1, 1, 1].sum =
          builtinSize ns .accountInfo := by
        simp [builtinSize]
        omega
      rwa [hsum]
    · exact .cons (hptr _) (.cons (hptr _) (.cons (hleaf _ _ fun _ => rfl) (.cons (hptr _)
        (.cons (hleaf _ _ fun _ => rfl) (.cons hbool (.cons hbool (.cons hbool .nil)))))))
  | accountMeta =>
    cases hdecl
    refine ⟨[ns.pointerSize, 1, 1], ?_, .cons (hptr _) (.cons hbool (.cons hbool .nil))⟩
    have hsum : [ns.pointerSize, 1, 1].sum = builtinSize ns .accountMeta := by simp [builtinSize]
    rwa [hsum]
  | externalFunction =>
    cases hdecl
    refine ⟨[ns.target.selectorLength, ns.addressLength], ?_, .cons (hleaf _ _ fun _ => rfl)
      (.cons (hleaf _ _ fun _ => rfl) .nil)⟩
    have hsum : [ns.target.selectorLength, ns.addressLength].sum = builtinSize ns .externalFunction := by
      simp [builtinSize]
    rwa [hsum]

/-- What an array of fixed length holds -/
def element (elem : Ty) (dims : List ArrayLength) : Ty := if dims = [] then elem else .array elem dims

theorem product_append_fixed {count p : Nat} (h : product count dims = some p) :
    product count (dims ++ [ArrayLength.fixed n]) = some (p * n) := by
  unfold product at h ⊢
  obtain ⟨l, hl, rfl⟩ := Option.map_eq_some_iff.mp h
  rw [List.mapM_append, hl]
  simp [ArrayLength.count]

theorem MemorySize.array {elem : Ty} {dims : List ArrayLength} {n p : Nat} (h : MemorySize ns elem n)
    (hdims : dims.head? ≠ some .dynamic) (hp : product ns.pointerSize dims = some p) :
    MemorySize ns (.array elem dims) (n * p) := by
  refine (h.bind (g := fun _ size => some (size * p)) (settles_const _)).succ fun fuel => ?_
  have hunfold : memorySizeOf ns (fuel + 1) (.array elem dims) =
      (if dims.head? = some .dynamic then some (ns.pointerSize, [])
        else memorySizeOfInternal ns fuel elem [] >>= fun r =>
          product ns.pointerSize dims >>= fun p => some (r.1 * p, r.2)).map (·.1) := rfl
  rw [hunfold, if_neg hdims, hp]
  unfold memorySizeOf
  cases memorySizeOfInternal ns fuel elem [] with
  | none => rfl
  | some r => rfl

/-- The outermost dimension of an array -/
theorem array_additive (hns : ns.Accepted) {elem : Ty}
    (hty : (Ty.array elem (dims ++ [.fixed n])).Accepted ns) :
    ∃ size elemSize, MemorySize ns (.array elem (dims ++ [.fixed n])) size ∧
      MemorySize ns (element elem dims) elemSize ∧
      (size = n * elemSize ↔ dims.head? ≠ some .dynamic ∨ n = 1) := by
  obtain ⟨helem, -, hdims⟩ := hty
  have hdims' : ∀ d ∈ dims, d = .dynamic ∨ ∃ n > 0, d = .fixed n := fun d hd => hdims d (List.mem_append_left _ hd)
  obtain ⟨p, -, hp⟩ := product_some hdims' (@pointerSize_pos ns)
  have hp' := product_append_fixed (n := n) hp
  cases dims with
  | nil =>
    obtain ⟨m, V, hsize, -⟩ := (computes hns [] helem).memorySize
    have hone : p = 1 := (Option.some.inj hp).symm
    refine ⟨_, _, hsize.array (by simp) hp', hsize, fun _ => .inl (by simp), fun _ => ?_⟩
    rw [hone, Nat.one_mul, Nat.mul_comm]
  | cons d dims =>
    by_cases hhead : d = .dynamic
    · have hhead' : ∀ dims', (d :: dims').head? = some .dynamic := fun _ => congrArg some hhead
      refine ⟨ns.pointerSize, ns.pointerSize, memorySize_leaf (settles_leaf fun _ => if_pos (hhead' _)),
        memorySize_leaf (settles_leaf fun _ => if_pos (hhead' _)), ?_⟩
      have hpos : 0 < ns.pointerSize := pointerSize_pos
      rw [or_iff_right (not_not.mpr (hhead' dims))]
      constructor
      · intro heq
        refine (Nat.eq_of_mul_eq_mul_right hpos ?_).symm
        rwa [Nat.one_mul]
      · rintro rfl
        exact (Nat.one_mul _).symm
    · have hhead' : ∀ dims', (d :: dims').head? ≠ some .dynamic := fun _ h => hhead (Option.some.inj h)
      obtain ⟨m, V, hsize, -⟩ := (computes hns [] helem).memorySize
      refine ⟨_, _, hsize.array (hhead' _) hp', hsize.array (hhead' _) hp, fun _ => .inl (hhead' dims), fun _ => ?_⟩
      rw [← Nat.mul_assoc, Nat.mul_comm]

end Additive

/-! ## Results -/

namespace Sample

/-- `struct Point { uint256 x; }`, `struct Segment { Point a; Point b; }` and
`struct Pixel { Point at; uint8 colour; }` -/
def shapes : Namespace where
  target := .solana
  addressLength := 32
  valueLength := 8
  structs := [⟨[⟨.uint 256, false, false⟩], [], []⟩,
    ⟨[⟨.struct (.userDefined 0), false, false⟩, ⟨.struct (.userDefined 0), false, false⟩], [], []⟩,
    ⟨[⟨.struct (.userDefined 0), false, false⟩, ⟨.uint 8, false, false⟩], [], []⟩]
  userTypes := []

theorem shapes_accepted : shapes.Accepted := by
  intro decl hdecl field hfield
  simp only [shapes, List.mem_cons, List.not_mem_nil, or_false] at hdecl
  rcases hdecl with rfl | rfl | rfl <;>
    · simp only [List.mem_cons, List.not_mem_nil, or_false, or_self] at hfield
      rcases hfield with rfl | rfl <;> simp [Ty.Accepted, shapes]

end Sample

/-- The second point of a segment does not count. -/
theorem segment_counts_one_point :
    MemorySize Sample.shapes (.struct (.userDefined 0)) 32 ∧
      ¬ MemorySize Sample.shapes (.struct (.userDefined 1)) (32 + 32) := by
  have hpoint : MemorySize Sample.shapes (.struct (.userDefined 0)) 32 := ⟨2, fun fuel hfuel => by
    obtain ⟨fuel, rfl⟩ := Nat.exists_eq_add_of_le' hfuel
    rfl⟩
  have hsegment : MemorySize Sample.shapes (.struct (.userDefined 1)) 32 := ⟨3, fun fuel hfuel => by
    obtain ⟨fuel, rfl⟩ := Nat.exists_eq_add_of_le' hfuel
    rfl⟩
  exact ⟨hpoint, fun h => absurd (h.unique hsegment) (by decide)⟩

/-- Structs, builtin structs and arrays of a fixed length -/
theorem memory_size_of_additive_iff (hns : ns.Accepted) :
    (∀ no < ns.structs.length, ∃ size sizes, MemorySize ns (.struct (.userDefined no)) size ∧
      List.Forall₂ (MemorySize ns) (fieldTypes ns no) sizes ∧ (UsedOnce ns no → size = sizes.sum) ∧
      ((∀ ty ∈ fieldTypes ns no, ¬ Meets ns ty no) → size = sizes.sum → UsedOnce ns no)) ∧
    (∀ ty decl, ty.definition ns = some decl → (∀ no, ty ≠ .userDefined no) →
      ∃ sizes, MemorySize ns (.struct ty) sizes.sum ∧
        List.Forall₂ (MemorySize ns) (decl.fields.map Field.ty) sizes) ∧
    ∀ elem dims n, (Ty.array elem (dims ++ [ArrayLength.fixed n])).Accepted ns →
      ∃ size elemSize, MemorySize ns (.array elem (dims ++ [ArrayLength.fixed n])) size ∧
        MemorySize ns (element elem dims) elemSize ∧
        (size = n * elemSize ↔ dims.head? ≠ some .dynamic ∨ n = 1) :=
  ⟨fun _ hno => struct_additive hns hno, fun _ _ hdecl hty => builtin_additive hdecl hty,
    fun _ _ _ hty => array_additive hns hty⟩

theorem pixel_additive : ∃ size sizes, MemorySize Sample.shapes (.struct (.userDefined 2)) size ∧
    List.Forall₂ (MemorySize Sample.shapes) (fieldTypes Sample.shapes 2) sizes ∧
    (UsedOnce Sample.shapes 2 → size = sizes.sum) ∧
    ((∀ ty ∈ fieldTypes Sample.shapes 2, ¬ Meets Sample.shapes ty 2) → size = sizes.sum →
      UsedOnce Sample.shapes 2) :=
  (memory_size_of_additive_iff Sample.shapes Sample.shapes_accepted).1 2 (by decide)

end Solang.Sema.Structs
