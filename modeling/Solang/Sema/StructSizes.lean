import Solang.Lib.Fuel
import Solang.Sema.StructLayout

/-!
# Ranks of structs

The structs of which none contains itself through fields without mappings and dynamic arrays are ranked,
and the size and the alignment of a type depend only on the offsets of structs of smaller rank.
-/

namespace Solang.Sema.Structs

/-! ## Chains of structs -/

/-- The struct that a type holds other than through a mapping or a dynamic array -/
def Ty.inside : Ty → Option Nat
  | .array elem dims => if .dynamic ∈ dims then none else elem.inside
  | .struct (.userDefined no) => some no
  | .ref ty | .storageRef _ ty => ty.inside
  | _ => none

/-- What `resolve_type` lets a field be declared as -/
def Ty.Declarable (ns : Namespace) : Ty → Prop
  | .int bits | .uint bits => 8 ≤ bits
  | .bytes n => 0 < n
  | .array elem dims => elem.Declarable ns ∧ .anyFixed ∉ dims
  | .struct (.userDefined no) => no < ns.structs.length
  | .struct .solParameters => False
  | .userType no => no < ns.userTypes.length
  | .rational | .ref _ | .storageRef _ _ | .value | .void | .unreachable | .slice _ | .bufferPointer
  | .functionSelector => False
  | _ => True

def Namespace.Declarable (ns : Namespace) : Prop :=
  ∀ decl ∈ ns.structs, ∀ field ∈ decl.fields, field.ty.Declarable ns

/-- A field of the struct holds the other struct. -/
def Contains (ns : Namespace) (no no' : Nat) : Prop :=
  ∃ decl, ns.structs[no]? = some decl ∧ ∃ field ∈ decl.fields, field.ty.inside = some no'

/-- A chain of fields with no mapping or dynamic array on it leads from the struct to itself. -/
def ContainsItself (ns : Namespace) (no : Nat) : Prop := Relation.TransGen (Contains ns) no no

/-- The struct in the type, if any, has a rank below `k`. -/
def Ty.Below (ns : Namespace) (rank : Nat → Nat) (k : Nat) (ty : Ty) : Prop :=
  ∀ no, ty.inside = some no → no < ns.structs.length ∧ rank no < k

/-- A struct holds structs of smaller rank only. -/
def Namespace.Ranked (ns : Namespace) (rank : Nat → Nat) : Prop :=
  ∀ (no : Nat) (decl : StructDecl), ns.structs[no]? = some decl →
    ∀ field ∈ decl.fields, field.ty.Below ns rank (rank no)

variable {ns : Namespace} {rank : Nat → Nat}

variable {no k k' : Nat} {decl : StructDecl} {α : Type}

theorem Ty.Declarable.inside_lt {ty : Ty} (hty : ty.Declarable ns) (h : ty.inside = some no) :
    no < ns.structs.length := by
  induction ty with
  | array elem dims ih =>
    unfold Ty.inside at h
    split at h
    · exact absurd h (by simp)
    · exact ih hty.1 h
  | struct ty =>
    cases ty with
    | userDefined no' =>
      obtain rfl : no' = no := by simpa [Ty.inside] using h
      exact hty
    | _ => exact absurd h (by simp [Ty.inside])
  | ref | storageRef => exact hty.elim
  | _ => exact absurd h (by simp [Ty.inside])

theorem Namespace.Declarable.field (hns : ns.Declarable) {no : Nat} {decl : StructDecl}
    (h : ns.structs[no]? = some decl) {field : Field} (hfield : field ∈ decl.fields) : field.ty.Declarable ns :=
  hns decl (List.mem_of_getElem? h) field hfield

theorem Contains.lt (hns : ns.Declarable) {a b : Nat} (h : Contains ns a b) : b < ns.structs.length := by
  obtain ⟨decl, hdecl, field, hfield, hinside⟩ := h
  exact (hns.field hdecl hfield).inside_lt hinside

/-- Without a struct that contains itself, the number of structs reached is a rank. -/
theorem exists_ranked (hns : ns.Declarable) (h : ∀ no, ¬ ContainsItself ns no) : ∃ rank, ns.Ranked rank := by
  classical
  let reached (no : Nat) : Finset Nat :=
    (Finset.range ns.structs.length).filter fun m => Relation.TransGen (Contains ns) no m
  refine ⟨fun no => (reached no).card, fun no decl hdecl field hfield m hm => ?_⟩
  have hstep : Contains ns no m := ⟨decl, hdecl, field, hfield, hm⟩
  refine ⟨hstep.lt hns, Finset.card_lt_card ⟨fun a ha => ?_, fun hsub => ?_⟩⟩
  · obtain ⟨hlt, hreach⟩ := Finset.mem_filter.mp ha
    exact Finset.mem_filter.mpr ⟨hlt, .head hstep hreach⟩
  · have hmem : m ∈ reached no :=
      Finset.mem_filter.mpr ⟨Finset.mem_range.mpr (hstep.lt hns), .single hstep⟩
    exact h m (Finset.mem_filter.mp (hsub hmem)).2

theorem Namespace.Ranked.finite (h : ns.Ranked rank) (no : Nat) : ¬ ContainsItself ns no := by
  have hlt : ∀ {a b : Nat}, Relation.TransGen (Contains ns) a b → rank b < rank a := by
    intro a b hchain
    induction hchain with
    | single hstep =>
      obtain ⟨decl, hdecl, field, hfield, hinside⟩ := hstep
      exact (h a decl hdecl field hfield _ hinside).2
    | tail _ hstep ih =>
      obtain ⟨decl, hdecl, field, hfield, hinside⟩ := hstep
      exact Nat.lt_trans (h _ decl hdecl field hfield _ hinside).2 ih
  exact fun hself => Nat.lt_irrefl _ (hlt hself)

theorem Ty.Below.mono {ty : Ty} (h : ty.Below ns rank k) (hk : k ≤ k') : ty.Below ns rank k' :=
  fun no hno => ⟨(h no hno).1, Nat.lt_of_lt_of_le (h no hno).2 hk⟩

theorem Ty.Below.elem {k : Nat} {elem : Ty} {dims : List ArrayLength} (h : (Ty.array elem dims).Below ns rank k)
    (hdims : .dynamic ∉ dims) : elem.Below ns rank k := by
  intro no hno
  refine h no ?_
  rw [Ty.inside, if_neg hdims, hno]

/-! ## Namespaces that differ in the offsets -/

/-- The offsets of a struct in memory and in storage -/
abbrev Layout := List Nat × List Nat

def Namespace.withLayouts (ns : Namespace) (f : Nat → Layout) : Namespace :=
  { ns with structs := ns.structs.mapIdx fun no decl => { decl with offsets := (f no).1, storageOffsets := (f no).2 } }

def Namespace.layouts (ns : Namespace) (no : Nat) : Layout :=
  (ns.structs[no]?.map fun decl => (decl.offsets, decl.storageOffsets)).getD ([], [])

theorem getElem_withLayouts (f : Nat → Layout) (no : Nat) :
    (ns.withLayouts f).structs[no]? =
      ns.structs[no]?.map fun decl => { decl with offsets := (f no).1, storageOffsets := (f no).2 } := by
  simp [Namespace.withLayouts]

@[simp] theorem length_withLayouts (f : Nat → Layout) :
    (ns.withLayouts f).structs.length = ns.structs.length := by
  simp [Namespace.withLayouts]

theorem withLayouts_layouts : ns.withLayouts ns.layouts = ns := by
  have hstructs : (ns.withLayouts ns.layouts).structs = ns.structs := by
    refine List.ext_getElem? fun no => ?_
    rw [getElem_withLayouts]
    cases h : ns.structs[no]? with
    | none => rfl
    | some decl => simp [Namespace.layouts, h]
  show { ns with structs := (ns.withLayouts ns.layouts).structs } = ns
  rw [hstructs]

theorem setStruct_withLayouts (f : Nat → Layout) (h : ns.structs[no]? = some decl) (layout : Layout) :
    (ns.withLayouts f).setStruct no { decl with offsets := layout.1, storageOffsets := layout.2 } =
      ns.withLayouts (Function.update f no layout) := by
  have hstructs : (ns.withLayouts f).structs.set no
        { decl with offsets := layout.1, storageOffsets := layout.2 } =
      (ns.withLayouts (Function.update f no layout)).structs := by
    refine List.ext_getElem? fun m => ?_
    rw [getElem_withLayouts, List.getElem?_set, getElem_withLayouts]
    by_cases hm : no = m
    · subst hm
      obtain ⟨hlt, hget⟩ := List.getElem?_eq_some_iff.mp h
      simp [hlt, hget]
    · rw [if_neg hm, Function.update_of_ne (Ne.symm hm)]
  unfold Namespace.setStruct
  rw [hstructs]
  rfl

/-- Layouts that agree on the structs of rank below `k` -/
def Agree (ns : Namespace) (rank : Nat → Nat) (k : Nat) (f f' : Nat → Layout) : Prop :=
  ∀ no < ns.structs.length, rank no < k → f no = f' no

/-! ## What the functions read -/

theorem fields_withLayouts (f : Nat → Layout) (ty : StructType) :
    (ty.definition (ns.withLayouts f)).map StructDecl.fields = (ty.definition ns).map StructDecl.fields := by
  cases ty with
  | userDefined no =>
    show ((ns.withLayouts f).structs[no]?).map _ = _
    rw [getElem_withLayouts, Option.map_map]
    rfl
  | _ => rfl

theorem option_bind_fields (f : Nat → Layout) (ty : StructType) (g : List Field → Option α) :
    ((ty.definition (ns.withLayouts f)).bind fun decl => g decl.fields) =
      (ty.definition ns).bind fun decl => g decl.fields := by
  have hmap : ∀ o : Option StructDecl, (o.bind fun decl => g decl.fields) = (o.map StructDecl.fields).bind g := by
    rintro (_ | _) <;> rfl
  rw [hmap, hmap, fields_withLayouts]

theorem bind_fields (f : Nat → Layout) (ty : StructType) (g : List Field → Run α) :
    (orPanic .unreachable (ty.definition (ns.withLayouts f)) >>= fun decl => g decl.fields) =
      orPanic .unreachable (ty.definition ns) >>= fun decl => g decl.fields := by
  have hmap : ∀ o : Option StructDecl, (orPanic .unreachable o >>= fun decl => g decl.fields) =
      orPanic .unreachable (o.map StructDecl.fields) >>= g := by
    rintro (_ | _) <;> rfl
  rw [hmap, hmap, fields_withLayouts]

theorem memorySizeOfInternal_withLayouts (f : Nat → Layout) (fuel : Nat) (ty : Ty) (visited : List Nat) :
    memorySizeOfInternal (ns.withLayouts f) fuel ty visited = memorySizeOfInternal ns fuel ty visited := by
  induction fuel generalizing ty visited with
  | zero => rfl
  | succ fuel ih =>
    unfold memorySizeOfInternal
    simp only [ih]
    congr
    funext visited
    cases ty with
    | struct ty => exact option_bind_fields f ty _
    | _ => rfl

theorem memorySizeOf_withLayouts (f : Nat → Layout) (fuel : Nat) (ty : Ty) :
    memorySizeOf (ns.withLayouts f) fuel ty = memorySizeOf ns fuel ty := by
  unfold memorySizeOf
  rw [memorySizeOfInternal_withLayouts]

theorem alignOf_withLayouts (f : Nat → Layout) (fuel : Nat) (ty : Ty) :
    alignOf (ns.withLayouts f) fuel ty = alignOf ns fuel ty := by
  induction fuel generalizing ty with
  | zero => rfl
  | succ fuel ih =>
    unfold alignOf
    simp only [ih]
    cases ty with
    | struct ty =>
      exact bind_fields f ty fun fields => do
        let aligns ← (fields.filter (!·.infiniteSize)).mapM fun field => alignOf ns fuel field.ty
        return aligns.max?.getD 1
    | _ => rfl

theorem builtin_inside {ty : StructType} (h : ∀ no, ty ≠ .userDefined no)
    (hdecl : ty.definition ns = some decl) : ∀ field ∈ decl.fields, field.ty.inside = none := by
  cases ty with
  | userDefined no => exact absurd rfl (h no)
  | solParameters => exact absurd hdecl (by simp [StructType.definition])
  | accountInfo | accountMeta | externalFunction =>
    cases hdecl
    decide

/-- The fields of a struct of rank below `k` -/
theorem Ty.Below.fields (hrank : ns.Ranked rank) {k : Nat} {ty : StructType} (h : (Ty.struct ty).Below ns rank k)
    {decl : StructDecl} (hdecl : ty.definition ns = some decl) {field : Field} (hfield : field ∈ decl.fields) :
    field.ty.Below ns rank k := by
  by_cases huser : ∃ no, ty = .userDefined no
  · obtain ⟨no, rfl⟩ := huser
    exact (hrank no decl hdecl field hfield).mono (Nat.le_of_lt (h no rfl).2)
  · intro no hno
    rw [builtin_inside (fun no heq => huser ⟨no, heq⟩) hdecl field hfield] at hno
    exact absurd hno (by simp)

theorem Elementary.below (e : Elementary) : e.ty.Below ns rank k := by
  intro no hno
  cases e <;> exact absurd hno (by simp [Elementary.ty, Ty.inside])

theorem mapM_congr {β : Type} {g g' : α → Run β} {l : List α} (h : ∀ a ∈ l, g a = g' a) :
    l.mapM g = l.mapM g' := by
  induction l with
  | nil => rfl
  | cons a l ih =>
    rw [List.mapM_cons, List.mapM_cons, h a List.mem_cons_self, ih fun b hb => h b (List.mem_cons_of_mem a hb)]

/-! ## Which offsets the functions read -/

section Local

variable {k : Nat} {f f' : Nat → Layout} (hagree : Agree ns rank k f f')
include hagree

/-- Where only the offsets of a struct are read -/
theorem definition_eq {ty : StructType} (h : (Ty.struct ty).Below ns rank k) :
    ty.definition (ns.withLayouts f) = ty.definition (ns.withLayouts f') := by
  cases ty with
  | userDefined no =>
    obtain ⟨hno, hrank⟩ := h no rfl
    show (ns.withLayouts f).structs[no]? = (ns.withLayouts f').structs[no]?
    rw [getElem_withLayouts, getElem_withLayouts, hagree no hno hrank]
  | _ => rfl

theorem solanaStorageSize_local (fuel : Nat) {ty : Ty} (h : ty.Below ns rank k) :
    solanaStorageSize (ns.withLayouts f) fuel ty = solanaStorageSize (ns.withLayouts f') fuel ty := by
  induction fuel generalizing ty with
  | zero => rfl
  | succ fuel ih =>
    unfold solanaStorageSize
    simp only [memorySizeOf_withLayouts]
    cases ty with
    | array elem dims =>
      dsimp only
      split
      · rfl
      next hdims => rw [ih (h.elem hdims)]
    | struct ty =>
      dsimp only
      rw [definition_eq hagree h]
    | ref ty | storageRef _ ty => exact ih h
    | userType no =>
      show (orPanic .indexOutOfBounds ns.userTypes[no]? >>= fun e => _) = orPanic _ ns.userTypes[no]? >>= fun e => _
      congr
      funext e
      exact ih e.below
    | _ => rfl

omit hagree in
/-- A function of what another function gives for the fields of a struct -/
theorem mapM_fields {α β : Type} (hrank : ns.Ranked rank) {ty : StructType} (h : (Ty.struct ty).Below ns rank k)
    {g g' : Ty → Run α} (hg : ∀ ty : Ty, ty.Below ns rank k → g ty = g' ty) (out : List α → Run β) :
    (orPanic .unreachable (ty.definition (ns.withLayouts f)) >>= fun decl =>
      (decl.fields.filter (!·.infiniteSize)).mapM (fun field => g field.ty) >>= out) =
    (orPanic .unreachable (ty.definition (ns.withLayouts f')) >>= fun decl =>
      (decl.fields.filter (!·.infiniteSize)).mapM (fun field => g' field.ty) >>= out) := by
  let body (g : Ty → Run α) (fields : List Field) : Run β :=
    (fields.filter (!·.infiniteSize)).mapM (fun field => g field.ty) >>= out
  refine (bind_fields f ty (body g)).trans (Eq.trans ?_ (bind_fields f' ty (body g')).symm)
  cases hdecl : ty.definition ns with
  | none => rfl
  | some decl =>
    have hbody : body g decl.fields = body g' decl.fields := by
      refine congrArg (· >>= out) (mapM_congr fun field hfield => ?_)
      exact hg field.ty (h.fields hrank hdecl (List.mem_filter.mp hfield).1)
    exact hbody

/-- Whether an array is sparse is asked for only when it has no dynamic dimension. -/
theorem slots_local (hrank : ns.Ranked rank) (fuel : Nat) {ty : Ty} (h : ty.Below ns rank k) :
    storageSlots (ns.withLayouts f) fuel ty = storageSlots (ns.withLayouts f') fuel ty ∧
      ∀ elem dims, ty = .array elem dims → .dynamic ∉ dims →
        isSparseSolana (ns.withLayouts f) fuel ty = isSparseSolana (ns.withLayouts f') fuel ty := by
  induction fuel generalizing ty with
  | zero => exact ⟨rfl, fun _ _ _ _ => rfl⟩
  | succ fuel ih =>
    constructor
    · have htarget : (ns.withLayouts f).target = ns.target := rfl
      have htarget' : (ns.withLayouts f').target = ns.target := rfl
      unfold storageSlots
      rw [htarget, htarget']
      split
      next =>
        cases ty with
        | array elem dims =>
          dsimp only
          split
          · rfl
          next hdims => rw [(ih h).2 elem dims rfl hdims, (ih (h.elem hdims)).1]
        | struct ty =>
          dsimp only
          rw [definition_eq hagree h]
        | ref ty => exact (@ih ty h).1
        | storageRef immutable ty => exact (@ih ty h).1
        | userType no =>
          show (orPanic .indexOutOfBounds ns.userTypes[no]? >>= fun e => _) =
            orPanic _ ns.userTypes[no]? >>= fun e => _
          congr
          funext e
          exact (ih e.below).1
        | _ => rfl
      next =>
        cases ty with
        | array elem dims =>
          dsimp only
          split
          · rfl
          next hdims => rw [(ih (h.elem hdims)).1]
        | struct ty => exact mapM_fields hrank h (fun ty hty => (ih hty).1) fun slots => pure slots.sum
        | ref ty => exact (@ih ty h).1
        | storageRef immutable ty => exact (@ih ty h).1
        | _ => rfl
    · rintro elem dims rfl hdims
      unfold isSparseSolana Ty.deref
      dsimp only
      rw [(ih (h.elem hdims)).1]

theorem storageAlign_local (hrank : ns.Ranked rank) (fuel : Nat) {ty : Ty} (h : ty.Below ns rank k) :
    storageAlign (ns.withLayouts f) fuel ty = storageAlign (ns.withLayouts f') fuel ty := by
  induction fuel generalizing ty with
  | zero => rfl
  | succ fuel ih =>
    have htarget : (ns.withLayouts f).target = ns.target := rfl
    have htarget' : (ns.withLayouts f').target = ns.target := rfl
    unfold storageAlign
    rw [htarget, htarget']
    split
    next =>
      cases ty with
      | array elem dims =>
        dsimp only
        split
        · rfl
        next hdims => rw [(slots_local hagree hrank fuel h).2 elem dims rfl hdims, ih (h.elem hdims)]
      | struct ty =>
        exact mapM_fields hrank h (fun ty hty => ih hty) fun aligns => pure (min (aligns.max?.getD 1) 8)
      | ref ty => exact congrArg (· >>= fun length => pure (min length 8)) (@ih ty h)
      | storageRef immutable ty => exact congrArg (· >>= fun length => pure (min length 8)) (@ih ty h)
      | _ => rfl
    next => rfl

end Local

end Solang.Sema.Structs

/-!
## Sizes and alignments

On ranked structs every type that a field can have has a size and an alignment, in memory and in storage,
but for the alignments that `storage_align` leaves out.
-/

namespace Solang.Sema.Structs

open Fuel

variable {ns : Namespace} {rank : Nat → Nat}

/-! ### Dimensions -/

theorem exists_mapM_some {α β : Type} {f : α → Option β} {l : List α} (h : ∀ a ∈ l, ∃ b, f a = some b) :
    ∃ bs, l.mapM f = some bs := by
  induction l with
  | nil => exact ⟨[], rfl⟩
  | cons a l ih =>
    obtain ⟨b, hb⟩ := h a List.mem_cons_self
    obtain ⟨bs, hbs⟩ := ih fun c hc => h c (List.mem_cons_of_mem a hc)
    exact ⟨b :: bs, by simp [hb, hbs]⟩

variable {dims : List ArrayLength} {ty : Ty}

theorem exists_product (dynamic : Nat) (h : .anyFixed ∉ dims) :
    ∃ n, product dynamic dims = some n := by
  obtain ⟨counts, hcounts⟩ : ∃ counts, dims.mapM (ArrayLength.count dynamic) = some counts := by
    refine exists_mapM_some fun dim hdim => ?_
    cases dim with
    | anyFixed => exact absurd hdim h
    | fixed n => exact ⟨n, rfl⟩
    | dynamic => exact ⟨dynamic, rfl⟩
  exact ⟨counts.prod, by unfold product; rw [hcounts]; rfl⟩

theorem exists_fixedProduct (h : .anyFixed ∉ dims) (hdynamic : .dynamic ∉ dims) :
    ∃ n, fixedProduct dims = some n := by
  obtain ⟨lengths, hlengths⟩ : ∃ lengths, dims.mapM ArrayLength.fixedLength = some lengths := by
    refine exists_mapM_some fun dim hdim => ?_
    cases dim with
    | anyFixed => exact absurd hdim h
    | fixed n => exact ⟨n, rfl⟩
    | dynamic => exact absurd hdim hdynamic
  exact ⟨lengths.prod, by unfold fixedProduct; rw [hlengths]; rfl⟩

theorem exists_outerSize (h : .anyFixed ∉ dims) : ∃ n, outerSize dims = some n := by
  induction dims with
  | nil => exact ⟨1, rfl⟩
  | cons dim dims ih =>
    rw [List.mem_cons, not_or] at h
    obtain ⟨hdim, hdims⟩ := h
    cases dim with
    | anyFixed => exact absurd rfl hdim
    | fixed n =>
      obtain ⟨m, hm⟩ := ih hdims
      exact ⟨n * m, by rw [outerSize, hm]; rfl⟩
    | dynamic => exact ⟨1, rfl⟩

theorem exists_dynamicArraySize (h : .anyFixed ∉ dims) :
    ∃ n, dynamicArraySize dims = some n := exists_outerSize fun hmem => h (List.mem_reverse.mp hmem)

/-! ### Sizes and alignments -/

theorem pos_max {l : List Nat} (h : ∀ a ∈ l, 0 < a) : 0 < l.max?.getD 1 := by
  cases hmax : l.max? with
  | none => exact Nat.one_pos
  | some a => exact h a (List.max?_mem hmax)

theorem forall₂_right {α β : Type} {P : β → Prop} {l : List α} {l' : List β}
    (h : List.Forall₂ (fun _ b => P b) l l') : ∀ b ∈ l', P b := by
  induction h with
  | nil => exact nofun
  | cons hb _ ih => exact List.forall_mem_cons.mpr ⟨hb, ih⟩

/-- The fields of a struct of rank below `k`, each of smaller rank -/
theorem exists_fields {p : Prop} {g : Nat → Ty → Run Nat} (Q : Nat → Prop) {fields : List Field}
    (h : ∀ field ∈ fields, ∃ a, Q a ∧ ReturnsUnless p (fun fuel => g fuel field.ty) a) :
    ∃ xs, (∀ x ∈ xs, Q x) ∧ ReturnsUnless p (fun fuel =>
      (fields.filter (!·.infiniteSize)).mapM fun field => g fuel field.ty) xs := by
  obtain ⟨xs, hxs, hreturns⟩ := exists_mapM (Q := fun _ a => Q a)
    (l := fields.filter (!·.infiniteSize)) fun field hfield => h field (List.mem_filter.mp hfield).1
  exact ⟨xs, forall₂_right hxs, hreturns⟩

theorem alignOf_returns (hns : ns.Declarable) (hrank : ns.Ranked rank) (k : Nat)
    (hty : ty.Declarable ns) (hbelow : ty.Below ns rank k) :
    ∃ a > 0, Returns (fun fuel => alignOf ns fuel ty) a := by
  induction k using Nat.strong_induction_on generalizing ty with
  | _ k ih =>
    cases ty with
    | uint bits | int bits =>
      refine ⟨if bits = 8 then 1 else if bits ≤ 16 then 2 else if bits ≤ 32 then 4 else 8, ?_,
        returns_at 1 fun _ => rfl⟩
      split_ifs <;> decide
    | struct ty =>
      cases ty with
      | userDefined no =>
        have hdecl := List.getElem?_eq_getElem hty
        obtain ⟨aligns, hpos, haligns⟩ := exists_fields (p := False) (g := alignOf ns) (0 < ·)
          fun field hfield => by
            obtain ⟨a, ha, hreturns⟩ := ih (rank no) (hbelow no rfl).2 (hns.field hdecl hfield)
              (hrank no _ hdecl field hfield)
            exact ⟨a, ha, hreturns.unless⟩
        refine ⟨aligns.max?.getD 1, pos_max hpos, ?_⟩
        refine ((haligns.returns id).map fun aligns => aligns.max?.getD 1).succ fun fuel => ?_
        show (orPanic .unreachable ns.structs[no]? >>= fun decl : StructDecl => _) = _
        rw [hdecl]
        rfl
      | solParameters => exact hty.elim
      | accountInfo => exact ⟨8, by decide, returns_at 2 fun _ => rfl⟩
      | accountMeta | externalFunction => exact ⟨1, by decide, returns_at 2 fun _ => rfl⟩
    | internalFunction => exact ⟨ns.target.ptrSize, by cases ns.target <;> decide, returns_at 1 fun _ => rfl⟩
    | _ => exact ⟨1, Nat.one_pos, returns_at 1 fun _ => rfl⟩

theorem Ty.Declarable.definition {ty : StructType} (h : (Ty.struct ty).Declarable ns) :
    ∃ decl, ty.definition ns = some decl := by
  cases ty with
  | userDefined no => exact ⟨_, List.getElem?_eq_getElem h⟩
  | solParameters => exact h.elim
  | _ => exact ⟨_, rfl⟩

/-- The elementary types and what is read off the offsets of a struct need no ranks. -/
theorem solanaStorageSize_returns (hty : ty.Declarable ns) :
    ∃ size, Returns (fun fuel => solanaStorageSize ns fuel ty) size := by
  induction ty with
  | array elem dims ih =>
    obtain ⟨helem, hfixed⟩ := hty
    by_cases hdims : .dynamic ∈ dims
    · obtain ⟨n, hn⟩ := exists_dynamicArraySize hfixed
      refine ⟨n * 4, returns_at 1 fun fuel => ?_⟩
      rw [solanaStorageSize, if_pos hdims, hn]
      rfl
    · obtain ⟨n, hn⟩ := exists_fixedProduct hfixed hdims
      obtain ⟨size, hsize⟩ := ih helem
      refine ⟨size * n, (hsize.map (· * n)).succ fun fuel => ?_⟩
      rw [solanaStorageSize, if_neg hdims, hn]
      simp only [orPanic, pure_bind]
  | struct ty =>
    obtain ⟨decl, hdecl⟩ := hty.definition
    refine ⟨decl.offsets.getLast?.getD 0, returns_at 1 fun fuel => ?_⟩
    unfold solanaStorageSize
    dsimp only
    rw [hdecl]
    rfl
  | userType no =>
    have hdecl := List.getElem?_eq_getElem hty
    have helem : ∀ e : Elementary, ∃ size, Returns (fun fuel => solanaStorageSize ns fuel e.ty) size := by
      rintro (_ | _ | _ | _ | _ | _) <;> exact ⟨_, returns_at 2 fun _ => rfl⟩
    obtain ⟨size, hsize⟩ := helem ns.userTypes[no]
    refine ⟨size, hsize.succ fun fuel => ?_⟩
    show (orPanic .indexOutOfBounds ns.userTypes[no]? >>= fun e => _) = _
    rw [hdecl]
    rfl
  | rational | ref | storageRef | value | void | unreachable | slice | bufferPointer | functionSelector =>
    exact hty.elim
  | string | dynamicBytes => exact ⟨4, returns_at 1 fun _ => rfl⟩
  | _ => exact ⟨_, returns_at 3 fun _ => rfl⟩

theorem isSparseSolana_returns {elem : Ty} {slots : Nat} (h : Returns (fun fuel => storageSlots ns fuel elem) slots)
    (dims : List ArrayLength) : ∃ sparse, Returns (fun fuel => isSparseSolana ns fuel (.array elem dims)) sparse := by
  by_cases hhead : dims.head? = some .dynamic
  · refine ⟨false, (returns_pure false).succ fun fuel => ?_⟩
    unfold isSparseSolana Ty.deref
    dsimp only
    rw [if_pos hhead]
  · let sparse (slots : Nat) : Bool :=
      Storage.solanaSparseArraySize ≤ slots * (dims.map fun dim => dim.fixedLength.getD 4).prod
    refine ⟨sparse slots, (h.map sparse).succ fun fuel => ?_⟩
    unfold isSparseSolana Ty.deref
    dsimp only
    rw [if_neg hhead]

theorem elementary_slots (e : Elementary) : ∃ slots, Returns (fun fuel => storageSlots ns fuel e.ty) slots := by
  obtain ⟨target, addressLength, valueLength, structs, userTypes⟩ := ns
  cases target <;> cases e <;> exact ⟨_, returns_at 1 fun _ => rfl⟩

theorem storageSlots_array {elem : Ty} (hfixed : .anyFixed ∉ dims)
    (helem : .dynamic ∉ dims → ∃ slots, Returns (fun fuel => storageSlots ns fuel elem) slots) :
    ∃ slots, Returns (fun fuel => storageSlots ns fuel (.array elem dims)) slots := by
  obtain ⟨outer, houter⟩ := exists_dynamicArraySize hfixed
  by_cases hsolana : ns.target = .solana
  · by_cases hdims : .dynamic ∈ dims
    · refine ⟨outer * 4, returns_at 1 fun fuel => ?_⟩
      rw [storageSlots, if_pos hsolana, if_pos hdims, houter]
      rfl
    · obtain ⟨n, hn⟩ := exists_product 4 hfixed
      obtain ⟨slots, hslots⟩ := helem hdims
      obtain ⟨sparse, hsparse⟩ := isSparseSolana_returns hslots dims
      have hsize : Returns (fun fuel => isSparseSolana ns fuel (.array elem dims) >>= fun sparse =>
          if sparse then pure (Storage.solanaBucketSize * 4)
          else storageSlots ns fuel elem >>= fun slots => pure (slots * n))
          (if sparse then Storage.solanaBucketSize * 4 else slots * n) := by
        refine hsparse.bind ?_
        cases sparse with
        | true => exact returns_pure _
        | false => exact hslots.map (· * n)
      refine ⟨_, hsize.succ fun fuel => ?_⟩
      rw [storageSlots, if_pos hsolana, if_neg hdims, hn]
      simp only [orPanic, pure_bind]
  · by_cases hdims : .dynamic ∈ dims
    · refine ⟨outer, returns_at 1 fun fuel => ?_⟩
      rw [storageSlots, if_neg hsolana, if_pos hdims, houter]
      rfl
    · obtain ⟨n, hn⟩ := exists_product 1 hfixed
      obtain ⟨slots, hslots⟩ := helem hdims
      refine ⟨slots * n, (hslots.map (· * n)).succ fun fuel => ?_⟩
      rw [storageSlots, if_neg hsolana, if_neg hdims, hn]
      simp only [orPanic, pure_bind]

/-- On Solana the size of a struct is read off its offsets. -/
theorem storageSlots_solana (hsolana : ns.target = .solana) (hty : ty.Declarable ns) :
    ∃ slots, Returns (fun fuel => storageSlots ns fuel ty) slots := by
  obtain ⟨target, addressLength, valueLength, structs, userTypes⟩ := ns
  obtain rfl : target = .solana := hsolana
  induction ty with
  | array elem dims ih => exact storageSlots_array hty.2 fun _ => ih hty.1
  | struct ty =>
    obtain ⟨decl, hdecl⟩ := hty.definition
    refine ⟨decl.storageOffsets.getLast?.getD 0, returns_at 1 fun fuel => ?_⟩
    rw [storageSlots, if_pos rfl, hdecl]
    rfl
  | userType no =>
    obtain ⟨slots, hslots⟩ := elementary_slots userTypes[no]
    refine ⟨slots, hslots.succ fun fuel => ?_⟩
    rw [storageSlots, if_pos rfl, List.getElem?_eq_getElem hty]
    rfl
  | rational | ref | storageRef | value | void | unreachable | slice | bufferPointer | functionSelector =>
    exact hty.elim
  | _ => exact ⟨_, returns_at 1 fun _ => rfl⟩

/-- Elsewhere it is the sum of those of its fields. -/
theorem storageSlots_struct (hsolana : ns.target ≠ .solana) {ty : StructType} {decl : StructDecl}
    (hdecl : ty.definition ns = some decl)
    (h : ∀ field ∈ decl.fields, ∃ slots, Returns (fun fuel => storageSlots ns fuel field.ty) slots) :
    ∃ slots, Returns (fun fuel => storageSlots ns fuel (.struct ty)) slots := by
  obtain ⟨slots, -, hslots⟩ := exists_fields (p := False) (g := storageSlots ns) (fun _ => True)
    fun field hfield => by
      obtain ⟨slots, hslots⟩ := h field hfield
      exact ⟨slots, trivial, hslots.unless⟩
  refine ⟨slots.sum, ((hslots.returns id).map List.sum).succ fun fuel => ?_⟩
  rw [storageSlots, if_neg hsolana, hdecl]
  rfl

theorem builtin_slots {ty : StructType} {decl : StructDecl} (hdecl : ty.definition ns = some decl)
    (hty : ∀ no, ty ≠ .userDefined no) : ∃ slots, Returns (fun fuel => storageSlots ns fuel (.struct ty)) slots := by
  obtain ⟨target, addressLength, valueLength, structs, userTypes⟩ := ns
  cases ty with
  | userDefined no => exact absurd rfl (hty no)
  | solParameters => exact absurd hdecl (by simp [StructType.definition])
  | _ => cases target <;> exact ⟨_, returns_at 3 fun _ => rfl⟩

theorem storageSlots_returns (hns : ns.Declarable) (hrank : ns.Ranked rank) (k : Nat)
    (hty : ty.Declarable ns) (hbelow : ty.Below ns rank k) :
    ∃ slots, Returns (fun fuel => storageSlots ns fuel ty) slots := by
  by_cases hsolana : ns.target = .solana
  · exact storageSlots_solana hsolana hty
  induction k using Nat.strong_induction_on generalizing ty with
  | _ k ih =>
    induction ty with
    | array elem dims ihelem => exact storageSlots_array hty.2 fun hdims => ihelem hty.1 (hbelow.elem hdims)
    | struct ty =>
      cases ty with
      | userDefined no =>
        have hdecl := List.getElem?_eq_getElem hty
        exact storageSlots_struct hsolana hdecl fun field hfield =>
          ih (rank no) (hbelow no rfl).2 (hns.field hdecl hfield) (hrank no _ hdecl field hfield)
      | solParameters => exact hty.elim
      | accountInfo | accountMeta | externalFunction => exact builtin_slots rfl nofun
    | rational | ref | storageRef | value | void | unreachable | slice | bufferPointer | functionSelector =>
      exact hty.elim
    | _ =>
      refine ⟨1, returns_at 1 fun _ => ?_⟩
      rw [storageSlots, if_neg hsolana]

/-! ### Alignment in storage -/

/-- `storage_align` is implemented for the type on Solana: it is not for the types that users define
and those of slices and selectors, which two builtin structs hold. -/
def Ty.Alignable : Ty → Prop
  | .array elem dims => .dynamic ∈ dims ∨ elem.Alignable
  | .userType _ | .struct .accountInfo | .struct .externalFunction => False
  | _ => True

def Namespace.Alignable (ns : Namespace) : Prop :=
  ns.target = .solana → ∀ decl ∈ ns.structs, ∀ field ∈ decl.fields, field.ty.Alignable

theorem min_eight {a : Nat} (h : 0 < a) : 0 < min a 8 ∧ min a 8 ≤ 8 := ⟨Nat.lt_min.mpr ⟨h, by decide⟩, Nat.min_le_right a 8⟩

section Align

variable {p : Prop} (hsolana : ns.target = .solana)
include hsolana

/-- A type whose alignment is not looked for elsewhere -/
theorem align_leaf (haddr : 0 < ns.addressLength) (hty : ty.Declarable ns) (halign : ty.Alignable)
    (harray : ∀ elem dims, ty ≠ .array elem dims) (hstruct : ∀ no, ty ≠ .struct (.userDefined no)) :
    ∃ a, (0 < a ∧ a ≤ 8) ∧ Returns (fun fuel => storageAlign ns fuel ty) a := by
  obtain ⟨target, addressLength, valueLength, structs, userTypes⟩ := ns
  obtain rfl : target = .solana := hsolana
  have h8 : ∀ {bits : Nat}, 8 ≤ bits → 0 < min (bits / 8) 8 ∧ min (bits / 8) 8 ≤ 8 := fun h => min_eight (Nat.div_pos h (by decide))
  cases ty with
  | array elem dims => exact absurd rfl (harray elem dims)
  | struct ty =>
    cases ty with
    | userDefined no => exact absurd rfl (hstruct no)
    | accountMeta =>
      refine ⟨min ([min (min addressLength 8) 8, 1, 1].max?.getD 1) 8, min_eight (pos_max ?_),
        returns_at 3 fun _ => rfl⟩
      simp [haddr]
    | solParameters => exact hty.elim
    | accountInfo | externalFunction => exact halign.elim
  | int bits | uint bits => exact ⟨_, h8 hty, returns_at 1 fun _ => rfl⟩
  | bytes n => exact ⟨_, min_eight hty, returns_at 1 fun _ => rfl⟩
  | address | contract | externalFunction => exact ⟨_, min_eight haddr, returns_at 1 fun _ => rfl⟩
  | userType no => exact halign.elim
  | rational | ref | storageRef | value | void | unreachable | slice | bufferPointer | functionSelector =>
    exact hty.elim
  | string | dynamicBytes | mapping => exact ⟨4, by decide, returns_at 1 fun _ => rfl⟩
  | bool | enum | unresolved => exact ⟨1, by decide, returns_at 1 fun _ => rfl⟩
  | internalFunction => exact ⟨8, by decide, returns_at 1 fun _ => rfl⟩

theorem align_array {elem : Ty} (hty : (Ty.array elem dims).Declarable ns)
    (helem : .dynamic ∉ dims → ∃ a, (0 < a ∧ a ≤ 8) ∧ ReturnsUnless p (fun fuel => storageAlign ns fuel elem) a) :
    ∃ a, (0 < a ∧ a ≤ 8) ∧ ReturnsUnless p (fun fuel => storageAlign ns fuel (.array elem dims)) a := by
  by_cases hdims : .dynamic ∈ dims
  · refine ⟨4, by decide, (returns_at 1 fun fuel => ?_).unless⟩
    rw [storageAlign, if_pos hsolana]
    dsimp only
    rw [if_pos hdims]
    rfl
  · obtain ⟨slots, hslots⟩ := storageSlots_solana hsolana hty.1
    obtain ⟨sparse, hsparse⟩ := isSparseSolana_returns hslots dims
    obtain ⟨a, ha, hreturns⟩ := helem hdims
    have hlength : ReturnsUnless p (fun fuel => isSparseSolana ns fuel (.array elem dims) >>= fun sparse =>
        if sparse then pure 4 else storageAlign ns fuel elem >>= fun length => pure (min length 8))
        (if sparse then 4 else min a 8) := by
      refine hsparse.unless.bind ?_
      cases sparse with
      | true => exact (returns_pure 4).unless
      | false => exact hreturns.map (min · 8)
    refine ⟨_, ?_, hlength.succ fun fuel => ?_⟩
    · split_ifs
      · decide
      · exact min_eight ha.1
    · rw [storageAlign, if_pos hsolana]
      dsimp only
      rw [if_neg hdims]
      rfl

theorem align_struct {ty : StructType} {decl : StructDecl} (hdecl : ty.definition ns = some decl)
    (h : ∀ field ∈ decl.fields, ∃ a, (0 < a ∧ a ≤ 8) ∧ ReturnsUnless p (fun fuel => storageAlign ns fuel field.ty) a) :
    ∃ a, (0 < a ∧ a ≤ 8) ∧ ReturnsUnless p (fun fuel => storageAlign ns fuel (.struct ty)) a := by
  obtain ⟨aligns, hpos, haligns⟩ := exists_fields (g := storageAlign ns) (fun a => 0 < a ∧ a ≤ 8) h
  refine ⟨min (aligns.max?.getD 1) 8, min_eight (pos_max fun a ha => (hpos a ha).1),
    (haligns.map fun aligns => min (aligns.max?.getD 1) 8).succ fun fuel => ?_⟩
  rw [storageAlign, if_pos hsolana]
  dsimp only
  rw [hdecl]
  rfl

theorem align_builtin (haddr : 0 < ns.addressLength) {ty : StructType} (hty : (Ty.struct ty).Declarable ns)
    (hbuiltin : ∀ no, ty ≠ .userDefined no) (halign : p ∨ (Ty.struct ty).Alignable) :
    ∃ a, (0 < a ∧ a ≤ 8) ∧ ReturnsUnless p (fun fuel => storageAlign ns fuel (.struct ty)) a := by
  rcases halign with hp | halign
  · obtain ⟨target, addressLength, valueLength, structs, userTypes⟩ := ns
    obtain rfl : target = .solana := hsolana
    cases ty with
    | userDefined no => exact absurd rfl (hbuiltin no)
    | solParameters => exact hty.elim
    | accountInfo
    | externalFunction => exact ⟨1, by decide, .inr ⟨hp, .unimplemented, settles_at 3 fun _ => rfl⟩⟩
    | accountMeta =>
      obtain ⟨a, ha, hreturns⟩ := align_leaf rfl haddr hty trivial nofun nofun
      exact ⟨a, ha, hreturns.unless⟩
  · obtain ⟨a, ha, hreturns⟩ := align_leaf hsolana haddr hty halign nofun fun no heq =>
      hbuiltin no (Ty.struct.inj heq)
    exact ⟨a, ha, hreturns.unless⟩

end Align

/-- A type has an alignment, unless it or a type of a field has none. -/
theorem storageAlign_spec {p : Prop} (haddr : 0 < ns.addressLength) (hns : ns.Declarable)
    (hrank : ns.Ranked rank) (hfields : p ∨ ns.Alignable) (k : Nat) (hty : ty.Declarable ns)
    (hbelow : ty.Below ns rank k) (halign : ns.target = .solana → p ∨ ty.Alignable) :
    ∃ a, (0 < a ∧ a ≤ 8) ∧ ReturnsUnless p (fun fuel => storageAlign ns fuel ty) a := by
  by_cases hsolana : ns.target = .solana
  · induction k using Nat.strong_induction_on generalizing ty with
    | _ k ih =>
      induction ty with
      | array elem dims ihelem =>
        refine align_array hsolana hty fun hdims => ihelem hty.1 (hbelow.elem hdims) fun _ => ?_
        exact (halign hsolana).imp_right fun h => h.resolve_left hdims
      | struct ty =>
        by_cases huser : ∃ no, ty = .userDefined no
        · obtain ⟨no, rfl⟩ := huser
          have hdecl := List.getElem?_eq_getElem hty
          refine align_struct hsolana hdecl fun field hfield => ih (rank no) (hbelow no rfl).2
            (hns.field hdecl hfield) (hrank no _ hdecl field hfield) fun _ => ?_
          exact hfields.imp_right fun h => h hsolana _ (List.mem_of_getElem? hdecl) field hfield
        · refine align_builtin hsolana haddr hty (fun no heq => huser ⟨no, heq⟩) (halign hsolana)
      | userType no =>
        rcases halign hsolana with hp | h
        · refine ⟨1, by decide, (returnsUnless_throw hp .unimplemented).succ fun fuel => ?_⟩
          rw [storageAlign, if_pos hsolana]
          rfl
        · exact h.elim
      | _ =>
        obtain ⟨a, ha, hreturns⟩ := align_leaf hsolana haddr hty trivial nofun nofun
        exact ⟨a, ha, hreturns.unless⟩
  · refine ⟨1, by decide, Returns.unless (returns_at 1 fun fuel => ?_)⟩
    rw [storageAlign, if_neg hsolana]

end Solang.Sema.Structs
