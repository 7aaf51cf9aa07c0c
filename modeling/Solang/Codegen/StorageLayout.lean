import Solang.Sema.StorageTypes

/-!
# The layout of a contract

`layout` of `codegen/mod.rs`: every state variable that is not constant gets a slot, in
the order of the linearised bases. The slots never overlap; on Solana they are aligned by
the alignment in memory, which need not be the one in storage.
-/

namespace Solang.Codegen.StorageLayout

open Sema.Storage

structure Variable where
  ty : Sema.Storage.Ty
  constant : Bool

/-- `Layout`; contracts are numbered up to `n`. -/
structure Layout (n : Nat) where
  slot : Nat
  contractNo : Fin n
  varNo : Nat
  ty : Sema.Storage.Ty

/-- What `layout` leaves in the contract -/
structure Result (n : Nat) where
  layout : List (Layout n)
  fixedLayoutSize : Nat
  diagnostics : List String

def solanaFirstOffset : Nat := 16

def maximumAccountSize : Nat := 10 * 1024 * 1024

variable {n : Nat} (ns : Sema.Storage.Namespace)

/-- Where the first variable may be -/
def firstSlot : Nat := if ns.solana then solanaFirstOffset else 0

/-- The variables of the contracts one after the other -/
def declared (vars : Fin n → List Variable) (bases : List (Fin n)) :
    List (Fin n × Nat × Variable) :=
  bases.flatMap fun base => (vars base).zipIdx.map fun (v, no) => (base, no, v)

/-- The loop of `layout` -/
def place : Nat → List (Fin n × Nat × Variable) → Option (List (Layout n) × Nat)
  | slot, [] => some ([], slot)
  | slot, (contractNo, varNo, v) :: vars =>
    if v.constant then place slot vars
    else do
      let slot := if ns.solana then alignUp slot (alignOf ns v.ty) else slot
      let slots ← storageSlots ns v.ty
      let (layout, size) ← place (slot + slots) vars
      some (⟨slot, contractNo, varNo, v.ty⟩ :: layout, size)

/-- The check of the `@space` annotation of the constructor, if it has one -/
def checkSpace (slot : Nat) : Option Int → List String
  | none => []
  | some value =>
    if value < slot then
      ["contract requires at least " ++ toString slot ++ " bytes of space"]
    else if maximumAccountSize < value then
      ["Solana's runtime does not permit accounts larger than 10 MB"]
    else []

def layout (vars : Fin n → List Variable) (bases : List (Fin n)) (space : Option Int) :
    Option (Result n) := do
  let (layout, slot) ← place ns (firstSlot ns) (declared vars bases)
  some ⟨layout, slot, checkSpace slot space⟩

/-! ## Declared types -/

mutual

/-- What `sema` lets through: integers of whole bytes, no empty array or struct -/
def Declared : Sema.Storage.Ty → Prop
  | .int bits | .uint bits => 0 < bits ∧ 8 ∣ bits
  | .bytes n => 0 < n
  | .array elem dims => Declared elem ∧ .fixed 0 ∉ dims
  | .struct fields => fields ≠ [] ∧ AllDeclared fields
  | .userType ty => Declared ty
  | _ => True

def AllDeclared : List Sema.Storage.Ty → Prop
  | [] => True
  | ty :: fields => Declared ty ∧ AllDeclared fields

end

variable {ns}

theorem product_pos {dims : List Sema.Storage.ArrayLength} {k : Nat} (hk : 0 < k) (h : .fixed 0 ∉ dims) :
    0 < product k dims := by
  unfold product
  induction dims with
  | nil => simp
  | cons d dims ih =>
    simp only [List.mem_cons, not_or] at h
    simp only [List.map_cons, List.prod_cons]
    refine Nat.mul_pos ?_ (ih h.2)
    cases d with
    | fixed m =>
      refine Nat.pos_of_ne_zero fun hm : m = 0 => h.1 ?_
      rw [hm]
    | dynamic => exact hk

theorem outerSize_pos {dims : List Sema.Storage.ArrayLength} (h : .fixed 0 ∉ dims) : 0 < outerSize dims := by
  induction dims with
  | nil => decide
  | cons d dims ih =>
    simp only [List.mem_cons, not_or] at h
    cases d with
    | fixed m => exact Nat.mul_pos (Nat.pos_of_ne_zero fun hm => h.1 (by rw [hm])) (ih h.2)
    | dynamic => exact Nat.one_pos

theorem le_fieldOffsets (offset : Nat) (fields : List (Nat × Nat)) :
    offset + (fields.map (·.2)).sum ≤ (fieldOffsets offset fields).2 := by
  induction fields generalizing offset with
  | nil => simp [fieldOffsets]
  | cons f fields ih =>
    have hle := ih (alignUp offset f.1 + f.2)
    have hup := le_alignUp offset f.1
    simp only [fieldOffsets, List.map_cons, List.sum_cons]
    omega

/-- The overall size of a struct is at least that of its fields. -/
theorem le_structOffsets (fields : List (Nat × Nat)) :
    (fields.map (·.2)).sum ≤ (structOffsets fields).getLast?.getD 0 := by
  have hle := le_fieldOffsets 0 fields
  unfold structOffsets
  simp only [List.getLast?_append, List.getLast?_singleton, Option.some_or, Option.getD_some]
  split
  next =>
    have hup := le_alignUp (fieldOffsets 0 fields).2 ((fields.map (·.1)).foldl max 0)
    omega
  next => omega

mutual

theorem storageSlots_pos (haddr : 0 < ns.addressLength) {s : Nat} :
    (ty : Sema.Storage.Ty) → Declared ty → storageSlots ns ty = some s → 0 < s
  | .array elem dims, hd, h => by
    obtain ⟨helem, hdims⟩ := hd
    have houter : 0 < dynamicArraySize dims := outerSize_pos (by simpa using hdims)
    simp only [storageSlots] at h
    split at h
    next =>
      split at h
      next =>
        cases h
        omega
      next =>
        obtain ⟨slots, hs, h⟩ := Option.bind_eq_some_iff.mp h
        split at h
        next =>
          cases h
          decide
        next =>
          cases h
          exact Nat.mul_pos (storageSlots_pos haddr elem helem hs) (product_pos (by decide) hdims)
    next =>
      split at h
      next =>
        cases h
        exact houter
      next =>
        obtain ⟨slots, hs, h⟩ := Option.bind_eq_some_iff.mp h
        cases h
        exact Nat.mul_pos (storageSlots_pos haddr elem helem hs) (product_pos (by decide) hdims)
  | .struct fields, hd, h => by
    obtain ⟨hne, hfields⟩ := hd
    simp only [storageSlots] at h
    split at h
    next =>
      obtain ⟨sizes, hs, h⟩ := Option.bind_eq_some_iff.mp h
      have hpos := fieldSizes_pos haddr fields hne hfields hs
      cases h
      exact Nat.lt_of_lt_of_le hpos (le_structOffsets sizes)
    next =>
      obtain ⟨sizes, hs, h⟩ := Option.bind_eq_some_iff.mp h
      have hpos := fieldSizes_pos haddr fields hne hfields hs
      cases h
      exact hpos
  | .userType ty, hd, h => by
    simp only [storageSlots] at h
    split at h
    next => exact storageSlots_pos haddr ty hd h
    next => cases h; decide
  | .bool, _, h | .enum, _, h => by cases h; decide
  | .address, _, h | .contract, _, h
  | .dynamicBytes, _, h
  | .string, _, h
  | .externalFunction, _, h => by simp only [storageSlots] at h; cases h; split <;> omega
  | .int bits, hd, h | .uint bits, hd, h => by
    obtain ⟨h0, h8⟩ := hd
    simp only [storageSlots] at h
    cases h
    split <;> omega
  | .bytes n, hd, h => by
    have hn : 0 < n := hd
    simp only [storageSlots] at h
    cases h
    split <;> omega
  | .mapping, _, h => by simp only [storageSlots, solanaBucketSize] at h; cases h; split <;> omega
  | .internalFunction, _, h => by
    simp only [storageSlots, Sema.Storage.Namespace.ptrSize] at h
    cases h
    split <;> simp

theorem fieldSizes_pos (haddr : 0 < ns.addressLength) {sizes : List (Nat × Nat)} :
    (fields : List Sema.Storage.Ty) → fields ≠ [] → AllDeclared fields → fieldSizes ns fields = some sizes →
      0 < (sizes.map (·.2)).sum
  | [], hne, _, _ => absurd rfl hne
  | ty :: fields, _, hd, h => by
    simp only [fieldSizes] at h
    obtain ⟨slots, hs, h⟩ := Option.bind_eq_some_iff.mp h
    obtain ⟨length, -, h⟩ := Option.bind_eq_some_iff.mp h
    obtain ⟨rest, -, h⟩ := Option.bind_eq_some_iff.mp h
    have hpos := storageSlots_pos haddr ty hd.1 hs
    cases h
    simp only [List.map_cons, List.sum_cons]
    omega

end

mutual

/-- Away from Solana no type is left out. -/
theorem storageSlots_isSome (h : ns.solana = false) :
    (ty : Sema.Storage.Ty) → ∃ s, storageSlots ns ty = some s
  | .array elem dims => by
    obtain ⟨s, hs⟩ := storageSlots_isSome h elem
    simp only [storageSlots, h, hs, Bool.false_eq_true, if_false]
    split <;> exact ⟨_, rfl⟩
  | .struct fields => by
    obtain ⟨sizes, hs⟩ := fieldSizes_isSome h fields
    simp only [storageSlots, h, hs]
    exact ⟨_, rfl⟩
  | .userType _ => by
    simp only [storageSlots, h]
    exact ⟨_, rfl⟩
  | .bool | .enum | .address | .contract | .int _ | .uint _ | .bytes _ | .dynamicBytes | .string
  | .mapping | .internalFunction | .externalFunction => ⟨_, rfl⟩

theorem fieldSizes_isSome (h : ns.solana = false) :
    (fields : List Sema.Storage.Ty) → ∃ sizes, fieldSizes ns fields = some sizes
  | [] => ⟨_, rfl⟩
  | ty :: fields => by
    obtain ⟨s, hs⟩ := storageSlots_isSome h ty
    obtain ⟨sizes, hsizes⟩ := fieldSizes_isSome h fields
    simp only [fieldSizes, h, hs, hsizes]
    exact ⟨_, rfl⟩

end

/-- A type with an alignment has a size. -/
theorem storageSlots_of_align {ty : Sema.Storage.Ty} {a : Nat} (h : storageAlign ns ty = some a) :
    ∃ s, storageSlots ns ty = some s := by
  by_cases hs : ns.solana = true
  · simp only [storageAlign, hs, if_true, Option.map_eq_some_iff] at h
    obtain ⟨l, hl, -⟩ := h
    cases ty with
    | array elem dims =>
      simp only [storageLength] at hl
      simp only [storageSlots, hs, if_true]
      split at hl
      next => exact ⟨_, if_pos ‹_›⟩
      next hdyn =>
        obtain ⟨slots, helem, -⟩ := Option.bind_eq_some_iff.mp hl
        rw [if_neg hdyn, helem]
        simp only [Option.bind_eq_bind, Option.bind_some]
        split <;> exact ⟨_, rfl⟩
    | struct fields =>
      simp only [storageLength] at hl
      obtain ⟨sizes, hsizes, -⟩ := Option.bind_eq_some_iff.mp hl
      simp only [storageSlots, hs, if_true, hsizes]
      exact ⟨_, rfl⟩
    | userType ty => cases hl
    | _ => exact ⟨_, rfl⟩
  · exact storageSlots_isSome (by simpa using hs) ty

mutual

theorem alignOf_pos : (ty : Sema.Storage.Ty) → 0 < alignOf ns ty
  | .struct fields => by
    simp only [alignOf]
    cases hm : (fieldAligns ns fields).max? with
    | none => decide
    | some a => exact fieldAligns_pos fields a (List.max?_mem hm)
  | .int bits | .uint bits => by
    simp only [alignOf]
    split
    · decide
    · split
      · decide
      · split <;> decide
  | .internalFunction => by
    simp only [alignOf, Sema.Storage.Namespace.ptrSize]
    split <;> decide
  | .bool | .enum | .address | .contract | .bytes _ | .dynamicBytes | .string | .mapping
  | .externalFunction | .userType _ | .array _ _ => Nat.one_pos

theorem fieldAligns_pos : (fields : List Sema.Storage.Ty) → ∀ a ∈ fieldAligns ns fields, 0 < a
  | [] => by simp [fieldAligns]
  | ty :: fields => by
    simp only [fieldAligns, List.forall_mem_cons]
    exact ⟨alignOf_pos ty, fieldAligns_pos fields⟩

end

/-! ## Slots -/

/-- Where the variable ends -/
def Layout.stop (ns : Sema.Storage.Namespace) (l : Layout n) : Nat := l.slot + (storageSlots ns l.ty).getD 0

/-- The variables that get a slot -/
def stored (vars : List (Fin n × Nat × Variable)) : List (Fin n × Nat × Sema.Storage.Ty) :=
  (vars.filter fun v => !v.2.2.constant).map fun v => (v.1, v.2.1, v.2.2.ty)

def Layout.decl (l : Layout n) : Fin n × Nat × Sema.Storage.Ty := (l.contractNo, l.varNo, l.ty)

/-- The variables from this slot on are one behind the other, up to the size. -/
structure Placed (ns : Sema.Storage.Namespace) (slot : Nat) (vars : List (Fin n × Nat × Variable))
    (layout : List (Layout n)) (size : Nat) : Prop where
  decls : layout.map Layout.decl = stored vars
  ordered : layout.Pairwise fun a b => a.slot < b.slot ∧ a.stop ns ≤ b.slot
  inside : ∀ l ∈ layout, slot ≤ l.slot ∧ l.stop ns ≤ size
  grows : slot ≤ size
  aligned : ns.solana = true → ∀ l ∈ layout, alignOf ns l.ty ∣ l.slot

theorem place_spec (vars : List (Fin n × Nat × Variable)) (slot : Nat)
    (h : ∀ v ∈ stored vars, ∃ s, storageSlots ns v.2.2 = some s ∧ 0 < s) :
    ∃ layout size, place ns slot vars = some (layout, size) ∧ Placed ns slot vars layout size := by
  induction vars generalizing slot with
  | nil => exact ⟨[], slot, rfl, rfl, .nil, by simp, Nat.le_refl _, by simp⟩
  | cons v vars ih =>
    obtain ⟨contractNo, varNo, v⟩ := v
    cases hc : v.constant with
    | true =>
      have hstored : stored ((contractNo, varNo, v) :: vars) = stored vars := by
        simp [stored, hc]
      rw [hstored] at h
      obtain ⟨layout, size, hp, hpl⟩ := ih slot h
      refine ⟨layout, size, by simp only [place, hc, if_true, hp], ?_⟩
      exact ⟨by rw [hstored, hpl.decls], hpl.ordered, hpl.inside, hpl.grows, hpl.aligned⟩
    | false =>
      have hstored : stored ((contractNo, varNo, v) :: vars) =
          (contractNo, varNo, v.ty) :: stored vars := by
        simp [stored, hc]
      rw [hstored, List.forall_mem_cons] at h
      obtain ⟨⟨s, hs, hpos⟩, hrest⟩ := h
      let start := if ns.solana then alignUp slot (alignOf ns v.ty) else slot
      have hstart : slot ≤ start := by
        simp only [start]
        split
        next => exact le_alignUp _ _
        next => exact Nat.le_refl _
      obtain ⟨layout, size, hp, hpl⟩ := ih (start + s) hrest
      refine ⟨⟨start, contractNo, varNo, v.ty⟩ :: layout, size, ?_, ?_⟩
      · simp only [place, hc, hs]
        show (place ns (start + s) vars).bind _ = _
        rw [hp]
        rfl
      · have hstop : Layout.stop ns (⟨start, contractNo, varNo, v.ty⟩ : Layout n) = start + s := by
          simp [Layout.stop, hs]
        have hgrows := hpl.grows
        refine ⟨?_, ?_, ?_, by omega, ?_⟩
        · rw [hstored, List.map_cons, hpl.decls]
          rfl
        · refine List.pairwise_cons.mpr ⟨fun b hb => ?_, hpl.ordered⟩
          have hin := (hpl.inside b hb).1
          rw [hstop]
          exact ⟨by show start < b.slot; omega, hin⟩
        · refine List.forall_mem_cons.mpr ⟨⟨hstart, by omega⟩, fun l hl => ?_⟩
          have hin := hpl.inside l hl
          omega
        · intro hsol
          refine List.forall_mem_cons.mpr ⟨?_, hpl.aligned hsol⟩
          simp only [start, hsol, if_true]
          exact dvd_alignUp (alignOf_pos v.ty) slot

/-! ## The layout -/

/-- The variables of the bases are laid out in their order, strictly increasing and without overlap,
from the first slot on and below the size; on Solana each is aligned as its type is in storage. -/
structure Sound (ns : Sema.Storage.Namespace) (vars : Fin n → List Variable) (bases : List (Fin n))
    (r : Result n) : Prop where
  decls : r.layout.map Layout.decl = stored (declared vars bases)
  ordered : r.layout.Pairwise fun a b => a.slot < b.slot ∧ a.stop ns ≤ b.slot
  inside : ∀ l ∈ r.layout, firstSlot ns ≤ l.slot ∧ l.stop ns ≤ r.fixedLayoutSize
  aligned : ns.solana = true → ∀ l ∈ r.layout, ∃ a, storageAlign ns l.ty = some a ∧ a ∣ l.slot

/-- The alignment in memory, which `layout` uses, is enough for storage. -/
def Suffices (ns : Sema.Storage.Namespace) (ty : Sema.Storage.Ty) : Prop :=
  ∃ a, storageAlign ns ty = some a ∧ a ∣ alignOf ns ty

theorem mem_stored {vars : Fin n → List Variable} {bases : List (Fin n)} {v : Fin n × Nat × Sema.Storage.Ty}
    (h : v ∈ stored (declared vars bases)) :
    ∃ b ∈ bases, ∃ w ∈ vars b, w.constant = false ∧ w.ty = v.2.2 := by
  obtain ⟨w, hw, rfl⟩ := List.mem_map.mp h
  obtain ⟨hw, hc⟩ := List.mem_filter.mp hw
  obtain ⟨b, hb, hw⟩ := List.mem_flatMap.mp hw
  obtain ⟨⟨x, no⟩, hx, rfl⟩ := List.mem_map.mp hw
  exact ⟨b, hb, x, List.fst_mem_of_mem_zipIdx hx, by simpa using hc, rfl⟩

/-- On Solana the types need an alignment in memory that is enough. -/
theorem layout_sound (haddr : 0 < ns.addressLength) (vars : Fin n → List Variable)
    (bases : List (Fin n)) (space : Option Int)
    (hd : ∀ b ∈ bases, ∀ v ∈ vars b, v.constant = false → Declared v.ty)
    (ha : ns.solana = true → ∀ b ∈ bases, ∀ v ∈ vars b, v.constant = false → Suffices ns v.ty) :
    ∃ r, layout ns vars bases space = some r ∧ Sound ns vars bases r := by
  have hsome : ∀ v ∈ stored (declared vars bases), ∃ s, storageSlots ns v.2.2 = some s ∧ 0 < s := by
    intro v hv
    obtain ⟨b, hb, w, hw, hc, hty⟩ := mem_stored hv
    obtain ⟨s, hs⟩ : ∃ s, storageSlots ns v.2.2 = some s := by
      rw [← hty]
      by_cases hsol : ns.solana = true
      · obtain ⟨a, halign, -⟩ := ha hsol b hb w hw hc
        exact storageSlots_of_align halign
      · exact storageSlots_isSome (by simpa using hsol) w.ty
    refine ⟨s, hs, storageSlots_pos haddr v.2.2 ?_ hs⟩
    rw [← hty]
    exact hd b hb w hw hc
  obtain ⟨l, size, hplace, hpl⟩ := place_spec (declared vars bases) (firstSlot ns) hsome
  refine ⟨⟨l, size, checkSpace size space⟩, ?_, hpl.decls, hpl.ordered, hpl.inside, ?_⟩
  · simp only [layout, hplace]
    rfl
  · intro hsol e he
    have hmem : e.decl ∈ stored (declared vars bases) := by
      rw [← hpl.decls]
      exact List.mem_map_of_mem he
    obtain ⟨b, hb, w, hw, hc, hty⟩ := mem_stored hmem
    obtain ⟨a, halign, hdvd⟩ := ha hsol b hb w hw hc
    have hty : w.ty = e.ty := hty
    rw [hty] at halign hdvd
    exact ⟨a, halign, Nat.dvd_trans hdvd (hpl.aligned hsol e he)⟩

/-! ## More variables -/

theorem place_append {xs ys : List (Fin n × Nat × Variable)} {l : List (Layout n)} {slot size : Nat}
    (h : place ns slot (xs ++ ys) = some (l, size)) : ∃ l₁ stop l₂,
      place ns slot xs = some (l₁, stop) ∧ place ns stop ys = some (l₂, size) ∧ l = l₁ ++ l₂ := by
  induction xs generalizing slot l with
  | nil => exact ⟨[], slot, l, rfl, h, rfl⟩
  | cons v xs ih =>
    rw [List.cons_append, place] at h
    rw [place]
    split at h
    · rw [if_pos ‹_›]
      exact ih h
    · obtain ⟨slots, hslots, h⟩ := Option.bind_eq_some_iff.mp h
      obtain ⟨⟨l, size⟩, hrest, h⟩ := Option.bind_eq_some_iff.mp h
      cases h
      obtain ⟨l₁, stop, l₂, hxs, hys, rfl⟩ := ih hrest
      exact ⟨_ :: l₁, stop, l₂, by rw [if_neg ‹_›, hslots]; simp [hxs], hys, rfl⟩

theorem le_of_place {vars : List (Fin n × Nat × Variable)} {l : List (Layout n)} {slot size : Nat}
    (h : place ns slot vars = some (l, size)) : ∀ e ∈ l, slot ≤ e.slot := by
  induction vars generalizing slot l with
  | nil =>
    cases h
    exact nofun
  | cons v vars ih =>
    rw [place] at h
    split at h
    · exact ih h
    · obtain ⟨slots, -, h⟩ := Option.bind_eq_some_iff.mp h
      obtain ⟨⟨l, size⟩, hrest, h⟩ := Option.bind_eq_some_iff.mp h
      cases h
      have hup : slot ≤ if ns.solana then alignUp slot (alignOf ns v.2.2.ty) else slot := by
        split
        · exact le_alignUp _ _
        · exact Nat.le_refl slot
      exact List.forall_mem_cons.mpr ⟨hup, fun e he =>
        Nat.le_trans hup (Nat.le_of_add_right_le (ih hrest e he))⟩

/-- Variables declared behind the others, as in a derived contract, leave the others where they are. -/
theorem layout_extends {vars vars' : Fin n → List Variable} {bases bases' : List (Fin n)}
    {space space' : Option Int} {r' : Result n} (h : layout ns vars' bases' space' = some r')
    (hvars : declared vars bases <+: declared vars' bases') : ∃ r l, layout ns vars bases space = some r ∧
      r'.layout = r.layout ++ l ∧ ∀ e ∈ l, r.fixedLayoutSize ≤ e.slot := by
  obtain ⟨new, hnew⟩ := hvars
  obtain ⟨⟨l, size⟩, hplace, h⟩ := Option.bind_eq_some_iff.mp h
  cases h
  obtain ⟨l₁, stop, l₂, hold, hrest, rfl⟩ := place_append (hnew ▸ hplace)
  exact ⟨⟨l₁, stop, checkSpace stop space⟩, l₂, by rw [layout, hold]; rfl, rfl, le_of_place hrest⟩

/-- A variable behind this many booleans -/
def behindBools (k : Nat) (ty : Sema.Storage.Ty) : List Variable :=
  List.replicate k ⟨.bool, false⟩ ++ [⟨ty, false⟩]

theorem place_behindBools (hsol : ns.solana = true) (ty : Sema.Storage.Ty) (k no slot : Nat)
    {l : List (Layout 1)} {size : Nat}
    (h : place ns slot (((behindBools k ty).zipIdx no).map fun (v, no) => ((0 : Fin 1), no, v)) =
      some (l, size)) :
    ∃ e ∈ l, e.ty = ty ∧ e.slot = alignUp (slot + k) (alignOf ns ty) := by
  induction k generalizing no slot l with
  | zero =>
    simp only [behindBools, List.replicate_zero, List.nil_append, List.zipIdx_cons, List.zipIdx_nil, List.map_cons,
      List.map_nil, place, hsol, if_true, Bool.false_eq_true, if_false] at h
    obtain ⟨s, -, h⟩ := Option.bind_eq_some_iff.mp h
    cases h
    exact ⟨_, List.mem_cons_self, rfl, rfl⟩
  | succ k ih =>
    have hbool : alignUp slot (alignOf ns .bool) = slot := by
      simp [alignUp, alignOf, Nat.mod_one]
    simp only [behindBools, List.replicate_succ, List.cons_append, List.zipIdx_cons, List.map_cons,
      place, hsol, if_true, Bool.false_eq_true, if_false, storageSlots, hbool] at h
    obtain ⟨_, ⟨⟩, h⟩ := Option.bind_eq_some_iff.mp h
    obtain ⟨⟨l', size'⟩, hrest, h⟩ := Option.bind_eq_some_iff.mp h
    cases h
    obtain ⟨e, he, hty, hslot⟩ := ih (no + 1) (slot + 1) hrest
    refine ⟨e, List.mem_cons_of_mem _ he, hty, ?_⟩
    rw [hslot]
    congr 1
    omega

/-- Of these types and booleans every contract has a sound layout just when, on Solana, the alignment
in memory is enough for each of them. -/
theorem layout_sound_iff (ns : Sema.Storage.Namespace) (haddr : 0 < ns.addressLength)
    (T : Sema.Storage.Ty → Prop) (hT : ∀ ty, T ty → Declared ty) :
    (∀ (n : Nat) (vars : Fin n → List Variable) (bases : List (Fin n)) (space : Option Int),
      (∀ b ∈ bases, ∀ v ∈ vars b, v.constant = false → v.ty = .bool ∨ T v.ty) →
      ∃ r, layout ns vars bases space = some r ∧ Sound ns vars bases r) ↔
    (ns.solana = true → ∀ ty, T ty → Suffices ns ty) := by
  constructor
  · intro h hsol ty hty
    -- the variable behind any number of booleans
    have hk : ∀ k, ∃ a, storageAlign ns ty = some a ∧ a ∣ alignUp (16 + k) (alignOf ns ty) := by
      intro k
      obtain ⟨r, hr, hsound⟩ := h 1 (fun _ => behindBools k ty) [0] none (by
        intro b _ v hv _
        obtain hv | hv := List.mem_append.mp hv
        · left
          rw [List.eq_of_mem_replicate hv]
        · right
          obtain rfl : v = ⟨ty, false⟩ := by simpa using hv
          exact hty)
      simp only [layout] at hr
      obtain ⟨⟨l, size⟩, hplace, hr⟩ := Option.bind_eq_some_iff.mp hr
      cases hr
      have hfirst : firstSlot ns = 16 := by simp [firstSlot, hsol, solanaFirstOffset]
      rw [hfirst] at hplace
      simp only [declared, List.flatMap_cons, List.flatMap_nil, List.append_nil] at hplace
      obtain ⟨e, he, hety, hslot⟩ := place_behindBools hsol ty k 0 16 hplace
      obtain ⟨a, ha, hdvd⟩ := hsound.aligned hsol e he
      rw [hety] at ha
      rw [hslot] at hdvd
      exact ⟨a, ha, hdvd⟩
    obtain ⟨a, ha, hdvd⟩ := hk 0
    let s := alignUp (16 + 0) (alignOf ns ty)
    have hs : 16 ≤ s := le_alignUp _ _
    obtain ⟨b, hb, hdvd'⟩ := hk (s + 1 - 16)
    obtain rfl : a = b := by rw [ha] at hb; simpa using hb
    have hnext : 16 + (s + 1 - 16) = s + 1 := by omega
    rw [hnext, alignUp_succ (alignOf_pos ty) (dvd_alignUp (alignOf_pos ty) _)] at hdvd'
    exact ⟨a, ha, (Nat.dvd_add_right hdvd).mp hdvd'⟩
  · intro h n vars bases space hvars
    refine layout_sound haddr vars bases space (fun b hb v hv hc => ?_) fun hsol b hb v hv hc => ?_
    · obtain hbool | hty := hvars b hb v hv hc
      · rw [hbool]
        trivial
      · exact hT _ hty
    · obtain hbool | hty := hvars b hb v hv hc
      · rw [hbool]
        exact ⟨1, by simp [storageAlign, hsol, storageLength], Nat.one_dvd _⟩
      · exact h hsol _ hty

namespace Sample

def solana : Sema.Storage.Namespace := ⟨true, 32⟩

/-- Integers of 64 bits, and structs of one and a flag -/
def Wide (ty : Sema.Storage.Ty) : Prop := ty = .uint 64 ∨ ty = .struct [.uint 64, .bool]

theorem declared_wide (ty : Sema.Storage.Ty) (h : Wide ty) : Declared ty := by
  obtain rfl | rfl := h
  · exact ⟨by decide, by decide⟩
  · exact ⟨by simp, ⟨by decide, by decide⟩, trivial, trivial⟩

theorem layout_sound_iff_wide :
    (∀ ty, Wide ty → Declared ty) ∧
      ∀ (n : Nat) (vars : Fin n → List Variable) (bases : List (Fin n)) (space : Option Int),
        (∀ b ∈ bases, ∀ v ∈ vars b, v.constant = false → v.ty = .bool ∨ Wide v.ty) →
        ∃ r, layout solana vars bases space = some r ∧ Sound solana vars bases r := by
  refine ⟨declared_wide, (layout_sound_iff solana (by decide) Wide declared_wide).mpr ?_⟩
  rintro - ty (rfl | rfl)
  · exact ⟨8, rfl, by decide⟩
  · exact ⟨8, rfl, by decide⟩

/-- `contract C is B`, each with a `uint64` behind a flag -/
theorem derived_keeps_slots : ∃ r l,
    layout solana (fun _ : Fin 2 => behindBools 1 (.uint 64)) [0] none = some r ∧
      [⟨16, 0, 0, .bool⟩, ⟨24, 0, 1, .uint 64⟩, ⟨32, 1, 0, .bool⟩, ⟨40, 1, 1, .uint 64⟩] = r.layout ++ l ∧
        ∀ e ∈ l, r.fixedLayoutSize ≤ e.slot :=
  layout_extends (rfl : layout solana (fun _ => behindBools 1 (.uint 64)) [0, 1] none = some ⟨_, 48, []⟩) ⟨_, rfl⟩

/-- `bool a; string s;` -/
def flagAndString : Fin 1 → List Variable := fun _ => behindBools 1 .string

/-- The string is at 17. -/
theorem misaligned_string :
    ∃ r, layout solana flagAndString [0] none = some r ∧ ¬ Sound solana flagAndString [0] r := by
  refine ⟨⟨[⟨16, 0, 0, .bool⟩, ⟨17, 0, 1, .string⟩], 21, []⟩, rfl, fun h => ?_⟩
  obtain ⟨a, ha, hdvd⟩ := h.aligned rfl ⟨17, 0, 1, .string⟩ (by simp)
  obtain rfl : 4 = a := by simpa [storageAlign, storageLength, solana] using ha
  exact absurd hdvd (by decide)

end Sample

end Solang.Codegen.StorageLayout
