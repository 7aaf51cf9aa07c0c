import Solang.Emit.PolkadotLayout
import Solang.Emit.PolkadotStorageCorrect

/-!
# Deletes of every type

The slots of every type as a layout, and what it is that `storage_delete_slot` deletes: all that belongs
to the value, when the values behind a dynamic array, a mapping or an external function, which it does not
step over, have nothing in a slot.
-/

namespace Solang.Emit.Polkadot

open Sema.Storage

/-! ## Layouts of types -/

/-- The caller of the delete advances the slot by so much. -/
def Layout.step (a : Layout) (k : Nat) : Layout := { a with reach := a.reach + k }

/-- An array, from the outermost dimension on -/
def dimsLayout (elem : Layout) : List ArrayLength → Layout
  | [] => elem
  | .fixed d :: dims => (dimsLayout elem dims).times d
  | .dynamic :: dims => (dimsLayout elem dims).dynamic

section

variable (addressLength : Nat)

mutual

/-- The entries of a mapping are behind the hash of its slot, and do not belong to the value. -/
def layout : Ty → Layout
  | .array elem dims => dimsLayout ((layout elem).step (elemStep addressLength elem)) dims.reverse
  | .struct fields => fieldsLayout fields
  | .mapping => .mapping
  | _ => .leaf 0

def fieldsLayout : List Ty → Layout
  | [] => .nil
  | field :: fields => ((layout field).step (fieldStep addressLength field)).seq (fieldsLayout fields)

end

mutual

/-- The types of variables in storage: an array has a dimension, and none of length zero. -/
def storable : Ty → Bool
  | .array elem dims => storable elem && !dims.isEmpty && dims.all (· ≠ .fixed 0)
  | .struct fields => storableAll fields
  | _ => true

def storableAll : List Ty → Bool
  | [] => true
  | field :: fields => storable field && storableAll fields

end

mutual

/-- The types that are not loaded to memory -/
def hasMapping : Ty → Bool
  | .array elem _ => hasMapping elem
  | .struct fields => hasMappingAny fields
  | .mapping => true
  | _ => false

def hasMappingAny : List Ty → Bool
  | [] => false
  | field :: fields => hasMapping field || hasMappingAny fields

end

/-! ## Default values -/

/-- An array, from the outermost dimension on -/
def dimsDefault (elem : Val) : List ArrayLength → Val
  | [] => elem
  | .fixed d :: dims => .list (List.replicate d (dimsDefault elem dims))
  | .dynamic :: _ => .list []

mutual

def defaultVal : Ty → Val
  | .array elem dims => dimsDefault (defaultVal elem) dims.reverse
  | .struct fields => .list (fieldDefaults fields)
  | .string | .dynamicBytes => .bytes []
  | .externalFunction => .bytes (List.replicate (addressLength + 4) 0)
  | .address | .contract => .bytes (List.replicate addressLength 0)
  | _ => .int 0

def fieldDefaults : List Ty → List Val
  | [] => []
  | field :: fields => defaultVal field :: fieldDefaults fields

end

mutual

/-- The load of what is not there gets a value: there is no external function that is not in a dynamic
array, and user types are of integers. -/
def loadsDefault : Ty → Bool
  | .array elem dims => dims.any (· = .dynamic) || loadsDefault elem
  | .struct fields => loadsDefaults fields
  | .externalFunction => false
  | .userType ty => (intBits ty).isSome
  | _ => true

def loadsDefaults : List Ty → Bool
  | [] => true
  | field :: fields => loadsDefault field && loadsDefaults fields

end

/-- What belongs to the value is deleted, no other slot changes, and what is loaded is the default. -/
def DeletesValue (ty : Ty) (st : Storage) (slot : Slot) : Prop :=
  ∃ st' slot', storageDeleteSlot addressLength ty st slot = some (st', slot') ∧
    Deleted ((layout addressLength ty).owned st slot) st st' ∧
    (hasMapping ty = false →
      ∃ r, storageLoadSlot addressLength st' ty slot = some r ∧ r.val = defaultVal addressLength ty)

end

/-! ## The deletes are those of the layouts -/

/-- The layout is lawful, and the delete is that of values with it. -/
structure Layout.Describes (a : Layout) (d : Delete) : Prop where
  lawful : a.Lawful
  follows : a.Follows d
  tight : a.Tight d

/-- The delete and its caller -/
def Delete.step (d : Delete) (k : Nat) : Delete := fun st slot => do
  let (st, slot) ← d st slot
  some (st, slot.add k)

theorem Delete.step_zero (d : Delete) : d.step 0 = d := by
  funext st slot
  unfold Delete.step
  cases d st slot with
  | none => rfl
  | some r => simp

theorem deleteTimes_eq (d : Delete) (step n : Nat) : deleteTimes d step n = (d.step step).times n := by
  induction n with
  | zero => rfl
  | succ n ih =>
    funext st slot
    simp only [deleteTimes, Delete.times, Delete.andThen, Delete.step, ih]
    cases d st slot with
    | none => rfl
    | some r => rfl

/-- An array, from the outermost dimension on -/
def dimsDelete (d : Delete) : List ArrayLength → Delete
  | [] => d
  | .fixed n :: dims => (dimsDelete d dims).times n
  | .dynamic :: dims => (dimsDelete d dims).dynamic

theorem deleteArray_eq (d : Delete) (step : Nat) : (dims : List ArrayLength) → dims ≠ [] →
    (∀ dim ∈ dims, dim ≠ .fixed 0) → deleteArray d step dims = dimsDelete (d.step step) dims
  | [], hne, _ => absurd rfl hne
  | .fixed n :: dims, _, hpos => by
    have hn : max 1 n = n := by
      have hne : n ≠ 0 := fun h0 => hpos (.fixed n) List.mem_cons_self (h0 ▸ rfl)
      omega
    funext st slot
    unfold deleteArray dimsDelete
    rw [hn, deleteTimes_eq, deleteTimes_eq, Delete.step_zero]
    cases dims with
    | nil => rfl
    | cons dim dims =>
      rw [deleteArray_eq d step (dim :: dims) (List.cons_ne_nil _ _)
        fun x hx => hpos x (List.mem_cons_of_mem _ hx)]
      rfl
  | .dynamic :: dims, _, hpos => by
    funext st slot
    unfold deleteArray dimsDelete Delete.dynamic
    simp only [deleteTimes_eq, Delete.step_zero]
    cases dims with
    | nil => rfl
    | cons dim dims =>
      rw [deleteArray_eq d step (dim :: dims) (List.cons_ne_nil _ _)
        fun x hx => hpos x (List.mem_cons_of_mem _ hx)]
      rfl

namespace Layout

variable {a b : Layout} {d e : Delete}

theorem Describes.seq (ha : a.Describes d) (hb : b.Describes e) : (a.seq b).Describes (d.andThen e) where
  lawful := ha.lawful.seq hb.lawful
  follows := .seq ha.lawful hb.lawful ha.follows hb.follows
  tight := .seq ha.lawful hb.lawful ha.follows hb.follows ha.tight hb.tight

theorem Describes.times (ha : a.Describes d) (n : Nat) : (a.times n).Describes (d.times n) where
  lawful := ha.lawful.times n
  follows := ha.follows.times ha.lawful n
  tight := ha.tight.times ha.lawful ha.follows n

theorem Describes.dynamic (ha : a.Describes d) : a.dynamic.Describes d.dynamic where
  lawful := ha.lawful.dynamic
  follows := ha.follows.dynamic ha.lawful
  tight := ha.tight.dynamic ha.lawful ha.follows

theorem describes_leaf {reach : Nat} (h : reach ≤ 1) :
    (leaf reach).Describes fun st slot => some (st.set slot none, slot.add reach) where
  lawful := lawful_leaf h
  follows := follows_leaf reach
  tight := tight_leaf reach

theorem describes_mapping : mapping.Describes fun st slot => some (st, slot) where
  lawful := lawful_mapping
  follows := follows_mapping
  tight := .of_void lawful_mapping rfl

theorem describes_nil : nil.Describes fun st slot => some (st, slot) where
  lawful := lawful_nil
  follows := .nil
  tight := tight_nil

theorem Describes.step_zero (h : a.Describes d) : (a.step 0).Describes (d.step 0) := by
  rw [Delete.step_zero]
  exact h

theorem describes_dims (ha : a.Describes d) :
    (dims : List ArrayLength) → (dimsLayout a dims).Describes (dimsDelete d dims)
  | [] => ha
  | .fixed n :: dims => (describes_dims ha dims).times n
  | .dynamic :: dims => (describes_dims ha dims).dynamic

end Layout

section

variable {addressLength : Nat}

/-- The caller adds nothing, or the slot of a value that is in one slot. -/
theorem elemStep_cases (ty : Ty) : elemStep addressLength ty = 0 ∨ elemStep addressLength ty = 1 ∧
    layout addressLength ty = .leaf 0 ∧
    storageDeleteSlot addressLength ty = fun st slot => some (st.set slot none, slot) := by
  cases ty with
  | array | struct | dynamicBytes | string | mapping | externalFunction => exact .inl rfl
  | userType ty =>
    unfold elemStep
    cases isReferenceType (.userType ty) with
    | true => exact .inl rfl
    | false => exact .inr ⟨rfl, rfl, rfl⟩
  | _ => exact .inr ⟨rfl, rfl, rfl⟩

theorem fieldStep_cases (ty : Ty) : fieldStep addressLength ty = 0 ∨ fieldStep addressLength ty = 1 ∧
    layout addressLength ty = .leaf 0 ∧
    storageDeleteSlot addressLength ty = fun st slot => some (st.set slot none, slot) := by
  cases hstring : isString ty with
  | true =>
    cases ty with
    | string | dynamicBytes => exact .inr ⟨rfl, rfl, rfl⟩
    | _ => cases hstring
  | false =>
    have hstep : fieldStep addressLength ty = elemStep addressLength ty := by
      unfold fieldStep elemStep
      rw [hstring]
      cases isReferenceType ty <;> rfl
    rw [hstep]
    exact elemStep_cases ty

variable {ty : Ty} {st : Storage} {slot : Slot}

/-- The delete of a value with what its caller adds -/
theorem describes_step {k : Nat}
    (h : (layout addressLength ty).Describes (storageDeleteSlot addressLength ty))
    (hk : k = 0 ∨ k = 1 ∧ layout addressLength ty = .leaf 0 ∧
      storageDeleteSlot addressLength ty = fun st slot => some (st.set slot none, slot)) :
    ((layout addressLength ty).step k).Describes (Delete.step (storageDeleteSlot addressLength ty) k) := by
  rcases hk with rfl | ⟨rfl, hlayout, hdelete⟩
  · exact h.step_zero
  · rw [hlayout, hdelete]
    exact Layout.describes_leaf le_rfl

mutual

theorem describes_ty : (ty : Ty) → storable ty = true →
    (layout addressLength ty).Describes (storageDeleteSlot addressLength ty)
  | .array elem dims, h => by
    simp only [storable, Bool.and_eq_true, Bool.not_eq_true', List.isEmpty_eq_false_iff, List.all_eq_true,
      decide_eq_true_eq] at h
    obtain ⟨⟨helem, hne⟩, hpos⟩ := h
    have hdelete : storageDeleteSlot addressLength (.array elem dims) =
        dimsDelete (Delete.step (storageDeleteSlot addressLength elem) (elemStep addressLength elem))
          dims.reverse := by
      rw [← deleteArray_eq _ _ dims.reverse (by simpa using hne)
        fun dim hdim => hpos dim (List.mem_reverse.mp hdim)]
      funext st slot
      simp only [storageDeleteSlot]
    rw [hdelete, layout]
    exact Layout.describes_dims (describes_step (describes_ty elem helem) (elemStep_cases elem)) dims.reverse
  | .struct fields, h => by
    have hdelete : storageDeleteSlot addressLength (.struct fields) = deleteFields addressLength fields := by
      funext st slot
      simp only [storageDeleteSlot]
    rw [hdelete, layout]
    exact describes_fields fields h
  | .mapping, _ => Layout.describes_mapping
  | .bool, _ | .address, _ | .contract, _ | .enum, _ | .int _, _ | .uint _, _ | .bytes _, _
  | .dynamicBytes, _ | .string, _ | .internalFunction, _ | .externalFunction, _ | .userType _, _ => by
    have hleaf := Layout.describes_leaf (Nat.zero_le 1)
    simp only [Slot.add_zero] at hleaf
    exact hleaf

theorem describes_fields : (fields : List Ty) → storableAll fields = true →
    (fieldsLayout addressLength fields).Describes (deleteFields addressLength fields)
  | [], _ => Layout.describes_nil
  | field :: fields, h => by
    obtain ⟨hfield, hfields⟩ := Bool.and_eq_true_iff.mp h
    have hdelete : deleteFields addressLength (field :: fields) =
        Delete.andThen (Delete.step (storageDeleteSlot addressLength field) (fieldStep addressLength field))
          (deleteFields addressLength fields) := by
      funext st slot
      simp only [deleteFields, Delete.andThen, Delete.step]
      cases storageDeleteSlot addressLength field st slot with
      | none => rfl
      | some r => rfl
    rw [hdelete, fieldsLayout]
    exact (describes_step (describes_ty field hfield) (fieldStep_cases field)).seq
      (describes_fields fields hfields)

end

/-! ## Slots of layouts -/

theorem slots_dimsLayout (elem : Layout) (dims : List ArrayLength) :
    (dimsLayout elem dims).slots = dimsSlots elem.slots dims := by
  induction dims with
  | nil => rfl
  | cons dim dims ih =>
    cases dim with
    | fixed d => rw [dimsLayout, Layout.slots_times, ih, dimsSlots]
    | dynamic => rfl

mutual

theorem layout_slots : (ty : Ty) → (layout addressLength ty).slots = slots addressLength ty
  | .array elem dims => by
    rw [layout, slots_dimsLayout, slots_array, ← layout_slots elem]
    rfl
  | .struct fields => by
    rw [layout, slots_struct]
    exact fieldsLayout_slots fields
  | .mapping | .bool | .address | .contract | .enum | .int _ | .uint _ | .bytes _ | .dynamicBytes | .string
  | .internalFunction | .externalFunction | .userType _ => rfl

theorem fieldsLayout_slots : (fields : List Ty) →
    (fieldsLayout addressLength fields).slots = fieldSlots addressLength fields
  | [] => rfl
  | field :: fields => by
    rw [fieldsLayout, fieldSlots, ← layout_slots field, ← fieldsLayout_slots fields]
    rfl

end

theorem covers_dims {elem : Layout} (h : elem.Covers) :
    (dims : List ArrayLength) → (dimsLayout elem dims).Covers
  | [] => h
  | .fixed d :: dims => (covers_dims h dims).times d
  | .dynamic :: dims => Layout.covers_dynamic (dimsLayout elem dims)

mutual

/-- But for mappings all slots belong to the value. -/
theorem covers_layout : (ty : Ty) → hasMapping ty = false → (layout addressLength ty).Covers
  | .array elem dims, h => by
    have helem : ((layout addressLength elem).step (elemStep addressLength elem)).Covers :=
      covers_layout elem h
    rw [layout]
    exact covers_dims helem dims.reverse
  | .struct fields, h => by
    rw [layout]
    exact covers_fields fields h
  | .bool, _ | .address, _ | .contract, _ | .enum, _ | .int _, _ | .uint _, _ | .bytes _, _
  | .dynamicBytes, _ | .string, _ | .internalFunction, _ | .externalFunction, _ | .userType _, _ =>
    Layout.covers_leaf 0

theorem covers_fields : (fields : List Ty) → hasMappingAny fields = false →
    (fieldsLayout addressLength fields).Covers
  | [], _ => fun _ _ i hi => absurd hi (Nat.not_lt_zero i)
  | field :: fields, h => by
    obtain ⟨hfield, hfields⟩ := Bool.or_eq_false_iff.mp h
    have hfirst : ((layout addressLength field).step (fieldStep addressLength field)).Covers :=
      covers_layout field hfield
    rw [fieldsLayout]
    exact hfirst.seq (covers_fields fields hfields)

end

/-! ## Loads of what is not there -/

/-- Nothing is in `n` slots. -/
def Absent (st : Storage) (slot : Slot) (n : Nat) : Prop := ∀ i < n, st (slot.add i) = none

theorem Absent.behind {n k m : Nat} (h : Absent st slot n) (hle : k + m ≤ n) :
    Absent st (slot.add k) m := by
  intro i hi
  rw [Slot.add_add]
  exact h (k + i) (by omega)

/-- What is loaded is the default and the slot stays within `n` slots, or there is no value. -/
def Loads {α : Type} (ok : Bool) (v : α) (n : Nat) (slot : Slot) (r : Option (Loaded α)) : Prop :=
  if ok then ∃ k visited, r = some ⟨v, slot.add k, visited⟩ ∧ k ≤ n else r = none

theorem loadTimes_absent {load : Slot → Option (Loaded Val)} {ok : Bool} {v : Val} {n : Nat}
    (hload : ∀ slot, Absent st slot n → Loads ok v n slot (load slot)) (count : Nat) {m : Nat}
    (h : Absent st slot m) (hm : count * n ≤ m) (hok : ok = true ∨ 0 < count) :
    Loads ok (List.replicate count v) (count * n) slot (loadTimes load count slot) := by
  cases ok with
  | false =>
    obtain ⟨count, rfl⟩ := Nat.exists_eq_succ_of_ne_zero (hok.resolve_left Bool.false_ne_true).ne'
    rw [Nat.succ_mul] at hm
    have hnone : load slot = none := by
      have hfirst := hload slot fun i hi => h i (by omega)
      exact hfirst
    show loadTimes load (count + 1) slot = none
    rw [loadTimes, hnone]
    rfl
  | true =>
    suffices ∀ j, Absent st (slot.add j) (count * n) → ∃ k visited,
        loadTimes load count (slot.add j) = some ⟨List.replicate count v, (slot.add j).add k, visited⟩ ∧
          k ≤ count * n by
      have h0 := this 0 (by rw [Slot.add_zero]; exact fun i hi => h i (by omega))
      rw [Slot.add_zero] at h0
      exact h0
    clear h hm hok
    induction count with
    | zero => exact fun j _ => ⟨0, [], by rw [Slot.add_zero]; rfl, Nat.zero_le _⟩
    | succ count ih =>
      intro j hj
      rw [Nat.succ_mul] at hj ⊢
      obtain ⟨k, visited, hfirst, hk⟩ := hload (slot.add j) fun i hi => hj i (by omega)
      have hnext : Absent st (slot.add (j + k)) (count * n) := by
        rw [← Slot.add_add]
        exact hj.behind (by omega)
      obtain ⟨k', visited', hrest, hk'⟩ := ih (j + k) hnext
      refine ⟨k + k', visited ++ visited', ?_, by omega⟩
      rw [loadTimes, hfirst]
      simp only [Option.bind_eq_bind, Option.bind_some]
      rw [Slot.add_add, hrest]
      simp [List.replicate_succ, Nat.add_assoc]

theorem Loads.list {ok : Bool} {vs : List Val} {n : Nat} {slot : Slot} {r : Option (Loaded (List Val))}
    (h : Loads ok vs n slot r) :
    Loads ok (.list vs) n slot (r.map fun rs => (⟨.list rs.val, rs.slot, rs.visited⟩ : Loaded Val)) := by
  cases ok with
  | false => exact congrArg (Option.map _) h
  | true =>
    obtain ⟨k, visited, rfl, hk⟩ := h
    exact ⟨k, visited, rfl, hk⟩

theorem getStorageInt_absent (h : st slot = none) (bits : Nat) :
    getStorageInt st slot bits = some 0 := by
  unfold getStorageInt Storage.get
  rw [h]
  rfl

theorem loadArray_absent {st : Storage} {load : Slot → Option (Loaded Val)} {ok : Bool} {v : Val} {n : Nat}
    (hload : ∀ slot, Absent st slot n → Loads ok v n slot (load slot)) : (dims : List ArrayLength) →
    dims ≠ [] → (∀ dim ∈ dims, dim ≠ .fixed 0) → ∀ slot, Absent st slot (dimsSlots n dims) →
    Loads (dims.any (· = .dynamic) || ok) (dimsDefault v dims) (dimsSlots n dims) slot
      (loadArray st load dims slot)
  | [], hne, _, _, _ => absurd rfl hne
  | .fixed d :: dims, _, hpos, slot, h => by
    have hd : 0 < d := Nat.pos_of_ne_zero fun h0 => hpos (.fixed d) List.mem_cons_self (h0 ▸ rfl)
    have hmax : max 1 d = d := by omega
    have hrow : ∀ slot, Absent st slot (dimsSlots n dims) →
        Loads (dims.any (· = .dynamic) || ok) (dimsDefault v dims) (dimsSlots n dims) slot
          ((if dims.isEmpty then load else loadArray st load dims) slot) := by
      cases dims with
      | nil => exact hload
      | cons dim dims =>
        exact loadArray_absent hload (dim :: dims) (List.cons_ne_nil _ _)
          fun x hx => hpos x (List.mem_cons_of_mem _ hx)
    have hloop := (loadTimes_absent hrow d h le_rfl (.inr hd)).list
    rw [loadArray, hmax]
    simpa [dimsDefault, dimsSlots, Option.map_eq_bind, Function.comp_def] using hloop
  | .dynamic :: dims, _, _, slot, h => by
    have hzero := getStorageInt_absent (by simpa using h 0 Nat.zero_lt_one) 256
    refine ⟨1, [slot], ?_, le_rfl⟩
    rw [loadArray, hzero]
    rfl

mutual

/-- The load of a value of which nothing is there -/
theorem load_absent {st : Storage} : (ty : Ty) → storable ty = true → hasMapping ty = false → ∀ slot,
    Absent st slot (slots addressLength ty) →
    Loads (loadsDefault ty) (defaultVal addressLength ty) (slots addressLength ty) slot
      (storageLoadSlot addressLength st ty slot)
  | .array elem dims, hty, hmap, slot, h => by
    simp only [storable, Bool.and_eq_true, Bool.not_eq_true', List.isEmpty_eq_false_iff, List.all_eq_true,
      decide_eq_true_eq] at hty
    obtain ⟨⟨helem, hne⟩, hpos⟩ := hty
    rw [slots_array] at h ⊢
    rw [storageLoadSlot, defaultVal, loadsDefault, ← List.any_reverse]
    exact loadArray_absent (load_absent elem helem hmap) dims.reverse (by simpa using hne)
      (fun dim hdim => hpos dim (List.mem_reverse.mp hdim)) slot h
  | .struct fields, hty, hmap, slot, h => by
    rw [slots_struct] at h ⊢
    have hfields := (loadFields_absent fields hty hmap slot h).list
    rw [storageLoadSlot, defaultVal, loadsDefault]
    simpa [Option.map_eq_bind, Function.comp_def] using hfields
  | .mapping, _, hmap, _, _ => by cases hmap
  | .string, _, _, slot, h | .dynamicBytes, _, _, slot, h | .address, _, _, slot, h
  | .contract, _, _, slot, h => by
    have hnone : st slot = none := by simpa using h 0 Nat.zero_lt_one
    refine ⟨1, [slot], ?_, le_rfl⟩
    simp [storageLoadSlot, loadLeaf, Storage.get, hnone, defaultVal]
  | .externalFunction, _, _, slot, h => by
    have hnone : st slot = none := by simpa using h 0 Nat.zero_lt_one
    show storageLoadSlot addressLength st .externalFunction slot = none
    simp [storageLoadSlot, loadLeaf, Storage.get, hnone]
  | .internalFunction, _, _, slot, h => by
    have hnone : st slot = none := by simpa using h 0 Nat.zero_lt_one
    refine ⟨0, [slot], ?_, Nat.zero_le _⟩
    simp [storageLoadSlot, loadLeaf, getStorageInt_absent hnone, defaultVal]
  | .bool, _, _, slot, h | .enum, _, _, slot, h | .int _, _, _, slot, h | .uint _, _, _, slot, h
  | .bytes _, _, _, slot, h => by
    have hnone : st slot = none := by simpa using h 0 Nat.zero_lt_one
    refine ⟨1, [slot], ?_, le_rfl⟩
    simp [storageLoadSlot, loadLeaf, getStorageInt_absent hnone, intBits, defaultVal]
  | .userType ty, _, _, slot, h => by
    have hnone : st slot = none := by simpa using h 0 Nat.zero_lt_one
    cases hbits : intBits ty with
    | none => simp [Loads, storageLoadSlot, loadsDefault, loadLeaf, intBits, hbits]
    | some bits =>
      have hload : storageLoadSlot addressLength st (.userType ty) slot =
          some ⟨.int 0, slot.add 1, [slot]⟩ := by
        simp [storageLoadSlot, loadLeaf, getStorageInt_absent hnone, intBits, hbits]
      simp only [Loads, loadsDefault, defaultVal, hbits, hload]
      exact ⟨1, [slot], rfl, le_rfl⟩

theorem loadFields_absent {st : Storage} : (fields : List Ty) → storableAll fields = true →
    hasMappingAny fields = false → ∀ slot, Absent st slot (fieldSlots addressLength fields) →
    Loads (loadsDefaults fields) (fieldDefaults addressLength fields) (fieldSlots addressLength fields) slot
      (loadFields addressLength st fields slot)
  | [], _, _, slot, _ => ⟨0, [], by rw [Slot.add_zero]; rfl, le_rfl⟩
  | field :: fields, hty, hmap, slot, h => by
    obtain ⟨hfield, hfields⟩ := Bool.and_eq_true_iff.mp hty
    obtain ⟨hmapField, hmapFields⟩ := Bool.or_eq_false_iff.mp hmap
    rw [fieldSlots] at h ⊢
    have hfirst := load_absent field hfield hmapField slot fun i hi => h i (by omega)
    rw [loadFields, loadsDefaults, fieldDefaults]
    cases hok : loadsDefault field with
    | false =>
      rw [hok] at hfirst
      have hnone : storageLoadSlot addressLength st field slot = none := hfirst
      rw [hnone]
      rfl
    | true =>
      rw [hok] at hfirst
      obtain ⟨k, visited, hload, hk⟩ := hfirst
      have hrest := loadFields_absent fields hfields hmapFields (slot.add k) (h.behind (by omega))
      rw [hload, Bool.true_and]
      simp only [Option.bind_eq_bind, Option.bind_some]
      cases hoks : loadsDefaults fields with
      | false =>
        rw [hoks] at hrest
        have hnone : loadFields addressLength st fields (slot.add k) = none := hrest
        rw [hnone]
        rfl
      | true =>
        rw [hoks] at hrest
        obtain ⟨k', visited', hloads, hk'⟩ := hrest
        refine ⟨k + k', visited ++ visited', ?_, by omega⟩
        rw [hloads, Slot.add_add]
        rfl

end

/-! ## The deletes that are right -/

theorem absent_of_deleted {st' : Storage} (hmap : hasMapping ty = false)
    (h : Deleted ((layout addressLength ty).owned st slot) st st') :
    Absent st' slot (slots addressLength ty) := by
  intro i hi
  rw [← layout_slots] at hi
  exact (h _).1 (covers_layout ty hmap st slot i hi)

theorem deletesValue_of_deletes (hty : storable ty = true)
    (hdeletes : (layout addressLength ty).deletes = true)
    (hloads : hasMapping ty = true ∨ loadsDefault ty = true)
    (hs : (layout addressLength ty).sized st slot) :
    DeletesValue addressLength ty st slot := by
  obtain ⟨st', hdelete, hdeleted⟩ := (describes_ty ty hty).follows.exact hdeletes st slot hs
  refine ⟨st', _, hdelete, hdeleted, fun hmap => ?_⟩
  have hload := load_absent ty hty hmap slot (absent_of_deleted hmap hdeleted)
  rw [hloads.resolve_left (by rw [hmap]; exact Bool.false_ne_true)] at hload
  obtain ⟨k, visited, hval, -⟩ := hload
  exact ⟨_, hval, rfl⟩

/-- The delete of a type that is right wherever the lengths can be read -/
theorem deletes_of_full (hty : storable ty = true)
    (h : ∀ st slot, (layout addressLength ty).sized st slot → DeletesValue addressLength ty st slot) :
    (layout addressLength ty).deletes = true := by
  have hu : Uniform fun _ => some (toBytes 32 2) := fun _ => .inr rfl
  have hdescribes : (layout addressLength ty).Describes (storageDeleteSlot addressLength ty) :=
    describes_ty ty hty
  obtain ⟨st', slot', hdelete, hdeleted, -⟩ :=
    h _ (.num 0) (hdescribes.lawful.sized_of_read hu.length (.num 0))
  exact hdescribes.tight.needed _ _ st' slot' hu (fun _ _ => rfl) hdelete fun x _ => hdeleted x

/-- What is loaded where nothing was -/
theorem loads_of_empty (hty : storable ty = true) (hmap : hasMapping ty = false)
    (h : ∀ st slot, (layout addressLength ty).sized st slot → DeletesValue addressLength ty st slot) :
    loadsDefault ty = true := by
  have hlengths : ∀ slot, ∃ length, getStorageInt (fun _ => none) slot 256 = some length :=
    fun slot => ⟨0, getStorageInt_absent rfl 256⟩
  obtain ⟨st', slot', hdelete, hdeleted, hload⟩ :=
    h _ (.num 0) ((describes_ty ty hty).lawful.sized_of_read hlengths (.num 0))
  obtain ⟨r, hr, -⟩ := hload hmap
  by_contra hfalse
  have hnone := load_absent ty hty hmap (.num 0) (absent_of_deleted hmap hdeleted)
  rw [Bool.eq_false_iff.mpr hfalse] at hnone
  exact Option.some_ne_none r (hr.symm.trans hnone)

end

/-- A delete is right for every storage exactly when what the slot is not advanced over is the last that is
in a slot, and, for a type that is loaded, what is not there has a value. -/
theorem delete_storage_iff (addressLength : Nat) (ty : Ty) (hty : storable ty = true) :
    (∀ st slot, (layout addressLength ty).sized st slot → DeletesValue addressLength ty st slot) ↔
      (layout addressLength ty).deletes = true ∧ (hasMapping ty = true ∨ loadsDefault ty = true) := by
  constructor
  · intro h
    refine ⟨deletes_of_full hty h, ?_⟩
    cases hmap : hasMapping ty with
    | true => exact .inl rfl
    | false => exact .inr (loads_of_empty hty hmap h)
  · rintro ⟨hdeletes, hloads⟩ st slot hs
    exact deletesValue_of_deletes hty hdeletes hloads hs

namespace Sample

theorem delete_storage_iff_record :
    (∀ st slot, (layout 32 record).sized st slot → DeletesValue 32 record st slot) ↔
      (layout 32 record).deletes = true ∧ (hasMapping record = true ∨ loadsDefault record = true) :=
  delete_storage_iff 32 record (by decide)

/-- `struct { uint8[] xs; uint8 y; }` -/
def behindArray : Ty := .struct [.array (.uint 8) [.dynamic], .uint 8]

/-- No element, and `y` is 7. -/
def yOnly : Storage := fun slot => if slot = .num 1 then some [7] else none

/-- The length is deleted once more in place of `y`. -/
theorem behind_array_not_deleted :
    ¬ ((layout 32 behindArray).sized yOnly (.num 0) → DeletesValue 32 behindArray yOnly (.num 0)) := by
  intro h
  have hsized : (layout 32 behindArray).sized yOnly (.num 0) :=
    ⟨⟨0, by decide +kernel, trivial⟩, trivial, trivial⟩
  obtain ⟨st', slot', hdelete, hdeleted, -⟩ := h hsized
  have hgone : st' (.num 1) = none := (hdeleted (.num 1)).1 (.inr (.inl rfl))
  have hkept : ((storageDeleteSlot 32 behindArray yOnly (.num 0)).map fun r => r.1 (.num 1)) =
      some (some [7]) := by
    decide +kernel
  rw [hdelete, Option.map_some] at hkept
  have hval : st' (.num 1) = some [7] := Option.some.inj hkept
  rw [hgone] at hval
  cases hval

end Sample

end Solang.Emit.Polkadot
