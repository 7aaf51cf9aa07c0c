import Solang.Emit.PolkadotSlots

/-!
# Loads of what was stored
-/

namespace Solang.Emit.Polkadot

open Sema.Storage

variable {addressLength : Nat}

/-! ## Slots of types -/

section Slots

/-- The slots of the fields -/
def fieldSlots (addressLength : Nat) : List Ty → Nat
  | [] => 0
  | field :: fields => slots addressLength field + fieldSlots addressLength fields

theorem outerSize_mul (n : Nat) {dims : List ArrayLength} (h : .dynamic ∈ dims) :
    outerSize dims = dimsSlots n dims := by
  induction dims with
  | nil => cases h
  | cons dim dims ih =>
    cases dim with
    | dynamic => rfl
    | fixed d =>
      simp only [outerSize, dimsSlots]
      rw [ih (by simpa using h)]

theorem mul_product (n : Nat) {dims : List ArrayLength} (h : .dynamic ∉ dims) :
    n * product 1 dims = dimsSlots n dims := by
  induction dims with
  | nil => simp [product, dimsSlots]
  | cons dim dims ih =>
    cases dim with
    | dynamic => simp at h
    | fixed d =>
      have ih := ih (by simpa using h)
      simp only [product, List.map_cons, List.prod_cons, dimsSlots] at ih ⊢
      rw [← ih]
      ring

theorem product_reverse (dims : List ArrayLength) : product 1 dims.reverse = product 1 dims := by
  unfold product
  rw [List.map_reverse]
  exact List.prod_reverse _

mutual

theorem storageSlots_eq : (ty : Ty) →
    storageSlots ⟨false, addressLength⟩ ty = some (slots addressLength ty)
  | .array elem dims => by
    have ih := storageSlots_eq elem
    unfold slots
    simp only [storageSlots, Bool.false_eq_true, if_false, ih]
    split <;> rfl
  | .struct fields => by
    have ih := fieldSizes_eq fields
    unfold slots
    simp only [storageSlots, Bool.false_eq_true, if_false, ih]
    rfl
  | .bool | .address | .contract | .enum | .int _ | .uint _ | .bytes _ | .dynamicBytes | .string
  | .mapping | .internalFunction | .externalFunction | .userType _ => by
    simp only [slots, storageSlots, Bool.false_eq_true, if_false, Option.getD_some]

theorem fieldSizes_eq : (fields : List Ty) →
    fieldSizes ⟨false, addressLength⟩ fields =
      some (fields.map fun field => (1, slots addressLength field))
  | [] => rfl
  | field :: fields => by
    simp only [fieldSizes, storageSlots_eq field, fieldSizes_eq fields]
    rfl

end

theorem slots_array (elem : Ty) (dims : List ArrayLength) :
    slots addressLength (.array elem dims) =
      dimsSlots (slots addressLength elem) dims.reverse := by
  have h := @storageSlots_eq addressLength (.array elem dims)
  simp only [storageSlots, storageSlots_eq elem, Bool.false_eq_true, if_false] at h
  split at h
  next hmem =>
    simp only [Option.some.injEq, dynamicArraySize] at h
    rw [← h]
    exact outerSize_mul _ (List.mem_reverse.mpr hmem)
  next hmem =>
    have h : slots addressLength elem * product 1 dims = slots addressLength (.array elem dims) := by
      simpa using h
    rw [← h, ← product_reverse]
    exact mul_product _ (fun hm => hmem (List.mem_reverse.mp hm))

theorem sum_slots (fields : List Ty) :
    ((fields.map fun field => (1, slots addressLength field)).map (·.2)).sum =
      fieldSlots addressLength fields := by
  induction fields with
  | nil => rfl
  | cons field fields ih =>
    simp only [List.map_cons, List.sum_cons, fieldSlots]
    rw [ih]

theorem slots_struct (fields : List Ty) :
    slots addressLength (.struct fields) = fieldSlots addressLength fields := by
  have h := @storageSlots_eq addressLength (.struct fields)
  simp only [storageSlots, fieldSizes_eq fields, Bool.false_eq_true, if_false] at h
  rw [← sum_slots]
  exact (Option.some.inj h).symm

end Slots

/-! ## Integers -/

theorem length_toBytes (size n : Nat) : (toBytes size n).length = size := by
  induction size generalizing n with
  | zero => rfl
  | succ size ih => simp [toBytes, ih]

theorem ofBytes_toBytes (size n : Nat) : ofBytes (toBytes size n) = n % 256 ^ size := by
  induction size generalizing n with
  | zero => simp [toBytes, ofBytes, Nat.mod_one]
  | succ size ih =>
    have hbyte : (UInt8.ofNat n).toNat = n % 256 := UInt8.toNat_ofNat'
    simp only [toBytes, ofBytes, ih, hbyte]
    rw [pow_succ, Nat.mul_comm (256 ^ size), Nat.mod_mul]

theorem le_sizeOf (bits : Nat) : bits ≤ 8 * sizeOf bits := by
  unfold sizeOf
  simp only
  split
  · omega
  · split
    · omega
    · split <;> omega

variable {bits n step : Nat} {st : Storage} {slot : Slot} {data : List UInt8}
  {load : Storage → Slot → Option (Loaded Val)} {v : Val} {ty : Ty} {inside : Bool}
  {arrays : Val → Slot → List ArrayAt} {dims : List ArrayLength}
  {delete : Storage → Slot → Option (Storage × Slot)} {ws : List Val}

theorem lt_sizeOf (h : n < 2 ^ bits) : n < 256 ^ sizeOf bits := by
  have hpow : 256 ^ sizeOf bits = 2 ^ (8 * sizeOf bits) := by
    rw [Nat.pow_mul]
  rw [hpow]
  exact h.trans_le (Nat.pow_le_pow_right (by omega) (le_sizeOf bits))

variable {size d : Nat} {vs : List Val} {store : Val → Storage → Slot → Option Stored}
  {inStep : Prop}

theorem get_eq (h : st slot = some data) (hle : data.length ≤ size) :
    st.get slot size = some (some data) := by
  unfold Storage.get
  rw [h]
  exact if_pos hle

theorem getStorageInt_eq (h : st slot = some (toBytes (sizeOf bits) n)) (hn : n < 2 ^ bits) :
    getStorageInt st slot bits = some n := by
  unfold getStorageInt
  rw [get_eq h (length_toBytes _ _).le]
  show some (ofBytes (toBytes (sizeOf bits) n) % 2 ^ bits) = some n
  rw [ofBytes_toBytes, Nat.mod_eq_of_lt (lt_sizeOf hn), Nat.mod_eq_of_lt hn]

theorem set_self (st : Storage) (slot : Slot) (data : Option (List UInt8)) :
    st.set slot data slot = data := if_pos rfl

theorem set_of_ne {x : Slot} {data : Option (List UInt8)} (h : x ≠ slot) :
    st.set slot data x = st x := if_neg h

/-! ## One slot -/

theorem placed_one {data : Option (List UInt8)}
    (hload : ∀ st', st' slot = data → load st' slot = some ⟨v, slot.add 1, [slot]⟩) :
    Placed load v 1 [] st slot (setSlot st slot data) where
  loads st' hst' := by
    refine hload st' ?_
    have hself : slot.Under 1 slot := by simpa using Slot.under_add slot Nat.zero_lt_one
    rw [hst' slot hself]
    exact set_self st slot data
  under x hx := by
    cases List.mem_singleton.mp hx
    simpa using Slot.under_add slot Nat.zero_lt_one
  within := nofun
  direct := by simp [setSlot, Slot.direct_self]
  frame x hx _ := set_of_ne fun heq => hx (List.mem_singleton.mpr heq)
  gone := by
    rintro x ⟨a, ha, -⟩
    cases ha

/-- The types that are in one slot -/
def isLeaf : Ty → Bool
  | .struct _ | .array .. => false
  | _ => true

/-- Integers of any type -/
theorem placed_int (hbits : intBits ty = some bits) (hn : n < 2 ^ bits) (st : Storage) (slot : Slot) :
    Placed (fun st slot => do
      let bits ← intBits ty
      let n ← getStorageInt st slot bits
      some (⟨.int n, slot.add 1, [slot]⟩ : Loaded Val)) (.int n) 1 [] st slot
      (setSlot st slot (some (toBytes (sizeOf bits) n))) := by
  refine placed_one fun st' hst' => ?_
  show (intBits ty).bind _ = _
  rw [hbits]
  show (getStorageInt st' slot bits).bind _ = _
  rw [getStorageInt_eq hst' hn]
  rfl

/-- Addresses and external functions -/
theorem placed_bytes (hlen : data.length ≤ size) (st : Storage) (slot : Slot)
    (hload : ∀ st', st'.get slot size = some (some data) →
      load st' slot = some ⟨.bytes data, slot.add 1, [slot]⟩) :
    Placed load (.bytes data) 1 [] st slot (setSlot st slot (some data)) :=
  placed_one fun st' hst' => hload st' (get_eq hst' hlen)

/-- Strings; there is none for the empty one. -/
theorem placed_string (hty : isString ty = true) (hlen : data.length ≤ scratchSize) (st : Storage)
    (slot : Slot) :
    Placed (fun st slot => loadLeaf addressLength st ty slot) (.bytes data) 1 [] st slot
      (setSlot st slot (if data.isEmpty then none else some data)) := by
  refine placed_one fun st' hst' => ?_
  have hget : (st'.get slot scratchSize).map (·.getD []) = some data := by
    cases data with
    | nil =>
      have hnone : st' slot = none := hst'
      unfold Storage.get
      rw [hnone]
      rfl
    | cons b data =>
      rw [get_eq (show st' slot = some (b :: data) from hst') hlen]
      rfl
  obtain ⟨r, hr, hrd⟩ := Option.map_eq_some_iff.mp hget
  cases ty with
  | string | dynamicBytes =>
    simp only [loadLeaf, hr, ← hrd]
    rfl
  | _ => cases hty

/-- What a store of a value is to do: where the type steps, the slot is behind it. -/
def Stores (addressLength : Nat) (ty : Ty) (inside : Bool) (v : Val)
    (st : Storage) (slot : Slot) : Prop :=
  ∃ r, storageStoreSlot addressLength ty inside v st slot = some r ∧
    Placed (fun st slot => storageLoadSlot addressLength st ty slot) v (slots addressLength ty)
      (arraysOf addressLength ty v slot) st slot r ∧
    (steps ty = true → r.slot.add (elemStep addressLength ty) = slot.add (slots addressLength ty)) ∧
    (isString ty = true → r.slot = slot)

/-- A value that is set in its slot -/
theorem stores_set {data : Option (List UInt8)}
    (hstore : storageStoreSlot addressLength ty inside v st slot =
      some (setSlot st slot data)) (hslots : slots addressLength ty = 1)
    (harrays : arraysOf addressLength ty v slot = [])
    (hplaced : Placed (fun st slot => storageLoadSlot addressLength st ty slot) v 1 [] st slot
      (setSlot st slot data)) (hsteps : steps ty = true → isReferenceType ty = false) :
    Stores addressLength ty inside v st slot := by
  refine ⟨_, hstore, ?_, fun hs => ?_, fun _ => rfl⟩
  · rw [hslots, harrays]
    exact hplaced
  · show slot.add (elemStep addressLength ty) = _
    unfold elemStep
    rw [hsteps hs]
    rfl

theorem stores_int (hbits : intBits ty = some bits) (hn : n < 2 ^ bits)
    (hstore : storageStoreSlot addressLength ty inside (.int n) st slot = do
      let bits ← intBits ty
      some (setSlot st slot (some (toBytes (sizeOf bits) n))))
    (hload : ∀ st slot, storageLoadSlot addressLength st ty slot = do
      let bits ← intBits ty
      let n ← getStorageInt st slot bits
      some ⟨.int n, slot.add 1, [slot]⟩) (hslots : slots addressLength ty = 1)
    (harrays : arraysOf addressLength ty (.int n) slot = [])
    (hsteps : steps ty = true → isReferenceType ty = false) :
    Stores addressLength ty inside (.int n) st slot := by
  rw [hbits] at hstore
  refine stores_set hstore hslots harrays ?_ hsteps
  simp only [hload]
  exact placed_int hbits hn st slot

/-- The values of a type of integers -/
theorem leafOk_int {limit bits : Nat} {v : Val} : (ty : Ty) → intBits ty = some bits →
    isReferenceType ty = false → LeafOk addressLength limit ty v → ∃ n, v = .int n ∧ n < 2 ^ bits
  | .userType ty, hbits, href, hv => leafOk_int ty hbits href hv
  | .bool, hbits, _, hv | .enum, hbits, _, hv | .int _, hbits, _, hv | .uint _, hbits, _, hv
  | .bytes _, hbits, _, hv => by
    cases v with
    | int n =>
      obtain ⟨bits', hbits', hn⟩ := hv
      cases hbits.symm.trans hbits'
      exact ⟨n, rfl, hn⟩
    | bytes | list => cases hv
  | .mapping, _, href, _ => by cases href

/-- The types that are in one slot -/
theorem stores_leaf (hleaf : isLeaf ty = true) (hgood : good ty = true)
    (hv : LeafOk addressLength (scratchSize + 1) ty v) :
    Stores addressLength ty inside v st slot := by
  cases ty with
  | array | struct => cases hleaf
  | mapping | internalFunction => cases hgood
  | string | dynamicBytes =>
    cases v with
    | bytes data =>
      have hlen : data.length ≤ scratchSize := Nat.le_of_lt_succ hv
      exact stores_set rfl rfl rfl (placed_string rfl hlen st slot) nofun
    | int | list => simp [LeafOk, intBits] at hv
  | externalFunction =>
    cases v with
    | bytes data =>
      have hlen : data.length = addressLength + 4 := hv
      refine stores_set rfl rfl rfl (placed_bytes hlen.le st slot fun st' hst' => ?_) nofun
      simp only [storageLoadSlot, loadLeaf, hst']
      rfl
    | int | list => simp [LeafOk, intBits] at hv
  | address | contract =>
    cases v with
    | bytes data =>
      have hlen : data.length = addressLength := hv
      refine stores_set rfl rfl rfl (placed_bytes hlen.le st slot fun st' hst' => ?_) fun _ => rfl
      simp only [storageLoadSlot, loadLeaf, hst']
      rfl
    | int | list => simp [LeafOk, intBits] at hv
  | bool | enum | int | uint | bytes =>
    cases v with
    | int n =>
      obtain ⟨bits, hbits, hn⟩ := hv
      exact stores_int hbits hn rfl (fun _ _ => rfl) rfl rfl fun _ => rfl
    | bytes | list => cases hv
  | userType ty =>
    simp only [good, Bool.and_eq_true, Bool.not_eq_true'] at hgood
    obtain ⟨bits, hbits⟩ := Option.isSome_iff_exists.mp hgood.1
    obtain ⟨n, rfl, hn⟩ := leafOk_int ty hbits hgood.2 hv
    exact stores_int hbits hn rfl (fun _ _ => rfl) rfl rfl fun _ => hgood.2

/-! ## Where the arrays are -/

theorem eachArrays_under (h : ∀ v ∈ vs, ∀ slot, ∀ a ∈ arrays v slot, slot.Under n a.slot)
    (slot : Slot) :
    ∀ a ∈ eachArrays arrays n vs slot, slot.Under (vs.length * n) a.slot := by
  induction vs generalizing slot with
  | nil => exact nofun
  | cons v vs ih =>
    intro a ha
    have hcount : (v :: vs).length * n = n + vs.length * n := by
      rw [List.length_cons]
      ring
    rw [hcount]
    obtain ha | ha := List.mem_append.mp ha
    · have hu := h v List.mem_cons_self slot a ha
      rw [← Slot.add_zero slot] at hu
      exact hu.mono (by omega)
    · have hu := ih (fun w hw => h w (List.mem_cons_of_mem _ hw)) (slot.add n) a ha
      exact hu.mono (Nat.le_refl _)

theorem dimsArrays_under {elem : Val → Prop}
    (h : ∀ v, elem v → ∀ slot, ∀ a ∈ arrays v slot, slot.Under n a.slot) (hv : HasDims elem dims v)
    (slot : Slot) :
    ∀ a ∈ dimsArrays arrays n dims v slot, slot.Under (dimsSlots n dims) a.slot := by
  induction dims generalizing v slot with
  | nil => exact h v hv slot
  | cons dim dims ih =>
    cases v with
    | int | bytes => cases dim <;> cases hv
    | list vs =>
      have hrows : ∀ v ∈ vs, HasDims elem dims v := by
        cases dim with
        | fixed d => exact hv.2
        | dynamic => exact hv.2
      have heach := eachArrays_under (fun w hw slot => ih (hrows w hw) slot)
      cases dim with
      | fixed d =>
        have hlen : vs.length = d := hv.1
        rw [dimsSlots, ← hlen]
        exact heach slot
      | dynamic =>
        intro a ha
        obtain rfl | ha := List.mem_cons.mp ha
        · exact Slot.under_self slot
        · exact (heach (.elem slot 0) a ha).of_elem

mutual

theorem arraysOf_under {limit : Nat} : (ty : Ty) → ∀ v, HasTy addressLength limit ty v →
    ∀ slot, ∀ a ∈ arraysOf addressLength ty v slot, slot.Under (slots addressLength ty) a.slot
  | .array elem dims, v, hv, slot => by
    rw [slots_array]
    exact dimsArrays_under (fun v hv slot => arraysOf_under elem v hv slot) hv slot
  | .struct fields, .list vs, hv, slot => by
    rw [slots_struct]
    exact fieldArrays_under fields vs hv slot
  | .struct _, .int _, hv, _ | .struct _, .bytes _, hv, _ => by cases hv
  | .bool, _, _, _ | .address, _, _, _ | .contract, _, _, _ | .enum, _, _, _ | .int _, _, _, _
  | .uint _, _, _, _ | .bytes _, _, _, _ | .dynamicBytes, _, _, _ | .string, _, _, _
  | .mapping, _, _, _ | .internalFunction, _, _, _ | .externalFunction, _, _, _
  | .userType _, _, _, _ => by
    simp only [arraysOf, List.not_mem_nil, false_implies, implies_true]

theorem fieldArrays_under {limit : Nat} : (fields : List Ty) → ∀ vs,
    HasFields addressLength limit fields vs → ∀ slot, ∀ a ∈ fieldArrays addressLength fields vs slot,
      slot.Under (fieldSlots addressLength fields) a.slot
  | [], _, _, _
  | _ :: _, [], _, _ => by simp only [fieldArrays, List.not_mem_nil, false_implies, implies_true]
  | field :: fields, v :: vs, hv, slot => by
    intro a ha
    rw [fieldArrays] at ha
    rw [fieldSlots]
    obtain ha | ha := List.mem_append.mp ha
    · have hu := arraysOf_under field v hv.1 slot a ha
      rw [← Slot.add_zero slot] at hu
      exact hu.mono (by omega)
    · exact (fieldArrays_under fields vs hv.2 _ a ha).mono (Nat.le_refl _)

end

/-! ## Elements -/

/-- The loop of a store over values that are stored; the slot matters only where another one follows. -/
theorem storeEach_placed
    (hstore : ∀ v ∈ vs, ∀ st slot, Lengths st (arrays v slot) → ∃ r, store v st slot = some r ∧
      Placed load v n (arrays v slot) st slot r ∧ (inStep → r.slot.add step = slot.add n))
    (hunder : ∀ v ∈ vs, ∀ slot, ∀ a ∈ arrays v slot, slot.Under n a.slot)
    (hstep : 1 < vs.length → inStep) (st : Storage) (slot : Slot)
    (hlengths : Lengths st (eachArrays arrays n vs slot)) :
    ∃ rs, storeEach store step vs st slot = some rs ∧
      Placed (fun st slot => loadTimes (load st) vs.length slot) vs (vs.length * n)
        (eachArrays arrays n vs slot) st slot rs ∧
      (inStep → rs.slot = slot.add (vs.length * n)) := by
  induction vs generalizing st slot with
  | nil =>
    refine ⟨_, rfl, ?_, fun _ => by simp⟩
    rw [List.length_nil, Nat.zero_mul]
    exact .nil (fun _ => rfl) slot
  | cons v vs ih =>
    obtain ⟨hl, hls⟩ := lengths_append.mp hlengths
    obtain ⟨r, hr, hplaced, hslot⟩ := hstore v List.mem_cons_self st slot hl
    have hload : ∀ st slot, loadTimes (load st) (v :: vs).length slot = (do
        let r ← load st slot
        let rs ← loadTimes (load st) vs.length r.slot
        some ⟨r.val :: rs.val, rs.slot, r.visited ++ rs.visited⟩) := fun _ _ => rfl
    have hcount : (v :: vs).length * n = n + vs.length * n := by
      rw [List.length_cons]
      ring
    rw [hcount]
    simp only [storeEach, hr]
    cases vs with
    | nil =>
      refine ⟨_, rfl, ?_, fun hin => ?_⟩
      · rw [List.length_nil, Nat.zero_mul]
        exact .cons hload hplaced (.nil (fun _ => rfl) _)
      · rw [List.length_nil, Nat.zero_mul]
        exact hslot hin
    | cons w vs =>
      -- there is another one
      have hin : inStep := hstep (by simp)
      have htail : ∀ u ∈ w :: vs, ∀ slot, ∀ a ∈ arrays u slot, slot.Under n a.slot :=
        fun u hu => hunder u (List.mem_cons_of_mem _ hu)
      have houtside : ∀ a ∈ eachArrays arrays n (w :: vs) (slot.add n),
          r.storage a.slot = st a.slot := by
        intro a ha
        exact hplaced.behind (eachArrays_under htail _ a ha)
      obtain ⟨rs, hrs, hps, hslots⟩ := ih (fun u hu => hstore u (List.mem_cons_of_mem _ hu)) htail
        (fun _ => hin) r.storage (slot.add n) (lengths_congr houtside hls)
      refine ⟨r.andThen rs, ?_, .cons hload hplaced hps, fun _ => ?_⟩
      · show (storeEach store step (w :: vs) r.storage (r.slot.add step)).bind _ = _
        rw [hslot hin, hrs]
        rfl
      · show rs.slot = _
        rw [hslots hin, Slot.add_add]

/-! ## Deletes -/

/-- The `n` slots are deleted, and nothing else changes. -/
structure Cleared (st st' : Storage) (slot : Slot) (n : Nat) : Prop where
  gone : ∀ i < n, st' (slot.add i) = none
  keeps : ∀ x, (∀ i < n, x ≠ slot.add i) → st' x = st x

theorem Cleared.one (st : Storage) (slot : Slot) : Cleared st (st.set slot none) slot 1 where
  gone i hi := by
    cases Nat.lt_one_iff.mp hi
    rw [Slot.add_zero]
    exact set_self st slot none
  keeps x hx := set_of_ne fun heq => hx 0 Nat.zero_lt_one (by rw [heq, Slot.add_zero])

theorem Cleared.append {st' st'' : Storage} {m : Nat} (h : Cleared st st' slot n)
    (h' : Cleared st' st'' (slot.add n) m) :
    Cleared st st'' slot (n + m) where
  gone i hi := by
    by_cases hlt : i < n
    · rw [h'.keeps _ fun j _ heq => ?_]
      · exact h.gone i hlt
      · rw [Slot.add_add] at heq
        have hinj := Slot.add_inj heq
        omega
    · have hrest := h'.gone (i - n) (by omega)
      rwa [Slot.add_add, Nat.add_sub_cancel' (by omega)] at hrest
  keeps x hx := by
    rw [h'.keeps x fun i hi => ?_]
    · exact h.keeps x fun i hi => hx i (by omega)
    · rw [Slot.add_add]
      exact hx (n + i) (by omega)

/-- The delete of a type of `n` slots, where the caller adds `step` -/
def Deletes (delete : Storage → Slot → Option (Storage × Slot)) (step n : Nat) : Prop :=
  ∀ st slot, ∃ st' slot', delete st slot = some (st', slot') ∧ Cleared st st' slot n ∧
    slot'.add step = slot.add n

theorem deleteTimes_cleared (h : Deletes delete step n) (count : Nat) (st : Storage) (slot : Slot) :
    ∃ st', deleteTimes delete step count st slot = some (st', slot.add (count * n)) ∧
      Cleared st st' slot (count * n) := by
  induction count generalizing st slot with
  | zero =>
    refine ⟨st, ?_, ⟨?_, fun _ _ => rfl⟩⟩
    · simp [deleteTimes]
    · simp
  | succ count ih =>
    obtain ⟨st1, slot1, hd, hcleared, hslot⟩ := h st slot
    obtain ⟨st2, hds, hrest⟩ := ih st1 (slot.add n)
    have hcount : (count + 1) * n = n + count * n := by ring
    refine ⟨st2, ?_, ?_⟩
    · simp only [deleteTimes, hd]
      show deleteTimes delete step count st1 (slot1.add step) = _
      rw [hslot, hds, Slot.add_add, hcount]
    · rw [hcount]
      exact hcleared.append hrest

/-- Rows of one element -/
theorem deleteArray_ones (h : Deletes delete step n) (hne : dims ≠ [])
    (hdims : ∀ dim ∈ dims, dim = .fixed 1) : Deletes (deleteArray delete step dims) 0 n := by
  induction dims with
  | nil => exact absurd rfl hne
  | cons dim dims ih =>
    cases hdims dim List.mem_cons_self
    intro st slot
    have hone : ∀ {delete : Storage → Slot → Option (Storage × Slot)} {step : Nat},
        Deletes delete step n → ∃ st' slot', deleteTimes delete step (max 1 1) st slot =
          some (st', slot') ∧ Cleared st st' slot n ∧ slot'.add 0 = slot.add n := by
      intro delete step hdelete
      obtain ⟨st', hd, hcleared⟩ := deleteTimes_cleared hdelete 1 st slot
      rw [Nat.one_mul] at hd hcleared
      exact ⟨st', _, hd, hcleared, by rw [Slot.add_zero]⟩
    unfold deleteArray
    cases dims with
    | nil => exact hone h
    | cons dim' dims =>
      exact hone (ih (List.cons_ne_nil _ _) fun dim hdim => hdims dim (List.mem_cons_of_mem _ hdim))

theorem dimsSlots_ones (n : Nat) (hdims : ∀ dim ∈ dims, dim = .fixed 1) :
    dimsSlots n dims = n := by
  induction dims with
  | nil => rfl
  | cons dim dims ih =>
    cases hdims dim List.mem_cons_self
    rw [dimsSlots, Nat.one_mul]
    exact ih fun dim hdim => hdims dim (List.mem_cons_of_mem _ hdim)

theorem deleteArray_fixed (h : Deletes delete step n) (hd : 0 < d)
    (hdims : ∀ dim ∈ dims, dim = .fixed 1) :
    Deletes (deleteArray delete step (.fixed d :: dims)) 0 (d * n) := by
  intro st slot
  have hmax : max 1 d = d := Nat.max_eq_right hd
  unfold deleteArray
  rw [hmax]
  cases dims with
  | nil =>
    obtain ⟨st', hdel, hcleared⟩ := deleteTimes_cleared h d st slot
    exact ⟨st', _, hdel, hcleared, Slot.add_zero _⟩
  | cons dim dims =>
    obtain ⟨st', hdel, hcleared⟩ :=
      deleteTimes_cleared (deleteArray_ones h (List.cons_ne_nil dim dims) hdims) d st slot
    exact ⟨st', _, hdel, hcleared, Slot.add_zero _⟩

theorem fieldStep_of_steps (h : steps ty = true) :
    fieldStep addressLength ty = elemStep addressLength ty := by
  have hstring : isString ty = false := by
    cases ty with
    | string | dynamicBytes => cases h
    | _ => rfl
  unfold fieldStep elemStep
  rw [hstring]
  cases isReferenceType ty <;> rfl

theorem fieldStep_of_string (h : isString ty = true) :
    fieldStep addressLength ty = 1 ∧ slots addressLength ty = 1 := by
  cases ty with
  | string | dynamicBytes => exact ⟨rfl, rfl⟩
  | _ => cases h

theorem deletes_one (hstep : elemStep addressLength ty = 1) (hslots : slots addressLength ty = 1)
    (hdelete : ∀ st slot, storageDeleteSlot addressLength ty st slot = some (st.set slot none, slot)) :
    Deletes (storageDeleteSlot addressLength ty) (elemStep addressLength ty)
      (slots addressLength ty) := by
  intro st slot
  rw [hstep, hslots]
  exact ⟨_, slot, hdelete st slot, .one st slot, rfl⟩

theorem ones_of_all (h : dims.all (· = .fixed 1) = true) :
    ∀ dim ∈ dims, dim = .fixed 1 := by
  simpa using h

mutual

/-- Types without dynamic arrays, whose store steps -/
theorem deletes_ty : (ty : Ty) → good ty = true → steps ty = true → flat ty = true →
    Deletes (storageDeleteSlot addressLength ty) (elemStep addressLength ty)
      (slots addressLength ty)
  | .array elem dims, hgood, hsteps, hflat => by
    simp only [good, Bool.and_eq_true] at hgood
    simp only [flat, Bool.and_eq_true, ← List.all_reverse (l := dims)] at hflat
    rw [steps] at hsteps
    rw [slots_array, show elemStep addressLength (.array elem dims) = 0 from rfl]
    unfold Deletes
    simp only [storageDeleteSlot]
    obtain ⟨hgood, hdims⟩ := hgood
    obtain ⟨hnodyn, hflat⟩ := hflat
    generalize dims.reverse = rows at hdims hnodyn hsteps ⊢
    cases rows with
    | nil => cases hdims
    | cons dim rows =>
      cases dim with
      | dynamic => simp at hnodyn
      | fixed d =>
        simp only [goodDims, Bool.and_eq_true, decide_eq_true_eq] at hdims
        have hones := ones_of_all hdims.1.2
        rw [dimsSlots, dimsSlots_ones _ hones]
        exact deleteArray_fixed (deletes_ty elem hgood hsteps hflat) hdims.1.1 hones
  | .struct fields, hgood, hsteps, hflat => by
    rw [slots_struct, show elemStep addressLength (.struct fields) = 0 from rfl]
    unfold Deletes
    simp only [storageDeleteSlot]
    exact deletes_fields fields hgood hsteps hflat
  | .string, _, hsteps, _ | .dynamicBytes, _, hsteps, _ | .externalFunction, _, hsteps, _
  | .internalFunction, _, hsteps, _ | .mapping, _, hsteps, _ => by cases hsteps
  | .bool, _, _, _ | .address, _, _, _ | .contract, _, _, _ | .enum, _, _, _ | .int _, _, _, _
  | .uint _, _, _, _ | .bytes _, _, _, _ => deletes_one rfl rfl fun _ _ => rfl
  | .userType ty, hgood, _, _ => by
    simp only [good, Bool.and_eq_true, Bool.not_eq_true'] at hgood
    refine deletes_one ?_ rfl fun _ _ => rfl
    unfold elemStep
    rw [show isReferenceType (.userType ty) = false from hgood.2]
    rfl

theorem deletes_fields : (fields : List Ty) → goodAll fields = true → stepsAll fields = true →
    flatAll fields = true →
    Deletes (deleteFields addressLength fields) 0 (fieldSlots addressLength fields)
  | [], _, _, _ => fun st slot => ⟨st, slot, rfl, ⟨nofun, fun _ _ => rfl⟩, rfl⟩
  | field :: fields, hgood, hsteps, hflat => by
    simp only [goodAll, Bool.and_eq_true] at hgood
    simp only [stepsAll, Bool.and_eq_true, Bool.or_eq_true] at hsteps
    simp only [flatAll, Bool.and_eq_true] at hflat
    intro st slot
    have hfield : ∃ st' slot', storageDeleteSlot addressLength field st slot = some (st', slot') ∧
        Cleared st st' slot (slots addressLength field) ∧
        slot'.add (fieldStep addressLength field) = slot.add (slots addressLength field) := by
      obtain hs | hs := hsteps.1
      · rw [fieldStep_of_steps hs]
        exact deletes_ty field hgood.1.1 hs hflat.1 st slot
      · obtain ⟨hstep, hslots⟩ := @fieldStep_of_string addressLength field hs
        rw [hstep, hslots]
        refine ⟨st.set slot none, slot, ?_, .one st slot, rfl⟩
        cases field with
        | string | dynamicBytes => rfl
        | _ => cases hs
    obtain ⟨st1, slot1, hdel, hcleared, hslot⟩ := hfield
    obtain ⟨st2, slot2, hdels, hrest, hslots⟩ :=
      deletes_fields fields hgood.2 hsteps.2 hflat.2 st1 (slot.add (slots addressLength field))
    refine ⟨st2, slot2, ?_, hcleared.append hrest, ?_⟩
    · simp only [deleteFields, hdel]
      show deleteFields addressLength fields st1 (slot1.add (fieldStep addressLength field)) = _
      rw [hslot, hdels]
    · rw [hslots, Slot.add_add]
      rfl

end

/-! ## Rows of one element -/

section Rows

variable {dims : List ArrayLength} (hdims : ∀ dim ∈ dims, dim = .fixed 1)
include hdims

theorem hasDims_ones {elem : Val → Prop} (h : HasDims elem dims v) :
    ∃ w, v = wrap dims w ∧ elem w := by
  induction dims generalizing v with
  | nil => exact ⟨v, rfl, h⟩
  | cons dim dims ih =>
    cases hdims dim List.mem_cons_self
    cases v with
    | int | bytes => cases h
    | list vs =>
      obtain ⟨hlen, hrows⟩ := h
      obtain ⟨row, rfl⟩ := List.length_eq_one_iff.mp hlen
      obtain ⟨w, rfl, hw⟩ := ih (fun dim hdim => hdims dim (List.mem_cons_of_mem _ hdim))
        (hrows row List.mem_cons_self)
      exact ⟨w, rfl, hw⟩

theorem exists_rows {elem : Val → Prop} {vs : List Val} (h : ∀ v ∈ vs, HasDims elem dims v) :
    ∃ ws : List Val, vs = ws.map (wrap dims) ∧ ∀ w ∈ ws, elem w := by
  induction vs with
  | nil => exact ⟨[], rfl, nofun⟩
  | cons v vs ih =>
    obtain ⟨w, rfl, hw⟩ := hasDims_ones hdims (h v List.mem_cons_self)
    obtain ⟨ws, rfl, hws⟩ := ih fun v hv => h v (List.mem_cons_of_mem _ hv)
    exact ⟨w :: ws, rfl, List.forall_mem_cons.mpr ⟨hw, hws⟩⟩

theorem innermost_wrap (w : Val) : innermost dims (wrap dims w) = some [w] := by
  induction dims with
  | nil => rfl
  | cons dim dims ih =>
    cases hdims dim List.mem_cons_self
    simp only [wrap, innermost, List.mapM_cons, List.mapM_nil,
      ih fun dim hdim => hdims dim (List.mem_cons_of_mem _ hdim)]
    rfl

theorem mapM_innermost (ws : List Val) :
    (ws.map (wrap dims)).mapM (innermost dims) = some (ws.map fun w => [w]) := by
  induction ws with
  | nil => rfl
  | cons w ws ih =>
    simp only [List.map_cons, List.mapM_cons, innermost_wrap hdims w, ih]
    rfl

theorem dimsArrays_wrap (arrays : Val → Slot → List ArrayAt) (n : Nat) (w : Val) (slot : Slot) :
    dimsArrays arrays n dims (wrap dims w) slot = arrays w slot := by
  induction dims with
  | nil => rfl
  | cons dim dims ih =>
    cases hdims dim List.mem_cons_self
    simp only [wrap, dimsArrays, eachArrays, List.append_nil]
    exact ih fun dim hdim => hdims dim (List.mem_cons_of_mem _ hdim)

theorem eachArrays_wrap (arrays : Val → Slot → List ArrayAt) (n : Nat) (ws : List Val)
    (slot : Slot) :
    eachArrays (dimsArrays arrays n dims) (dimsSlots n dims) (ws.map (wrap dims)) slot =
      eachArrays arrays n ws slot := by
  induction ws generalizing slot with
  | nil => rfl
  | cons w ws ih =>
    simp only [List.map_cons, eachArrays]
    rw [ih, dimsArrays_wrap hdims, dimsSlots_ones n hdims]

/-- Rows of one element are loaded as the element is. -/
theorem loadRow_ones (st : Storage) (load : Slot → Option (Loaded Val)) (slot : Slot) :
    (if dims.isEmpty then load else loadArray st load dims) slot =
      (load slot).map fun r => ⟨wrap dims r.val, r.slot, r.visited⟩ := by
  induction dims with
  | nil =>
    show load slot = _
    cases load slot <;> rfl
  | cons dim dims ih =>
    cases hdims dim List.mem_cons_self
    have ih := ih fun dim hdim => hdims dim (List.mem_cons_of_mem _ hdim)
    show loadArray st load (.fixed 1 :: dims) slot = _
    simp only [loadArray, Nat.max_self, loadTimes, ih]
    cases load slot with
    | none => rfl
    | some r => simp [wrap]

end Rows

theorem mapM_head (ws : List Val) : (ws.map fun w => [w]).mapM List.head? = some ws := by
  induction ws with
  | nil => rfl
  | cons w ws ih =>
    simp only [List.map_cons, List.mapM_cons, List.head?_cons, ih]
    rfl

theorem flatten_singletons (ws : List Val) : (ws.map fun w => [w]).flatten = ws := by
  induction ws with
  | nil => rfl
  | cons w ws ih => simp [ih]

theorem loadTimes_map (f : Val → Val) (load : Slot → Option (Loaded Val)) (n : Nat) (slot : Slot) :
    loadTimes (fun slot => (load slot).map fun r => ⟨f r.val, r.slot, r.visited⟩) n slot =
      (loadTimes load n slot).map fun rs => ⟨rs.val.map f, rs.slot, rs.visited⟩ := by
  induction n generalizing slot with
  | zero => rfl
  | succ n ih =>
    simp only [loadTimes, ih]
    cases load slot with
    | none => rfl
    | some r =>
      show ((loadTimes load n r.slot).map _).bind _ = Option.map _ ((loadTimes load n r.slot).bind _)
      cases loadTimes load n r.slot <;> rfl

/-! ## Arrays -/

/-- The elements of an array are stored, each in `n` slots; where `inStep` the slot is behind it. -/
def Elements (store : Val → Storage → Slot → Option Stored)
    (load : Storage → Slot → Option (Loaded Val)) (arrays : Val → Slot → List ArrayAt) (step n : Nat)
    (inStep : Prop) (ws : List Val) : Prop :=
  ∀ w ∈ ws, ∀ st slot, Lengths st (arrays w slot) → ∃ r, store w st slot = some r ∧
    Placed load w n (arrays w slot) st slot r ∧ (inStep → r.slot.add step = slot.add n)

theorem storeArray_fixed (helems : Elements store load arrays step n inStep ws)
    (hunder : ∀ w ∈ ws, ∀ slot, ∀ a ∈ arrays w slot, slot.Under n a.slot)
    (hdims : ∀ dim ∈ dims, dim = .fixed 1) (hd : 0 < d) (hlen : ws.length = d)
    (hstep : 1 < ws.length → inStep) (delete : Storage → Slot → Option (Storage × Slot))
    (st : Storage) (slot : Slot) (hlengths : Lengths st (eachArrays arrays n ws slot)) :
    ∃ r, storeArray store delete step (.fixed d :: dims) (.list (ws.map (wrap dims))) st slot =
        some r ∧
      Placed (fun st slot => loadArray st (load st) (.fixed d :: dims) slot)
        (.list (ws.map (wrap dims))) (d * n) (eachArrays arrays n ws slot) st slot r ∧
      (inStep → r.slot = slot.add (d * n)) := by
  obtain ⟨rs, hrs, hplaced, hslot⟩ := storeEach_placed helems hunder hstep st slot hlengths
  have hmax : max 1 d = d := Nat.max_eq_right hd
  rw [hlen] at hplaced hslot
  refine ⟨rs, ?_, ?_, hslot⟩
  · simp only [storeArray, mapM_innermost hdims, hmax]
    show ((ws.map fun w => [w]).mapM List.head?).bind _ = _
    rw [mapM_head]
    show (if ws.length = d then storeEach store step ws st slot else none) = _
    rw [if_pos hlen]
    exact hrs
  · refine hplaced.map (fun ws => Val.list (ws.map (wrap dims))) fun st => ?_
    have hrows : (if dims.isEmpty then load st else loadArray st (load st) dims) =
        fun slot => (load st slot).map fun r => ⟨wrap dims r.val, r.slot, r.visited⟩ :=
      funext fun slot => loadRow_ones hdims st (load st) slot
    simp only [loadArray, hmax, hrows, loadTimes_map]
    cases loadTimes (load st) d slot <;> rfl

/-- A dynamic array: its length, its elements, and what was behind them before -/
theorem placed_dynamic {previous : Nat} {st' : Storage} {rs : Stored}
    (hdims : ∀ dim ∈ dims, dim = .fixed 1) (hlen : ws.length < 2 ^ 32)
    (hprevious : getStorageInt st slot 256 = some previous)
    (helems : Placed (fun st slot => loadTimes (load st) ws.length slot) ws (ws.length * n) []
      (st.set slot (some (toBytes (sizeOf 256) ws.length))) (.elem slot 0) rs)
    (hcleared : Cleared rs.storage st' (.elem slot (ws.length * n)) ((previous - ws.length) * n)) :
    Placed (fun st slot => loadArray st (load st) (.dynamic :: dims) slot)
      (.list (ws.map (wrap dims))) 1 [⟨slot, ws.length, n⟩] st slot
      ⟨st', slot.add 1, slot :: rs.visited⟩ := by
  have hbehind : (Slot.elem slot 0).add (ws.length * n) = .elem slot (ws.length * n) := by
    rw [Slot.add, Nat.zero_add]
  -- the elements, and the length, are not what is deleted
  have hkept : ∀ x, (Slot.elem slot 0).Under (ws.length * n) x → st' x = rs.storage x := by
    intro x hx
    refine hcleared.keeps x fun i _ heq => ?_
    have hx' : ((Slot.elem slot 0).add (ws.length * n)).Under (i + 1) x := by
      rw [heq, hbehind]
      exact Slot.under_add _ (Nat.lt_succ_self i)
    rw [← Slot.add_zero (Slot.elem slot 0)] at hx
    exact hx.disjoint hx' (.inl (by omega))
  have hlength : st' slot = some (toBytes (sizeOf 256) ws.length) := by
    rw [hcleared.keeps slot fun i _ heq => ?_]
    · rw [helems.outside (Slot.not_under_elem slot 0 _)]
      exact set_self _ _ _
    · have hdepth := congrArg Slot.depth heq
      simp only [Slot.depth_add, Slot.depth] at hdepth
      omega
  have hbound : ws.length < 2 ^ 256 := hlen.trans (by decide)
  have hmul : ∀ k, ws.length ≤ k → (k - ws.length) * n = k * n - ws.length * n :=
    fun k _ => Nat.sub_mul k ws.length n
  refine ⟨fun st'' hst'' => ?_, fun x hx => ?_, fun a ha => ?_, ?_, fun x hx hx' => ?_, fun x hx => ?_⟩
  · have hsize : getStorageInt st'' slot 256 = some ws.length :=
      getStorageInt_eq ((hst'' slot (Slot.under_self slot)).trans hlength) hbound
    have hload := helems.loads st'' fun x hx => by
      rw [hst'' x hx.of_elem]
      exact hkept x hx
    show loadArray st'' (load st'') (.dynamic :: dims) slot = _
    have hall : dims.all (· = .fixed 1) = true := by simpa using hdims
    simp only [loadArray, hsize, hall, or_true, if_true]
    show (loadTimes (load st'') (ws.length % 2 ^ 32) (.elem slot 0)).bind _ = _
    rw [Nat.mod_eq_of_lt hlen, hload]
    rfl
  · obtain rfl | hx := List.mem_cons.mp hx
    · exact Slot.under_self x
    · exact (helems.under x hx).of_elem
  · cases List.mem_singleton.mp ha
    exact Slot.under_self slot
  · have hnone : rs.visited.filter slot.Direct = [] := by
      refine List.filter_eq_nil_iff.mpr fun x hx => ?_
      rw [Slot.not_direct_of_under_elem (helems.under x hx)]
      exact Bool.false_ne_true
    simp [Slot.direct_self, hnone]
  · have hx : x ∉ slot :: rs.visited := hx
    rw [List.mem_cons, not_or] at hx
    show st' x = st x
    rw [hcleared.keeps x fun i hi heq => ?_, helems.frame x hx.2 (by rintro ⟨a, ha, -⟩; cases ha),
      set_of_ne hx.1]
    refine hx' ⟨_, List.mem_singleton_self _, previous, ws.length * n + i, hprevious,
      Nat.le_add_right _ _, ?_, heq⟩
    by_cases hle : ws.length ≤ previous
    · have hs := hmul previous hle
      have hm := Nat.mul_le_mul_right n hle
      show ws.length * n + i < previous * n
      omega
    · rw [Nat.sub_eq_zero_of_le (by omega), Nat.zero_mul] at hi
      omega
  · obtain ⟨a, ha, k, j, hk, hle, hlt, rfl⟩ := hx
    cases List.mem_singleton.mp ha
    cases hk.symm.trans hprevious
    simp only at hle hlt
    have hshort : ws.length < previous := Nat.lt_of_mul_lt_mul_right (hle.trans_lt hlt)
    have hs := hmul previous hshort.le
    have hgone := hcleared.gone (j - ws.length * n) (by omega)
    rwa [Slot.add, Nat.add_sub_cancel' hle] at hgone

/-! ## Types without dynamic arrays have none -/

theorem eachArrays_nil (h : ∀ v slot, arrays v slot = []) (step : Nat) (vs : List Val) (slot : Slot) :
    eachArrays arrays step vs slot = [] := by
  induction vs generalizing slot with
  | nil => rfl
  | cons v vs ih => rw [eachArrays, h, ih, List.append_nil]

theorem dimsArrays_nil (h : ∀ v slot, arrays v slot = []) (n : Nat)
    (hdims : dims.all (· ≠ .dynamic) = true) (v : Val) (slot : Slot) :
    dimsArrays arrays n dims v slot = [] := by
  induction dims generalizing v slot with
  | nil => exact h v slot
  | cons dim dims ih =>
    rw [List.all_cons, Bool.and_eq_true] at hdims
    cases dim with
    | dynamic => simp at hdims
    | fixed d =>
      cases v with
      | int | bytes => rfl
      | list vs => exact eachArrays_nil (ih hdims.2) _ vs slot

mutual

theorem arraysOf_flat : (ty : Ty) → flat ty = true → ∀ v slot, arraysOf addressLength ty v slot = []
  | .array elem dims, hflat, v, slot => by
    simp only [flat, Bool.and_eq_true, ← List.all_reverse (l := dims)] at hflat
    exact dimsArrays_nil (arraysOf_flat elem hflat.2) _ hflat.1 v slot
  | .struct fields, hflat, .list vs, slot => fieldArrays_flat fields hflat vs slot
  | .struct _, _, .int _, _ | .struct _, _, .bytes _, _ => by simp only [arraysOf]
  | .bool, _, _, _ | .address, _, _, _ | .contract, _, _, _ | .enum, _, _, _ | .int _, _, _, _
  | .uint _, _, _, _ | .bytes _, _, _, _ | .dynamicBytes, _, _, _ | .string, _, _, _
  | .mapping, _, _, _ | .internalFunction, _, _, _ | .externalFunction, _, _, _
  | .userType _, _, _, _ => by simp only [arraysOf]

theorem fieldArrays_flat : (fields : List Ty) → flatAll fields = true →
    ∀ vs slot, fieldArrays addressLength fields vs slot = []
  | [], _, _, _ => by simp only [fieldArrays]
  | _ :: _, _, [], _ => by simp only [fieldArrays]
  | field :: fields, hflat, v :: vs, slot => by
    simp only [flatAll, Bool.and_eq_true] at hflat
    rw [fieldArrays, arraysOf_flat field hflat.1, fieldArrays_flat fields hflat.2, List.append_nil]

end

/-! ## Every type -/

theorem Stores.field (h : Stores addressLength ty inside v st slot) :
    ∃ r, storageStoreSlot addressLength ty inside v st slot = some r ∧
      Placed (fun st slot => storageLoadSlot addressLength st ty slot) v (slots addressLength ty)
        (arraysOf addressLength ty v slot) st slot r ∧
      (steps ty = true ∨ isString ty = true →
        r.slot.add (fieldStep addressLength ty) = slot.add (slots addressLength ty)) := by
  obtain ⟨r, hr, hplaced, hsteps, hstring⟩ := h
  refine ⟨r, hr, hplaced, ?_⟩
  rintro (hs | hs)
  · rw [fieldStep_of_steps hs]
    exact hsteps hs
  · obtain ⟨hstep, hslots⟩ := @fieldStep_of_string addressLength ty hs
    rw [hstep, hslots, hstring hs]

/-- The elements are stored as their type is. -/
theorem elements_of_stores {elem : Ty}
    (helem : ∀ v st slot, HasTy addressLength (scratchSize + 1) elem v →
      Lengths st (arraysOf addressLength elem v slot) →
      Stores addressLength elem true v st slot)
    (hws : ∀ w ∈ ws, HasTy addressLength (scratchSize + 1) elem w) :
    Elements (fun v st slot => storageStoreSlot addressLength elem true v st slot)
      (fun st slot => storageLoadSlot addressLength st elem slot)
      (fun v slot => arraysOf addressLength elem v slot) (elemStep addressLength elem)
      (slots addressLength elem) (steps elem = true) ws := by
  intro w hw st slot hl
  obtain ⟨r, hr, hplaced, hslot, -⟩ := helem w st slot (hws w hw) hl
  exact ⟨r, hr, hplaced, hslot⟩

section Array

variable {elem : Ty} {dims rows : List ArrayLength} {inside : Bool} {v : Val}
  {st : Storage} {slot : Slot}
  (helem : ∀ v st slot, HasTy addressLength (scratchSize + 1) elem v →
    Lengths st (arraysOf addressLength elem v slot) →
    Stores addressLength elem true v st slot)
  (hones : ∀ dim ∈ rows, dim = .fixed 1)
  (hv : HasTy addressLength (scratchSize + 1) (.array elem dims) v)
  (hlengths : Lengths st (arraysOf addressLength (.array elem dims) v slot))
include helem hones hv hlengths

theorem stores_fixed {d : Nat} (hdims : dims.reverse = .fixed d :: rows) (hd : 0 < d)
    (hstep : d = 1 ∨ steps elem = true) :
    Stores addressLength (.array elem dims) inside v st slot := by
  simp only [HasTy, hdims] at hv
  cases v with
  | int | bytes => cases hv
  | list vs =>
    obtain ⟨hlen, hrows⟩ := hv
    obtain ⟨ws, rfl, hws⟩ := exists_rows hones hrows
    rw [List.length_map] at hlen
    have harrays : arraysOf addressLength (.array elem dims) (.list (ws.map (wrap rows))) slot =
        eachArrays (fun v slot => arraysOf addressLength elem v slot) (slots addressLength elem)
          ws slot := by
      simp only [arraysOf, hdims, dimsArrays]
      exact eachArrays_wrap hones _ _ ws slot
    rw [harrays] at hlengths
    obtain ⟨r, hr, hplaced, hslot⟩ := storeArray_fixed (elements_of_stores helem hws)
      (fun w hw => arraysOf_under elem w (hws w hw)) hones hd hlen
      (fun hlt => hstep.resolve_left (by omega)) (storageDeleteSlot addressLength elem) st slot
      hlengths
    refine ⟨r, ?_, ?_, fun hs => ?_, nofun⟩
    · simp only [storageStoreSlot, hdims]
      exact hr
    · rw [slots_array, harrays, hdims, dimsSlots, dimsSlots_ones _ hones]
      simp only [storageLoadSlot, hdims]
      exact hplaced
    · simp only [steps, hdims] at hs
      rw [slots_array, hdims, dimsSlots, dimsSlots_ones _ hones, hslot hs]
      exact Slot.add_zero _

theorem stores_dynamic (hdims : dims.reverse = .dynamic :: rows) (hgood : good elem = true)
    (hsteps : steps elem = true) (hflat : flat elem = true) :
    Stores addressLength (.array elem dims) inside v st slot := by
  simp only [HasTy, hdims] at hv
  cases v with
  | int | bytes => cases hv
  | list vs =>
    obtain ⟨hlen, hrows⟩ := hv
    obtain ⟨ws, rfl, hws⟩ := exists_rows hones hrows
    rw [List.length_map] at hlen
    have hnil : ∀ st slot, Lengths st (eachArrays (fun v slot => arraysOf addressLength elem v slot)
        (slots addressLength elem) ws slot) := by
      intro st slot
      rw [eachArrays_nil (arraysOf_flat elem hflat)]
      exact List.forall_mem_nil _
    have harrays : arraysOf addressLength (.array elem dims) (.list (ws.map (wrap rows))) slot =
        [⟨slot, ws.length, slots addressLength elem⟩] := by
      simp only [arraysOf, hdims, dimsArrays, List.length_map]
      rw [eachArrays_wrap hones, eachArrays_nil (arraysOf_flat elem hflat), dimsSlots_ones _ hones]
    rw [harrays] at hlengths
    obtain ⟨previous, hprevious, hlt⟩ := hlengths _ (List.mem_singleton_self _)
    -- the new elements
    obtain ⟨rs, hrs, hplaced, hslot⟩ := storeEach_placed (elements_of_stores helem hws)
      (fun w hw => arraysOf_under elem w (hws w hw)) (fun _ => hsteps)
      (st.set slot (some (toBytes (sizeOf 256) ws.length))) (.elem slot 0) (hnil _ _)
    rw [eachArrays_nil (arraysOf_flat elem hflat)] at hplaced
    -- the old ones
    obtain ⟨st', hdel, hcleared⟩ := deleteTimes_cleared (deletes_ty elem hgood hsteps hflat)
      (previous - ws.length) rs.storage rs.slot
    have hbehind := hslot hsteps
    rw [Slot.add, Nat.zero_add] at hbehind
    rw [hbehind] at hcleared
    refine ⟨⟨st', slot.add 1, slot :: rs.visited⟩, ?_, ?_, fun _ => ?_, fun h => absurd h Bool.false_ne_true⟩
    · simp only [storageStoreSlot, hdims, storeArray, mapM_innermost hones, List.length_map]
      rw [show getStorageInt st slot 256 = some previous from hprevious]
      show (storeEach _ _ ((ws.map fun w => [w]).flatten.take ws.length) _ _).bind _ = _
      rw [flatten_singletons, List.take_length]
      show (storeEach _ _ ws (st.set slot (some (toBytes (sizeOf 256) ws.length))) (.elem slot 0)).bind
        _ = _
      rw [hrs]
      show (deleteTimes _ _ (previous % 2 ^ 32 - ws.length) rs.storage rs.slot).bind _ = _
      rw [Nat.mod_eq_of_lt hlt, hdel]
      rfl
    · rw [slots_array, harrays, hdims]
      simp only [storageLoadSlot, hdims]
      exact placed_dynamic hones hlen hprevious hplaced hcleared
    · rw [slots_array, hdims]
      exact Slot.add_zero _

end Array

mutual

theorem stores_ty : (ty : Ty) → good ty = true → ∀ inside v st slot,
    HasTy addressLength (scratchSize + 1) ty v → Lengths st (arraysOf addressLength ty v slot) →
    Stores addressLength ty inside v st slot
  | .array elem dims, hgood, inside, v, st, slot, hv, hlengths => by
    simp only [good, Bool.and_eq_true] at hgood
    obtain ⟨hgood, hdims⟩ := hgood
    have helem := stores_ty elem hgood true
    cases hrows : dims.reverse with
    | nil =>
      rw [hrows] at hdims
      cases hdims
    | cons dim rows =>
      rw [hrows] at hdims
      cases dim with
      | fixed d =>
        simp only [goodDims, Bool.and_eq_true, decide_eq_true_eq, Bool.or_eq_true] at hdims
        obtain ⟨⟨hd, hones⟩, hstep⟩ := hdims
        exact stores_fixed helem (ones_of_all hones) hv hlengths hrows hd hstep
      | dynamic =>
        simp only [goodDims, Bool.and_eq_true] at hdims
        obtain ⟨⟨hones, hsteps⟩, hflat⟩ := hdims
        exact stores_dynamic helem (ones_of_all hones) hv hlengths hrows hgood hsteps hflat
  | .struct fields, hgood, inside, .list vs, st, slot, hv, hlengths => by
    simp only [arraysOf] at hlengths
    obtain ⟨rs, hrs, hplaced, hslot⟩ := stores_fields fields hgood vs st slot hv hlengths
    unfold Stores
    rw [slots_struct, show elemStep addressLength (.struct fields) = 0 from rfl]
    refine ⟨rs, hrs, ?_, fun hs => by rw [Slot.add_zero]; exact hslot hs, nofun⟩
    simp only [arraysOf]
    refine hplaced.map Val.list fun st => ?_
    simp only [storageLoadSlot]
    cases loadFields addressLength st fields slot <;> rfl
  | .struct _, _, _, .int _, _, _, hv, _ | .struct _, _, _, .bytes _, _, _, hv, _ => by cases hv
  | .bool, hgood, _, _, _, _, hv, _ | .address, hgood, _, _, _, _, hv, _
  | .contract, hgood, _, _, _, _, hv, _ | .enum, hgood, _, _, _, _, hv, _
  | .int _, hgood, _, _, _, _, hv, _ | .uint _, hgood, _, _, _, _, hv, _
  | .bytes _, hgood, _, _, _, _, hv, _ | .dynamicBytes, hgood, _, _, _, _, hv, _
  | .string, hgood, _, _, _, _, hv, _ | .mapping, hgood, _, _, _, _, hv, _
  | .internalFunction, hgood, _, _, _, _, hv, _ | .externalFunction, hgood, _, _, _, _, hv, _
  | .userType _, hgood, _, _, _, _, hv, _ => stores_leaf rfl hgood hv

theorem stores_fields : (fields : List Ty) → goodAll fields = true →
    ∀ vs st slot, HasFields addressLength (scratchSize + 1) fields vs →
    Lengths st (fieldArrays addressLength fields vs slot) →
    ∃ rs, storeFields addressLength fields vs st slot = some rs ∧
      Placed (fun st slot => loadFields addressLength st fields slot) vs
        (fieldSlots addressLength fields) (fieldArrays addressLength fields vs slot) st slot rs ∧
      (stepsAll fields = true → rs.slot = slot.add (fieldSlots addressLength fields))
  | [], _, [], st, slot, _, _ => by
    simp only [fieldArrays]
    exact ⟨_, rfl, .nil (fun _ => rfl) slot, fun _ => (Slot.add_zero slot).symm⟩
  | [], _, _ :: _, _, _, hv, _ | _ :: _, _, [], _, _, hv, _ => by cases hv
  | field :: fields, hgood, v :: vs, st, slot, hv, hlengths => by
    simp only [goodAll, Bool.and_eq_true, Bool.or_eq_true] at hgood
    obtain ⟨⟨hfield, hstep⟩, hfields⟩ := hgood
    rw [fieldArrays] at hlengths ⊢
    obtain ⟨hl, hls⟩ := lengths_append.mp hlengths
    obtain ⟨r, hr, hplaced, hslot⟩ := (stores_ty field hfield true v st slot hv.1 hl).field
    have hload : ∀ st slot, loadFields addressLength st (field :: fields) slot = (do
        let r ← storageLoadSlot addressLength st field slot
        let rs ← loadFields addressLength st fields r.slot
        some ⟨r.val :: rs.val, rs.slot, r.visited ++ rs.visited⟩) := fun _ _ => by
      simp only [loadFields]
    simp only [storeFields, hr, fieldSlots]
    cases fields with
    | nil =>
      cases vs with
      | cons => cases hv.2
      | nil =>
        refine ⟨_, rfl, ?_, fun hall => ?_⟩
        · simp only [fieldArrays]
          exact .cons hload hplaced (.nil (fun _ => rfl) _)
        · rw [stepsAll, Bool.and_eq_true, Bool.or_eq_true] at hall
          exact hslot hall.1
    | cons next fields =>
      have hin : steps field = true ∨ isString field = true := by
        simpa using hstep
      have houtside : ∀ a ∈ fieldArrays addressLength (next :: fields) vs
          (slot.add (slots addressLength field)), r.storage a.slot = st a.slot :=
        fun a ha => hplaced.behind (fieldArrays_under (next :: fields) vs hv.2 _ a ha)
      obtain ⟨rs, hrs, hps, hslots⟩ := stores_fields (next :: fields) hfields vs r.storage
        (slot.add (slots addressLength field)) hv.2 (lengths_congr houtside hls)
      refine ⟨r.andThen rs, ?_, .cons hload hplaced hps, fun hall => ?_⟩
      · show (storeFields addressLength (next :: fields) vs r.storage
          (r.slot.add (fieldStep addressLength field))).bind _ = _
        rw [hslot hin, hrs]
        rfl
      · rw [stepsAll, Bool.and_eq_true] at hall
        show rs.slot = _
        rw [hslots hall.2, Slot.add_add]

end

/-! ## The round trip -/

/-- An internal function that is not in a struct or an array; the load does not advance the slot. -/
theorem internalFunction_round_trip (hv : HasTy addressLength (scratchSize + 1) .internalFunction v) :
    ∃ r, RoundTrip addressLength .internalFunction v st slot r := by
  cases v with
  | int n =>
    refine ⟨setSlot st slot (some (toBytes (sizeOf 32) n)), rfl, ⟨slot, ?_⟩, ?_, fun x hx _ => ?_, ?_⟩
    · simp only [storageLoadSlot, loadLeaf, setSlot]
      rw [getStorageInt_eq (set_self st slot _) hv]
      rfl
    · simp [setSlot, Slot.direct_self, slots, storageSlots]
    · exact set_of_ne fun heq => hx (List.mem_singleton.mpr heq)
    · rintro x ⟨a, ha, -⟩
      simp [arraysOf] at ha
  | bytes | list => simp [HasTy, LeafOk] at hv

namespace Sample

/-- `struct { uint64 a; string s; uint8[] xs; bool[2] b; }` -/
def record : Ty := .struct [.uint 64, .string, .array (.uint 8) [.dynamic], .array .bool [.fixed 2]]

def recordValue : Val :=
  .list [.int 7, .bytes [104, 105], .list [.int 1], .list [.int 0, .int 1]]

/-- The array had two elements before. -/
def before : Storage := fun slot =>
  if slot = .num 2 then some (toBytes 32 2)
  else if slot = .elem (.num 2) 0 ∨ slot = .elem (.num 2) 1 then some [9] else none

theorem hasTy_record : HasTy 32 (scratchSize + 1) record recordValue := by
  simp [record, recordValue, HasTy, HasFields, HasDims, LeafOk, intBits, scratchSize]

theorem lengths_before : Lengths before (arraysOf 32 record recordValue (.num 0)) := by
  intro a ha
  have hslot : a.slot = .num 2 := by
    simp [record, recordValue, arraysOf, fieldArrays, dimsArrays, eachArrays, slots, storageSlots,
      Slot.add] at ha
    rw [ha]
  rw [hslot]
  exact ⟨2, by decide +kernel, by decide⟩

/-- `string[2]` -/
def strings : Ty := .array .string [.fixed 2]

def stringsValue : Val := .list [.bytes [97], .bytes [98]]

end Sample

end Solang.Emit.Polkadot
