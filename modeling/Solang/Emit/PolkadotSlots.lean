import Solang.Emit.PolkadotStorage

/-!
# Slots of values

What a store of a value has to do, for a value of any type that takes `n` slots: what is
loaded from there is the value, over the slots that were set and in their order; the elements that a
dynamic array no longer has are deleted; nothing else changes.
-/

namespace Solang.Emit.Polkadot

open Sema.Storage

/-! ## Slots -/

namespace Slot

variable {slot x : Slot} {i j k n m a b : Nat}

/-- How often it is hashed -/
def depth : Slot → Nat
  | .num _ => 0
  | .elem array _ => array.depth + 1

@[simp] theorem add_zero (slot : Slot) : slot.add 0 = slot := by
  cases slot <;> rfl

@[simp] theorem add_add (slot : Slot) (i j : Nat) : (slot.add i).add j = slot.add (i + j) := by
  cases slot <;> simp [add, Nat.add_assoc]

@[simp] theorem depth_add (slot : Slot) (i : Nat) : (slot.add i).depth = slot.depth := by
  cases slot <;> rfl

theorem add_inj (h : slot.add i = slot.add j) : i = j := by
  cases slot with
  | num n =>
    simp only [add, num.injEq] at h
    omega
  | elem array n =>
    simp only [add, elem.injEq, true_and] at h
    omega

/-- One of the `n` slots, or behind the hash of one -/
def Under (slot : Slot) (n : Nat) : Slot → Prop
  | .num k => ∃ i < n, .num k = slot.add i
  | .elem array k => (∃ i < n, .elem array k = slot.add i) ∨ Under slot n array

theorem under_add (slot : Slot) (h : i < n) : Under slot n (slot.add i) := by
  cases hx : slot.add i with
  | num k => exact ⟨i, h, hx.symm⟩
  | elem array k => exact .inl ⟨i, h, hx.symm⟩

theorem under_self (slot : Slot) : Under slot 1 slot := by
  simpa using under_add slot Nat.zero_lt_one

theorem under_elem (h : Under slot n x) (k : Nat) : Under slot n (.elem x k) := .inr h

theorem Under.depth_le (h : Under slot n x) : slot.depth ≤ x.depth := by
  induction x with
  | num k =>
    obtain ⟨i, -, hx⟩ := h
    exact Nat.le_of_eq (hx ▸ (depth_add slot i).symm)
  | elem array k ih =>
    obtain ⟨i, -, hx⟩ | h := h
    · exact Nat.le_of_eq (hx ▸ (depth_add slot i).symm)
    · have hle := ih h
      simp only [depth]
      omega

theorem Under.mono (h : Under (slot.add a) n x) (hn : a + n ≤ m) : Under slot m x := by
  induction x with
  | num k =>
    obtain ⟨i, hi, hx⟩ := h
    rw [hx, add_add]
    exact under_add slot (by omega)
  | elem array k ih =>
    obtain ⟨i, hi, hx⟩ | h := h
    · rw [hx, add_add]
      exact under_add slot (by omega)
    · exact under_elem (ih h) k

/-- Different slots have nothing below them in common. -/
theorem Under.disjoint (h : Under (slot.add a) n x) (h' : Under (slot.add b) m x)
    (hd : a + n ≤ b ∨ b + m ≤ a) : False := by
  induction x with
  | num k =>
    obtain ⟨i, hi, hx⟩ := h
    obtain ⟨j, hj, hx'⟩ := h'
    rw [hx, add_add, add_add] at hx'
    have heq := add_inj hx'
    omega
  | elem array k ih =>
    have hdepth : ∀ {c l : Nat}, Under (slot.add c) l array → ∀ {i : Nat},
        Slot.elem array k ≠ slot.add i := by
      intro c l hu i heq
      have hle := hu.depth_le
      have hd := congrArg depth heq
      simp only [depth_add, depth] at hle hd
      omega
    obtain ⟨i, hi, hx⟩ | h := h
    · obtain ⟨j, hj, hx'⟩ | h' := h'
      · rw [hx, add_add, add_add] at hx'
        have heq := add_inj hx'
        omega
      · rw [add_add] at hx
        exact hdepth h' hx
    · obtain ⟨j, hj, hx'⟩ | h' := h'
      · rw [add_add] at hx'
        exact hdepth h hx'
      · exact ih h h'

/-- The elements of an array are below its slot. -/
theorem Under.of_elem (h : Under (.elem slot a) n x) : Under slot 1 x := by
  induction x with
  | num k =>
    obtain ⟨i, hi, hx⟩ := h
    cases hx
  | elem array k ih =>
    obtain ⟨i, hi, hx⟩ | h := h
    · cases hx
      refine under_elem ?_ _
      simpa using under_add slot Nat.zero_lt_one
    · exact under_elem (ih h) k

theorem not_under_elem (slot : Slot) (a n : Nat) : ¬Under (.elem slot a) n slot := by
  intro h
  have hle := h.depth_le
  simp only [depth] at hle
  omega

/-- A slot of the same row of slots -/
def Direct (slot x : Slot) : Bool :=
  match slot, x with
  | .num _, .num _ => true
  | .elem a _, .elem b _ => a = b
  | _, _ => false

theorem direct_add (slot : Slot) (i : Nat) (x : Slot) : Direct (slot.add i) x = Direct slot x := by
  cases slot <;> cases x <;> rfl

theorem direct_self (slot : Slot) : Direct slot slot = true := by
  cases slot <;> simp [Direct]

theorem not_direct_of_under_elem (h : Under (.elem slot a) n x) : Direct slot x = false := by
  have hle := h.depth_le
  simp only [depth] at hle
  cases slot with
  | num k =>
    cases x with
    | num _ => simp [depth] at hle
    | elem _ _ => rfl
  | elem b k =>
    cases x with
    | num _ => rfl
    | elem c _ =>
      simp only [Direct, decide_eq_false_iff_not]
      rintro rfl
      simp only [depth] at hle
      omega

end Slot

/-! ## Arrays that are shortened -/

/-- A dynamic array of a value: its slot, how many elements it has, and their slots -/
structure ArrayAt where
  slot : Slot
  length : Nat
  elemSlots : Nat

/-- A slot of an element that was there before and is behind the end of the array -/
def Stale (st : Storage) (arrays : List ArrayAt) (x : Slot) : Prop :=
  ∃ a ∈ arrays, ∃ n j, getStorageInt st a.slot 256 = some n ∧ a.length * a.elemSlots ≤ j ∧
    j < n * a.elemSlots ∧ x = .elem a.slot j

/-- The lengths in storage are lengths of arrays. -/
def Lengths (st : Storage) (arrays : List ArrayAt) : Prop :=
  ∀ a ∈ arrays, ∃ n, getStorageInt st a.slot 256 = some n ∧ n < 2 ^ 32

section

variable {st st' : Storage} {arrays arrays' : List ArrayAt} {x slot : Slot} {n : Nat}

theorem getStorageInt_congr {bits : Nat} (h : st' slot = st slot) :
    getStorageInt st' slot bits = getStorageInt st slot bits := by
  unfold getStorageInt Storage.get
  rw [h]

theorem stale_append : Stale st (arrays ++ arrays') x ↔ Stale st arrays x ∨ Stale st arrays' x := by
  simp only [Stale, List.mem_append, or_and_right, exists_or]

theorem lengths_append :
    Lengths st (arrays ++ arrays') ↔ Lengths st arrays ∧ Lengths st arrays' :=
  List.forall_mem_append

theorem stale_congr (h : ∀ a ∈ arrays, st' a.slot = st a.slot) :
    Stale st' arrays x ↔ Stale st arrays x := by
  unfold Stale
  refine exists_congr fun a => and_congr_right fun ha => ?_
  rw [getStorageInt_congr (h a ha)]

theorem lengths_congr (h : ∀ a ∈ arrays, st' a.slot = st a.slot) (hl : Lengths st arrays) :
    Lengths st' arrays := by
  intro a ha
  rw [getStorageInt_congr (h a ha)]
  exact hl a ha

theorem Stale.under (h : Stale st arrays x) (ha : ∀ a ∈ arrays, Slot.Under slot n a.slot) :
    Slot.Under slot n x := by
  obtain ⟨a, hmem, -, j, -, -, -, rfl⟩ := h
  exact Slot.under_elem (ha a hmem) j

end

/-! ## What a store does -/

/-- The store of `v` in `n` slots, for the load of its type -/
structure Placed {α : Type} (load : Storage → Slot → Option (Loaded α)) (v : α) (n : Nat)
    (arrays : List ArrayAt) (st : Storage) (slot : Slot) (r : Stored) : Prop where
  loads : ∀ st', (∀ x, slot.Under n x → st' x = r.storage x) →
    load st' slot = some ⟨v, slot.add n, r.visited⟩
  under : ∀ x ∈ r.visited, slot.Under n x
  within : ∀ a ∈ arrays, slot.Under n a.slot
  direct : r.visited.filter slot.Direct = (List.range n).map slot.add
  frame : ∀ x, x ∉ r.visited → ¬Stale st arrays x → r.storage x = st x
  gone : ∀ x, Stale st arrays x → r.storage x = none

namespace Placed

variable {α : Type} {load : Storage → Slot → Option (Loaded α)} {v : α} {n m : Nat}
  {arrays arrays' : List ArrayAt} {st : Storage} {slot : Slot} {r : Stored}

theorem outside (h : Placed load v n arrays st slot r) {x : Slot} (hx : ¬slot.Under n x) :
    r.storage x = st x :=
  h.frame x (fun hmem => hx (h.under x hmem)) fun hstale => hx (hstale.under h.within)

/-- What is behind the value stays. -/
theorem behind (h : Placed load v n arrays st slot r) {x : Slot} (hx : (slot.add n).Under m x) :
    r.storage x = st x := by
  refine h.outside fun hu => ?_
  rw [← Slot.add_zero slot] at hu
  exact hu.disjoint hx (.inl (by omega))

/-- Nothing -/
theorem nil {load : Storage → Slot → Option (Loaded (List Val))}
    (hload : ∀ st, load st slot = some ⟨[], slot, []⟩) (slot' : Slot) :
    Placed load [] 0 [] st slot ⟨st, slot', []⟩ where
  loads st' _ := by
    rw [hload, Slot.add_zero]
  under := nofun
  within := nofun
  direct := rfl
  frame _ _ _ := rfl
  gone := by
    rintro x ⟨a, ha, -⟩
    cases ha

/-- One value, and others behind it -/
theorem cons {load : Storage → Slot → Option (Loaded Val)} {v : Val} {vs : List Val}
    {loads loadAll : Storage → Slot → Option (Loaded (List Val))} {rs : Stored}
    (hload : ∀ st slot, loadAll st slot = do
      let r ← load st slot
      let rs ← loads st r.slot
      some ⟨r.val :: rs.val, rs.slot, r.visited ++ rs.visited⟩)
    (h : Placed load v n arrays st slot r)
    (hs : Placed loads vs m arrays' r.storage (slot.add n) rs) :
    Placed loadAll (v :: vs) (n + m) (arrays ++ arrays') st slot (r.andThen rs) := by
  have hfirst : ∀ x, slot.Under n x → ¬(slot.add n).Under m x := by
    intro x hx hx'
    rw [← Slot.add_zero slot] at hx
    exact hx.disjoint hx' (.inl (by omega))
  have hstale : ∀ {x}, Stale r.storage arrays' x ↔ Stale st arrays' x :=
    stale_congr fun a ha => h.outside fun hu => hfirst _ hu (hs.within a ha)
  have hleft : ∀ {x}, slot.Under n x → slot.Under (n + m) x := by
    intro x hx
    rw [← Slot.add_zero slot] at hx
    exact hx.mono (by omega)
  have hright : ∀ {x}, (slot.add n).Under m x → slot.Under (n + m) x :=
    fun hx => hx.mono (Nat.le_refl _)
  refine ⟨fun st' hst' => ?_, fun x hx => ?_, fun a ha => ?_, ?_, fun x hx hx' => ?_, fun x hx => ?_⟩
  · rw [hload, h.loads st' fun x hx => ?_]
    · show (do
        let rs ← loads st' (slot.add n)
        some (⟨v :: rs.val, rs.slot, r.visited ++ rs.visited⟩ : Loaded (List Val))) = _
      rw [hs.loads st' fun x hx => hst' x (hright hx)]
      simp [Stored.andThen]
    · rw [hst' x (hleft hx)]
      exact hs.outside (hfirst x hx)
  · obtain hx | hx := List.mem_append.mp hx
    · exact hleft (h.under x hx)
    · exact hright (hs.under x hx)
  · obtain ha | ha := List.mem_append.mp ha
    · exact hleft (h.within a ha)
    · exact hright (hs.within a ha)
  · have hsame : rs.visited.filter slot.Direct = rs.visited.filter (slot.add n).Direct :=
      List.filter_congr fun x _ => (Slot.direct_add slot n x).symm
    show (r.visited ++ rs.visited).filter slot.Direct = _
    rw [List.filter_append, h.direct, hsame, hs.direct, List.range_add, List.map_append,
      List.map_map]
    congr 1
    exact List.map_congr_left fun i _ => Slot.add_add slot n i
  · have hx : x ∉ r.visited ++ rs.visited := hx
    rw [List.mem_append, not_or] at hx
    rw [stale_append, not_or] at hx'
    show rs.storage x = st x
    rw [hs.frame x hx.2 (fun hst => hx'.2 (hstale.mp hst))]
    exact h.frame x hx.1 hx'.1
  · show rs.storage x = none
    obtain hx | hx := stale_append.mp hx
    · rw [hs.outside (hfirst x (hx.under h.within))]
      exact h.gone x hx
    · exact hs.gone x (hstale.mpr hx)

/-- The value is what is loaded, seen another way. -/
theorem map {β : Type} (f : α → β) {load' : Storage → Slot → Option (Loaded β)}
    (h : Placed load v n arrays st slot r)
    (hload : ∀ st, load' st slot = (load st slot).map fun r => ⟨f r.val, r.slot, r.visited⟩) :
    Placed load' (f v) n arrays st slot r where
  loads st' hst' := by
    rw [hload, h.loads st' hst']
    rfl
  under := h.under
  within := h.within
  direct := h.direct
  frame := h.frame
  gone := h.gone

end Placed

end Solang.Emit.Polkadot

/-!
## Types of values in storage

The values of a type, its dynamic arrays, and the types for which the store, the load and
the delete advance the slot alike.
-/

namespace Solang.Emit.Polkadot

open Sema.Storage

section

variable (addressLength : Nat)

/-- The slots of a row of an array, from the outermost dimension on -/
def dimsSlots (elem : Nat) : List ArrayLength → Nat
  | [] => elem
  | .fixed d :: dims => d * dimsSlots elem dims
  | .dynamic :: _ => 1

/-! ### Values -/

/-- A value in one slot; strings are of less than `limit` bytes. -/
def LeafOk (limit : Nat) : Ty → Val → Prop
  | .string, .bytes data | .dynamicBytes, .bytes data => data.length < limit
  | .internalFunction, .int n => n < 2 ^ 32
  | .externalFunction, .bytes data => data.length = addressLength + 4
  | .address, .bytes data | .contract, .bytes data => data.length = addressLength
  | .userType ty, v => LeafOk limit ty v
  | ty, .int n => ∃ bits, intBits ty = some bits ∧ n < 2 ^ bits
  | _, _ => False

/-- The rows of an array are rows of its other dimensions. -/
def HasDims (elem : Val → Prop) : List ArrayLength → Val → Prop
  | [], v => elem v
  | .fixed d :: dims, .list vs => vs.length = d ∧ ∀ v ∈ vs, HasDims elem dims v
  | .dynamic :: dims, .list vs => vs.length < 2 ^ 32 ∧ ∀ v ∈ vs, HasDims elem dims v
  | _, _ => False

mutual

/-- The values of a type, with strings of less than `limit` bytes -/
def HasTy (limit : Nat) : Ty → Val → Prop
  | .array elem dims, v => HasDims (fun v => HasTy limit elem v) dims.reverse v
  | .struct fields, .list vs => HasFields limit fields vs
  | .struct _, _ => False
  | ty, v => LeafOk addressLength limit ty v

def HasFields (limit : Nat) : List Ty → List Val → Prop
  | [], [] => True
  | field :: fields, v :: vs => HasTy limit field v ∧ HasFields limit fields vs
  | _, _ => False

end

/-- The dynamic arrays of values one behind the other -/
def eachArrays (arrays : Val → Slot → List ArrayAt) (step : Nat) : List Val → Slot → List ArrayAt
  | [], _ => []
  | v :: vs, slot => arrays v slot ++ eachArrays arrays step vs (slot.add step)

def dimsArrays (arrays : Val → Slot → List ArrayAt) (elem : Nat) :
    List ArrayLength → Val → Slot → List ArrayAt
  | [], v, slot => arrays v slot
  | .fixed _ :: dims, .list vs, slot =>
    eachArrays (dimsArrays arrays elem dims) (dimsSlots elem dims) vs slot
  | .dynamic :: dims, .list vs, slot =>
    ⟨slot, vs.length, dimsSlots elem dims⟩ ::
      eachArrays (dimsArrays arrays elem dims) (dimsSlots elem dims) vs (.elem slot 0)
  | _, _, _ => []

mutual

/-- The dynamic arrays of a value -/
def arraysOf : Ty → Val → Slot → List ArrayAt
  | .array elem dims, v, slot =>
    dimsArrays (fun v slot => arraysOf elem v slot) (slots addressLength elem) dims.reverse v slot
  | .struct fields, .list vs, slot => fieldArrays fields vs slot
  | _, _, _ => []

def fieldArrays : List Ty → List Val → Slot → List ArrayAt
  | field :: fields, v :: vs, slot =>
    arraysOf field v slot ++ fieldArrays fields vs (slot.add (slots addressLength field))
  | _, _, _ => []

end

/-! ### Types -/

mutual

/-- A store of an array's element leaves the slot behind the element. -/
def steps : Ty → Bool
  | .struct fields => stepsAll fields
  | .array elem dims =>
    match dims.reverse with
    | .dynamic :: _ => true
    | _ => steps elem
  | .string | .dynamicBytes | .externalFunction | .internalFunction | .mapping => false
  | _ => true

/-- Strings in structs are stepped over. -/
def stepsAll : List Ty → Bool
  | [] => true
  | field :: fields => (steps field || isString field) && stepsAll fields

end

mutual

/-- No dynamic arrays -/
def flat : Ty → Bool
  | .struct fields => flatAll fields
  | .array elem dims => dims.all (· ≠ .dynamic) && flat elem
  | _ => true

def flatAll : List Ty → Bool
  | [] => true
  | field :: fields => flat field && flatAll fields

end

/-- The dimensions of an array, from the outermost one on -/
def goodDims (elem : Ty) : List ArrayLength → Bool
  | .fixed d :: dims => 0 < d && dims.all (· = .fixed 1) && (d = 1 || steps elem)
  | .dynamic :: dims => dims.all (· = .fixed 1) && steps elem && flat elem
  | [] => false

mutual

/-- Arrays have one dimension (but for those of length one inside it), the store of an
element of an array or a field of a struct leaves the slot behind it unless it is the last one, the
elements of a dynamic array hold no dynamic array, and no internal function is in a struct or
an array. A user type is of integers. -/
def good : Ty → Bool
  | .array elem dims => good elem && goodDims elem dims.reverse
  | .struct fields => goodAll fields
  | .mapping | .internalFunction => false
  | .userType ty => (intBits ty).isSome && !isReferenceType ty
  | _ => true

def goodAll : List Ty → Bool
  | [] => true
  | field :: fields =>
    good field && (fields.isEmpty || steps field || isString field) && goodAll fields

end

/-! ### What storage is for -/

/-- The value is stored, and loaded again over the same slots in the same order; those that are
not behind a hash are the ones that `storage_slots` counts. No other slot changes, but for the
elements that an array no longer has, and these are deleted. -/
structure RoundTrip (ty : Ty) (v : Val) (st : Storage) (slot : Slot)
    (r : Stored) : Prop where
  store : storageStoreSlot addressLength ty false v st slot = some r
  load : ∃ slot', storageLoadSlot addressLength r.storage ty slot = some ⟨v, slot', r.visited⟩
  direct : r.visited.filter slot.Direct = (List.range (slots addressLength ty)).map slot.add
  frame : ∀ x, x ∉ r.visited → ¬Stale st (arraysOf addressLength ty v slot) x → r.storage x = st x
  gone : ∀ x, Stale st (arraysOf addressLength ty v slot) x → r.storage x = none

end

end Solang.Emit.Polkadot
