import Mathlib

/-!
# Types in storage

`storage_slots`, `storage_align`, `align_of` and `struct_offsets` for the types that a state
variable is declared with. A struct is given by its fields and a user type by the type that
it stands for: `sema` rejects a struct that contains itself other than through a mapping or a
dynamic array, and there `struct_offsets` settles on what its body computes from the fields.
The functions are `none` where the source panics.
-/

namespace Solang.Sema.Storage

inductive ArrayLength where
  | fixed (n : Nat)
  | dynamic
  deriving DecidableEq, Repr

/-- The dimensions of an array are given innermost first. A dynamic array and a mapping are the same
in storage whatever they hold. -/
inductive Ty where
  | bool
  | address
  | contract
  | enum
  | int (bits : Nat)
  | uint (bits : Nat)
  | bytes (n : Nat)
  | dynamicBytes
  | string
  | array (elem : Ty) (dims : List ArrayLength)
  | struct (fields : List Ty)
  | mapping
  | internalFunction
  | externalFunction
  | userType (ty : Ty)
  deriving Repr

structure Namespace where
  solana : Bool
  addressLength : Nat

/-- `ptr_size` is in bits. -/
def Namespace.ptrSize (ns : Namespace) : Nat := if ns.solana then 64 else 32

def solanaBucketSize : Nat := 251

def solanaSparseArraySize : Nat := 1024

/-- The part of `dynamic_array_size` for the dimensions from the outermost one on -/
def outerSize : List ArrayLength → Nat
  | .fixed n :: dims => n * outerSize dims
  | _ => 1

/-- `dynamic_array_size`: what comes before the last dynamic dimension does not matter. -/
def dynamicArraySize (dims : List ArrayLength) : Nat := outerSize dims.reverse

/-- The product of the dimensions, where a dynamic one counts as this many -/
def product (dynamic : Nat) (dims : List ArrayLength) : Nat :=
  (dims.map fun
    | .fixed n => n
    | .dynamic => dynamic).prod

/-- `is_sparse_solana` for an array of elements of this size -/
def isSparseSolana (slots : Nat) (dims : List ArrayLength) : Bool :=
  if dims.head? = some .dynamic then false else solanaSparseArraySize ≤ slots * product 4 dims

/-- The next multiple of the alignment -/
def alignUp (offset alignment : Nat) : Nat :=
  let remainder := offset % alignment
  if 0 < remainder then offset + (alignment - remainder) else offset

theorem le_alignUp (offset alignment : Nat) : offset ≤ alignUp offset alignment := by
  unfold alignUp
  simp only
  split <;> omega

theorem dvd_alignUp {a : Nat} (ha : 0 < a) (offset : Nat) : a ∣ alignUp offset a := by
  have hmod := Nat.mod_lt offset ha
  have hdiv := Nat.div_add_mod offset a
  unfold alignUp
  simp only
  split
  next h =>
    refine ⟨offset / a + 1, ?_⟩
    rw [Nat.mul_add]
    omega
  next h => exact Nat.dvd_of_mod_eq_zero (by omega)

/-- Right behind a multiple the next one is a whole step away. -/
theorem alignUp_succ {a offset : Nat} (ha : 0 < a) (h : a ∣ offset) :
    alignUp (offset + 1) a = offset + a := by
  obtain ⟨k, rfl⟩ := h
  unfold alignUp
  simp only [Nat.mul_add_mod]
  obtain rfl | hlt : a = 1 ∨ 1 < a := by omega
  · simp
  · rw [Nat.mod_eq_of_lt hlt]
    simp only [Nat.one_pos, if_true]
    omega

/-- The storage offsets of `struct_offsets` from the alignments and the sizes of the fields -/
def fieldOffsets : Nat → List (Nat × Nat) → List Nat × Nat
  | offset, [] => ([], offset)
  | offset, (alignment, slots) :: fields =>
    let start := alignUp offset alignment
    let (offsets, offset) := fieldOffsets (start + slots) fields
    (start :: offsets, offset)

/-- `struct_offsets`, with the entry for the overall size -/
def structOffsets (fields : List (Nat × Nat)) : List Nat :=
  let (offsets, offset) := fieldOffsets 0 fields
  let largestAlignment := (fields.map (·.1)).foldl max 0
  offsets ++ [if 1 < largestAlignment then alignUp offset largestAlignment else offset]

variable (ns : Namespace)

mutual

/-- `storage_slots` -/
def storageSlots : Ty → Option Nat
  | .array elem dims =>
    if ns.solana then
      if .dynamic ∈ dims then some (dynamicArraySize dims * 4)
      else do
        let slots ← storageSlots elem
        if isSparseSolana slots dims then some (solanaBucketSize * 4)
        else some (slots * product 4 dims)
    else
      if .dynamic ∈ dims then some (dynamicArraySize dims)
      else do
        let slots ← storageSlots elem
        some (slots * product 1 dims)
  | .struct fields =>
    if ns.solana then do
      let fields ← fieldSizes fields
      some ((structOffsets fields).getLast?.getD 0)
    else do
      let fields ← fieldSizes fields
      some (fields.map (·.2)).sum
  | .userType ty => if ns.solana then storageSlots ty else some 1
  | .address | .contract => some (if ns.solana then ns.addressLength else 1)
  | .bytes n => some (if ns.solana then n else 1)
  | .uint bits | .int bits => some (if ns.solana then bits / 8 else 1)
  | .string | .dynamicBytes => some (if ns.solana then 4 else 1)
  | .internalFunction => some (if ns.solana then ns.ptrSize else 1)
  | .externalFunction => some (if ns.solana then ns.addressLength + 4 else 1)
  | .mapping => some (if ns.solana then solanaBucketSize * 4 else 1)
  | .enum | .bool => some 1

/-- `storage_align` before it is cut off at 8 -/
def storageLength : Ty → Option Nat
  | .array elem dims =>
    if .dynamic ∈ dims then some 4
    else do
      let slots ← storageSlots elem
      let length ← storageLength elem
      if isSparseSolana slots dims then some 4 else some (min length 8)
  | .struct fields => do
    let fields ← fieldSizes fields
    some ((fields.map (·.1)).max?.getD 1)
  | .userType _ => none
  | .address | .contract | .externalFunction => some ns.addressLength
  | .bytes n => some n
  | .uint bits | .int bits => some (bits / 8)
  | .string | .dynamicBytes | .mapping => some 4
  | .internalFunction => some ns.ptrSize
  | .enum | .bool => some 1

/-- The alignment and the size of every field -/
def fieldSizes : List Ty → Option (List (Nat × Nat))
  | [] => some []
  | ty :: fields => do
    let slots ← storageSlots ty
    let length ← (if ns.solana then storageLength ty else some 1)
    let fields ← fieldSizes fields
    some ((min length 8, slots) :: fields)

end

/-- `storage_align` -/
def storageAlign (ty : Ty) : Option Nat :=
  if ns.solana then (storageLength ns ty).map (min · 8) else some 1

mutual

/-- `align_of` -/
def alignOf : Ty → Nat
  | .uint bits | .int bits =>
    if bits = 8 then 1 else if bits ≤ 16 then 2 else if bits ≤ 32 then 4 else 8
  | .struct fields => (fieldAligns fields).max?.getD 1
  | .internalFunction => ns.ptrSize
  | _ => 1

def fieldAligns : List Ty → List Nat
  | [] => []
  | ty :: fields => alignOf ty :: fieldAligns fields

end

end Solang.Sema.Storage
