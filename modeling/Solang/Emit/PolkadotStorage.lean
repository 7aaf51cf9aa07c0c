import Solang.Sema.StorageTypes

/-!
# Storage on Polkadot

`emit/polkadot/storage.rs`: `storage_load_slot`, `storage_store_slot` and `storage_delete_slot` as
the generated code runs them. The host's storage is a map from keys to bytes. A key is a slot, which
is a number or so many slots behind the `keccak256` of another slot; hashes do not collide.

The functions are `none` where the host ends the call (a value does not fit in the buffer), where
the compiler panics, where memory is read as a type that it does not hold and where an address in
memory is stored.
-/

namespace Solang.Emit.Polkadot

open Sema.Storage

/-! ## The host -/

inductive Slot where
  | num (n : Nat)
  /-- The `keccak256` of the slot of an array, and `n` -/
  | elem (array : Slot) (n : Nat)
  deriving DecidableEq

def Slot.add : Slot → Nat → Slot
  | .num n, k => .num (n + k)
  | .elem array n, k => .elem array (n + k)

abbrev Storage := Slot → Option (List UInt8)

/-- `set_storage` and, for `none`, `clear_storage` -/
def Storage.set (st : Storage) (slot : Slot) (data : Option (List UInt8)) : Storage :=
  fun x => if x = slot then data else st x

/-- `get_storage` with a buffer of this size; the value may be missing. -/
def Storage.get (st : Storage) (slot : Slot) (size : Nat) : Option (Option (List UInt8)) :=
  match st slot with
  | none => some none
  | some data => if data.length ≤ size then some (some data) else none

/-! ## Values -/

/-- Values in memory: integers and function pointers; addresses, external functions and strings;
structs and arrays -/
inductive Val where
  | int (n : Nat)
  | bytes (data : List UInt8)
  | list (vs : List Val)

/-- An integer in memory, least significant byte first -/
def toBytes : Nat → Nat → List UInt8
  | 0, _ => []
  | size + 1, n => UInt8.ofNat n :: toBytes size (n / 256)

def ofBytes : List UInt8 → Nat
  | [] => 0
  | b :: data => b.toNat + 256 * ofBytes data

/-- The size of an LLVM integer in memory -/
def sizeOf (bits : Nat) : Nat :=
  let bytes := (bits + 7) / 8
  if bytes ≤ 1 then 1 else if bytes ≤ 2 then 2 else if bytes ≤ 4 then 4 else (bytes + 7) / 8 * 8

/-- The bits of the types that `llvm_type` makes integers of -/
def intBits : Ty → Option Nat
  | .bool => some 1
  | .enum => some 8
  | .int bits | .uint bits => some bits
  | .bytes n => some (8 * n)
  | .mapping => some 256
  | .userType ty => intBits ty
  | _ => none

/-- `is_reference_type` -/
def isReferenceType : Ty → Bool
  | .struct _ | .array .. | .dynamicBytes | .string | .mapping | .externalFunction => true
  | .userType ty => isReferenceType ty
  | _ => false

def isString : Ty → Bool
  | .string | .dynamicBytes => true
  | _ => false

/-- The size of the scratch buffer -/
def scratchSize : Nat := 32 * 1024

/-- `get_storage_int` -/
def getStorageInt (st : Storage) (slot : Slot) (bits : Nat) : Option Nat := do
  match ← st.get slot (sizeOf bits) with
  | none => some 0
  | some data => some (ofBytes data % 2 ^ bits)

section

variable (addressLength : Nat)

/-- `storage_slots` -/
def slots (ty : Ty) : Nat := (storageSlots ⟨false, addressLength⟩ ty).getD 0

/-- What the callers of the store and of the delete add to the slot behind an array's element -/
def elemStep (elem : Ty) : Nat := if isReferenceType elem then 0 else slots addressLength elem

/-- What they add behind a struct's field -/
def fieldStep (field : Ty) : Nat :=
  if !isReferenceType field || isString field then slots addressLength field else 0

/-! ## `storage_load_slot` -/

/-- A value or several, the slot behind them, and the slots that were read, in order -/
structure Loaded (α : Type) where
  val : α
  slot : Slot
  visited : List Slot

/-- The types that are in one slot -/
def loadLeaf (st : Storage) (ty : Ty) (slot : Slot) : Option (Loaded Val) :=
  match ty with
  | .string | .dynamicBytes => do
    let data ← st.get slot scratchSize
    some ⟨.bytes (data.getD []), slot.add 1, [slot]⟩
  | .internalFunction => do
    -- the slot is not advanced
    let n ← getStorageInt st slot 32
    some ⟨.int n, slot, [slot]⟩
  | .externalFunction => do
    let data ← st.get slot (addressLength + 4)
    -- where there is none, the memory is as it was
    let data ← data
    some ⟨.bytes data, slot.add 1, [slot]⟩
  | .address | .contract => do
    let data ← st.get slot addressLength
    some ⟨.bytes (data.getD (List.replicate addressLength 0)), slot.add 1, [slot]⟩
  | ty => do
    let bits ← intBits ty
    let n ← getStorageInt st slot bits
    some ⟨.int n, slot.add 1, [slot]⟩

/-- The body of a loop this many times -/
def loadTimes (load : Slot → Option (Loaded Val)) : Nat → Slot → Option (Loaded (List Val))
  | 0, slot => some ⟨[], slot, []⟩
  | n + 1, slot => do
    let r ← load slot
    let rs ← loadTimes load n r.slot
    some ⟨r.val :: rs.val, rs.slot, r.visited ++ rs.visited⟩

/-- An element of an array whose other dimensions are 1 -/
def wrap : List ArrayLength → Val → Val
  | [], v => v
  | _ :: dims, v => .list [wrap dims v]

/-- Arrays, from the outermost dimension on. Where that is fixed the loop is over `array_deref`, and
its condition is tested behind the body. Where it is dynamic the loop is over the innermost type, and
its values are written to the rows of the array: these are behind the end of the array unless a row is
one element. -/
def loadArray (st : Storage) (load : Slot → Option (Loaded Val)) :
    List ArrayLength → Slot → Option (Loaded Val)
  | [], _ => none
  | .fixed d :: dims, slot => do
    let rs ← loadTimes (if dims.isEmpty then load else loadArray st load dims) (max 1 d) slot
    some ⟨.list rs.val, rs.slot, rs.visited⟩
  | .dynamic :: dims, slot => do
    let size ← getStorageInt st slot 256
    if size % 2 ^ 32 = 0 ∨ dims.all (· = .fixed 1) then
      let rs ← loadTimes load (size % 2 ^ 32) (.elem slot 0)
      some ⟨.list (rs.val.map (wrap dims)), slot.add 1, slot :: rs.visited⟩
    else none

mutual

def storageLoadSlot (st : Storage) : Ty → Slot → Option (Loaded Val)
  | .array elem dims, slot =>
    loadArray st (fun slot => storageLoadSlot st elem slot) dims.reverse slot
  | .struct fields, slot => do
    let rs ← loadFields st fields slot
    some ⟨.list rs.val, rs.slot, rs.visited⟩
  | ty, slot => loadLeaf addressLength st ty slot

def loadFields (st : Storage) : List Ty → Slot → Option (Loaded (List Val))
  | [], slot => some ⟨[], slot, []⟩
  | field :: fields, slot => do
    let r ← storageLoadSlot st field slot
    let rs ← loadFields st fields r.slot
    some ⟨r.val :: rs.val, rs.slot, r.visited ++ rs.visited⟩

end

/-! ## `storage_delete_slot` -/

/-- The loop of a delete, with what the caller adds to the slot -/
def deleteTimes (delete : Storage → Slot → Option (Storage × Slot)) (step : Nat) :
    Nat → Storage → Slot → Option (Storage × Slot)
  | 0, st, slot => some (st, slot)
  | n + 1, st, slot => do
    let (st, slot) ← delete st slot
    deleteTimes delete step n st (slot.add step)

/-- Arrays, by `array_deref`; the slot of a dynamic array is not advanced. -/
def deleteArray (delete : Storage → Slot → Option (Storage × Slot)) (step : Nat) :
    List ArrayLength → Storage → Slot → Option (Storage × Slot)
  | [], _, _ => none
  | .fixed d :: dims, st, slot =>
    if dims.isEmpty then deleteTimes delete step (max 1 d) st slot
    else deleteTimes (deleteArray delete step dims) 0 (max 1 d) st slot
  | .dynamic :: dims, st, slot => do
    let length ← getStorageInt st slot 256
    let (st, _) ← (if dims.isEmpty then deleteTimes delete step length st (.elem slot 0)
      else deleteTimes (deleteArray delete step dims) 0 length st (.elem slot 0))
    some (st.set slot none, slot)

mutual

def storageDeleteSlot : Ty → Storage → Slot → Option (Storage × Slot)
  | .array elem dims, st, slot =>
    deleteArray (fun st slot => storageDeleteSlot elem st slot) (elemStep addressLength elem)
      dims.reverse st slot
  | .struct fields, st, slot => deleteFields fields st slot
  | .mapping, st, slot => some (st, slot)
  | _, st, slot => some (st.set slot none, slot)

def deleteFields : List Ty → Storage → Slot → Option (Storage × Slot)
  | [], st, slot => some (st, slot)
  | field :: fields, st, slot => do
    let (st, slot) ← storageDeleteSlot field st slot
    deleteFields fields st (slot.add (fieldStep addressLength field))

end

/-! ## `storage_store_slot` -/

/-- The storage, the slot, and the slots that were set, in order -/
structure Stored where
  storage : Storage
  slot : Slot
  visited : List Slot

/-- One after the other -/
def Stored.andThen (r rs : Stored) : Stored := ⟨rs.storage, rs.slot, r.visited ++ rs.visited⟩

def setSlot (st : Storage) (slot : Slot) (data : Option (List UInt8)) : Stored :=
  ⟨st.set slot data, slot, [slot]⟩

/-- The types that are in one slot. An internal function in a struct or an array is not loaded from
there: what is stored is the address of the field or the element. -/
def storeLeaf (ty : Ty) (inside : Bool) (v : Val) (st : Storage) (slot : Slot) : Option Stored :=
  match ty, v with
  | .string, .bytes data | .dynamicBytes, .bytes data =>
    some (setSlot st slot (if data.isEmpty then none else some data))
  | .internalFunction, .int n =>
    if inside then none else some (setSlot st slot (some (toBytes (sizeOf 32) n)))
  | .externalFunction, .bytes data | .address, .bytes data | .contract, .bytes data =>
    some (setSlot st slot (some data))
  | ty, .int n => do
    let bits ← intBits ty
    some (setSlot st slot (some (toBytes (sizeOf bits) n)))
  | _, _ => none

def storeEach (store : Val → Storage → Slot → Option Stored) (step : Nat) :
    List Val → Storage → Slot → Option Stored
  | [], st, slot => some ⟨st, slot, []⟩
  | v :: vs, st, slot => do
    let r ← store v st slot
    let rs ← storeEach store step vs r.storage (r.slot.add step)
    some (r.andThen rs)

/-- The innermost elements of a row; a dynamic array in it is a pointer. -/
def innermost : List ArrayLength → Val → Option (List Val)
  | [], v => some [v]
  | .fixed _ :: dims, .list vs => (vs.mapM (innermost dims)).map List.flatten
  | _, _ => none

/-- Arrays, from the outermost dimension on: the loop is over the innermost type, which is at the
start of each row of a fixed array, and one behind the other in a dynamic array. -/
def storeArray (store : Val → Storage → Slot → Option Stored)
    (delete : Storage → Slot → Option (Storage × Slot)) (step : Nat) :
    List ArrayLength → Val → Storage → Slot → Option Stored
  | .fixed d :: dims, .list vs, st, slot => do
    let rows ← vs.mapM (innermost dims)
    let elems ← rows.mapM List.head?
    if elems.length = max 1 d then storeEach store step elems st slot else none
  | .dynamic :: dims, .list vs, st, slot => do
    let previousSize ← getStorageInt st slot 256
    let rows ← vs.mapM (innermost dims)
    let r := setSlot st slot (some (toBytes (sizeOf 256) vs.length))
    let rs ← storeEach store step (rows.flatten.take vs.length) r.storage (.elem slot 0)
    -- the trailing elements are cleared
    let (st, _) ← deleteTimes delete step (previousSize % 2 ^ 32 - vs.length) rs.storage rs.slot
    some ⟨st, slot.add 1, slot :: rs.visited⟩
  | _, _, _, _ => none

mutual

def storageStoreSlot : Ty → Bool → Val → Storage → Slot → Option Stored
  | .array elem dims, _, v, st, slot =>
    storeArray (fun v st slot => storageStoreSlot elem true v st slot)
      (storageDeleteSlot addressLength elem) (elemStep addressLength elem) dims.reverse v st slot
  | .struct fields, _, .list vs, st, slot => storeFields fields vs st slot
  | .struct _, _, _, _, _ => none
  | ty, inside, v, st, slot => storeLeaf ty inside v st slot

def storeFields : List Ty → List Val → Storage → Slot → Option Stored
  | [], [], st, slot => some ⟨st, slot, []⟩
  | field :: fields, v :: vs, st, slot => do
    let r ← storageStoreSlot field true v st slot
    let rs ← storeFields fields vs r.storage
      (r.slot.add (fieldStep addressLength field))
    some (r.andThen rs)
  | _, _, _, _ => none

end

end

end Solang.Emit.Polkadot
