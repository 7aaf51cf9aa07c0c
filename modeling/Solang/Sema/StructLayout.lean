import Solang.Sema.StorageTypes
import Solang.Sema.StructRecursion

/-!
# The layout of structs

`struct_offsets` with the sizes and the alignments that it uses. In storage on Solana and in memory the
size of a struct is read off the offsets found so far, so the offsets of all structs are computed until
they no longer change.
-/

namespace Solang.Sema.Structs

inductive Panic where
  | unreachable
  | unimplemented
  | unknownLength
  | indexOutOfBounds
  | divisionByZero
  deriving DecidableEq, Repr

/-- `none` when the fuel runs out -/
abbrev Run (α : Type) := ExceptT Panic Option α

def outOfFuel {α : Type} : Run α := ExceptT.mk none

def orPanic {α : Type} (panic : Panic) : Option α → Run α
  | some x => pure x
  | none => throw panic

/-! ## Arrays -/

def ArrayLength.fixedLength : ArrayLength → Option Nat
  | fixed n => some n
  | dynamic | anyFixed => none

/-- The product of the dimensions, none of which is dynamic -/
def fixedProduct (dims : List ArrayLength) : Option Nat := (dims.mapM ArrayLength.fixedLength).map List.prod

/-- The part of `dynamic_array_size` for the dimensions from the outermost one on -/
def outerSize : List ArrayLength → Option Nat
  | .fixed n :: dims => (outerSize dims).map (n * ·)
  | .anyFixed :: _ => none
  | .dynamic :: _ | [] => some 1

def dynamicArraySize (dims : List ArrayLength) : Option Nat := outerSize dims.reverse

/-- `deref_any` -/
def Ty.deref : Ty → Ty
  | .storageRef _ ty | .ref ty => ty
  | ty => ty

variable (ns : Namespace)

/-! ## In memory -/

def alignOf : Nat → Ty → Run Nat
  | 0, _ => outOfFuel
  | fuel + 1, ty =>
    match ty with
    | .uint n | .int n => pure (if n = 8 then 1 else if n ≤ 16 then 2 else if n ≤ 32 then 4 else 8)
    | .struct strTy => do
      let decl ← orPanic .unreachable (strTy.definition ns)
      let aligns ← (decl.fields.filter (!·.infiniteSize)).mapM fun field => alignOf fuel field.ty
      return aligns.max?.getD 1
    | .internalFunction => pure ns.target.ptrSize
    | _ => pure 1

def solanaStorageSize : Nat → Ty → Run Nat
  | 0, _ => outOfFuel
  | fuel + 1, ty =>
    match ty with
    | .array elem dims =>
      if .dynamic ∈ dims then return (← orPanic .unreachable (dynamicArraySize dims)) * 4
      else return (← solanaStorageSize fuel elem) * (← orPanic .unknownLength (fixedProduct dims))
    | .struct strTy => do
      let decl ← orPanic .unreachable (strTy.definition ns)
      return decl.offsets.getLast?.getD 0
    | .string | .dynamicBytes => pure 4
    | .ref ty | .storageRef _ ty => solanaStorageSize fuel ty
    | .userType no => do
      let ty ← orPanic .indexOutOfBounds ns.userTypes[no]?
      solanaStorageSize fuel ty.ty
    -- the same in storage as in memory
    | _ => memorySizeOf ns fuel ty

/-! ## In storage -/

mutual

def storageSlots : Nat → Ty → Run Nat
  | 0, _ => outOfFuel
  | fuel + 1, ty =>
    if ns.target = .solana then
      match ty with
      | .enum _ | .bool => pure 1
      | .contract _ | .address _ => pure ns.addressLength
      | .bytes n => pure n
      | .value => pure ns.valueLength
      | .uint n | .int n => pure (n / 8)
      | .rational => throw .unreachable
      | .array elem dims => do
        if .dynamic ∈ dims then return (← orPanic .unreachable (dynamicArraySize dims)) * 4
        else if ← isSparseSolana fuel ty then return Storage.solanaBucketSize * 4
        else return (← storageSlots fuel elem) * (← orPanic .unknownLength (product 4 dims))
      | .struct strTy => do
        let decl ← orPanic .unreachable (strTy.definition ns)
        return decl.storageOffsets.getLast?.getD 0
      | .string | .dynamicBytes => pure 4
      | .internalFunction => pure ns.target.ptrSize
      | .externalFunction => pure (ns.addressLength + 4)
      | .mapping _ _ => pure (Storage.solanaBucketSize * 4)
      | .ref ty | .storageRef _ ty => storageSlots fuel ty
      | .unresolved => pure 1
      | .userType no => do
        let ty ← orPanic .indexOutOfBounds ns.userTypes[no]?
        storageSlots fuel ty.ty
      | _ => throw .unimplemented
    else
      match ty with
      | .storageRef _ ty | .ref ty => storageSlots fuel ty
      | .struct strTy => do
        let decl ← orPanic .unreachable (strTy.definition ns)
        let slots ← (decl.fields.filter (!·.infiniteSize)).mapM fun field => storageSlots fuel field.ty
        return slots.sum
      | .array elem dims => do
        if .dynamic ∈ dims then orPanic .unreachable (dynamicArraySize dims)
        else return (← storageSlots fuel elem) * (← orPanic .unreachable (product 1 dims))
      | _ => pure 1

def isSparseSolana : Nat → Ty → Run Bool
  | 0, _ => outOfFuel
  | fuel + 1, ty =>
    match ty.deref with
    | .mapping _ _ => pure true
    | .array elem dims =>
      if dims.head? = some .dynamic then pure false
      else do
        let slots ← storageSlots fuel elem
        -- a dimension that is not fixed counts as a pointer
        let lengths := dims.map fun dim => dim.fixedLength.getD 4
        return Storage.solanaSparseArraySize ≤ slots * lengths.prod
    | _ => pure false

end

section

-- derives the equations once, before the many proofs that rewrite with them
attribute [local simp] storageSlots

end

def storageAlign : Nat → Ty → Run Nat
  | 0, _ => outOfFuel
  | fuel + 1, ty =>
    if ns.target = .solana then do
      let length ← match ty with
        | .enum _ | .bool => pure 1
        | .contract _ | .address _ => pure ns.addressLength
        | .bytes n => pure n
        | .value => pure ns.valueLength
        | .uint n | .int n => pure (n / 8)
        | .rational => throw .unreachable
        | .array elem dims => do
          if .dynamic ∈ dims then pure 4
          else if ← isSparseSolana ns fuel ty then pure 4
          else storageAlign fuel elem
        | .struct strTy => do
          let decl ← orPanic .unreachable (strTy.definition ns)
          let aligns ← (decl.fields.filter (!·.infiniteSize)).mapM fun field => storageAlign fuel field.ty
          pure (aligns.max?.getD 1)
        | .string | .dynamicBytes => pure 4
        | .internalFunction => pure ns.target.ptrSize
        | .externalFunction => pure ns.addressLength
        | .mapping _ _ => pure 4
        | .ref ty | .storageRef _ ty => storageAlign fuel ty
        | .unresolved => pure 1
        | _ => throw .unimplemented
      return min length 8
    else pure 1

/-! ## Offsets -/

/-- To align with 0 is to divide by 0. -/
def checkAlignment (alignment : Nat) : Run Nat := if alignment = 0 then throw .divisionByZero else pure alignment

/-- The alignment of a field in memory, with the size that it counts for -/
def memoryField (fuel : Nat) (field : Field) : Run (Nat × Nat) := do
  let alignment ← alignOf ns fuel field.ty
  let alignment ← checkAlignment alignment
  if !field.infiniteSize && ns.target = .solana then return (alignment, ← solanaStorageSize ns fuel field.ty)
  else return (alignment, 0)

def memoryOffsets (fuel : Nat) (fields : List Field) : Run (List Nat) := do
  return Storage.structOffsets (← fields.mapM (memoryField ns fuel))

def storageField (fuel : Nat) (field : Field) : Run (Nat × Nat) := do
  let alignment ← storageAlign ns fuel field.ty
  let alignment ← checkAlignment alignment
  return (alignment, ← storageSlots ns fuel field.ty)

def storageOffsets (fuel : Nat) (fields : List Field) : Run (List Nat) := do
  return Storage.structOffsets (← (fields.filter (!·.infiniteSize)).mapM (storageField ns fuel))

def Namespace.setStruct (no : Nat) (decl : StructDecl) : Namespace := { ns with structs := ns.structs.set no decl }

/-- The body of the loop over the structs; the flag is whether there were changes. -/
def updateStruct (fuel : Nat) (s : Namespace × Bool) (no : Nat) : Run (Namespace × Bool) := do
  let (ns, changes) := s
  let decl ← orPanic .indexOutOfBounds ns.structs[no]?
  let offsets ← memoryOffsets ns fuel decl.fields
  let (ns, decl, changes) :=
    if decl.offsets ≠ offsets then
      let decl := { decl with offsets }
      (ns.setStruct no decl, decl, true)
    else (ns, decl, changes)
  let storageOffsets ← storageOffsets ns fuel decl.fields
  if decl.storageOffsets ≠ storageOffsets then return (ns.setStruct no { decl with storageOffsets }, true)
  else return (ns, changes)

def structOffsets : Nat → Namespace → Run Namespace
  | 0, _ => outOfFuel
  | fuel + 1, ns => do
    let (ns, changes) ← (List.range ns.structs.length).foldlM (updateStruct fuel) (ns, false)
    if changes then structOffsets fuel ns else return ns

end Solang.Sema.Structs
