import Mathlib

/-!
# Storage on Soroban

`emit/soroban/target.rs`: storage is a map of the host, from values to values. A value is a
word with a tag in its low byte, and stands for itself or for an object of the host. The host
is not part of the repository: its functions are a parameter, and are `none` where the host
stops the contract. The functions of this module are the code that is generated, on the state
of the host.
-/

namespace Solang.Emit.Soroban

abbrev Val := BitVec 64

def Val.tag (v : Val) : Nat := v.toNat % 256

/-- From here on the tags are those of objects. -/
def objectTag : Nat := 64

inductive Ty where
  | bool
  | uint (bits : Nat)
  | int (bits : Nat)
  | string
  | address
  | void
  | other
deriving DecidableEq

/-- What is stored: a value, or a struct with these fields -/
inductive Stored where
  | scalar (ty : Ty)
  | struct (fields : List Ty)

inductive StorageType where
  | temporary
  | persistent
  | instance_

/-- `HostFunctions`, those that storage uses -/
structure Host (σ : Type) where
  vectorNew : σ → Option (Val × σ)
  vecPushBack : Val → Val → σ → Option (Val × σ)
  hasContractData : Val → Nat → σ → Option Val
  getContractData : Val → Nat → σ → Option (Val × σ)
  putContractData : Val → Val → Nat → σ → Option σ
  /-- `ObjToU128Lo64` and the others of its kind: the words of a large integer, the lowest first -/
  objToPieces : Ty → Val → σ → Option (List (BitVec 64))

/-- `storage_type_to_int` -/
def storageTypeToInt : Option StorageType → Nat
  | some .temporary => 0
  | some .persistent => 1
  | some .instance_ => 2
  | none => 1

/-- `encode_value` -/
def encodeValue (value : Val) (shift add : Nat) : Val := value <<< shift + BitVec.ofNat 64 add

/-- `is_val_true` -/
def isValTrue (v : Val) : Bool := v &&& 0xff = 1

/-- `type_to_tagged_zero_val` -/
def typeToTaggedZeroVal : Ty → Val
  | .bool => 0
  | .uint 32 => 4
  | .int 32 => 5
  | .uint 64 => 6
  | .int 64 => 7
  | .uint 128 => 10
  | .int 128 => 11
  | .uint 256 => 12
  | .int 256 => 13
  | .string => 73
  | .address => 77
  | _ => 2

/-- A number that codegen puts into a key, as an integer of 32 bits -/
def encodeU32 (n : Nat) : Val := encodeValue ((BitVec.ofNat 32 n).setWidth 64) 32 4

section Code

variable {σ : Type} (h : Host σ)

/-- `storage_subscript`: a new vector of the slot and the index -/
def storageSubscript (slot index : Val) (s : σ) : Option (Val × σ) := do
  let (v, s) ← h.vectorNew s
  let (v, s) ← h.vecPushBack v (encodeValue slot 32 4) s
  h.vecPushBack v index s

/-- `StructMember` of codegen: the key with the field behind it -/
def structMember (key : Val) (offset : Nat) (s : σ) : Option (Val × σ) :=
  h.vecPushBack key (encodeU32 offset) s

/-- `soroban_put_fields_from_val_buffer`, from this field on -/
def putFields (key : Val) (storageType : Nat) : Nat → List Val → σ → Option σ
  | _, [], s => some s
  | i, v :: vs, s => do
    let (fieldKey, s) ← h.vecPushBack key (encodeU32 i) s
    let s ← h.putContractData fieldKey v storageType s
    putFields key storageType (i + 1) vs s

/-- `soroban_get_fields_to_val_buffer`, this many fields; the buffer is zero at first. -/
def getFields (key : Val) (storageType : Nat) : Nat → Nat → σ → Option (List Val × σ)
  | _, 0, s => some ([], s)
  | i, n + 1, s => do
    let (fieldKey, s) ← h.vecPushBack key (encodeU32 i) s
    let has ← h.hasContractData fieldKey storageType s
    let (v, s) ← (if isValTrue has then h.getContractData fieldKey storageType s else some (0, s))
    let (vs, s) ← getFields key storageType (i + 1) n s
    some (v :: vs, s)

/-- `storage_load` -/
def storageLoad (ty : Stored) (slot : Val) (storageType : Nat) (s : σ) : Option (List Val × σ) :=
  match ty with
  | .struct fields => getFields h slot storageType 0 fields.length s
  | .scalar ty => do
    let has ← h.hasContractData slot storageType s
    if isValTrue has then do
      let (v, s) ← h.getContractData slot storageType s
      some ([v], s)
    else some ([typeToTaggedZeroVal ty], s)

/-- `storage_store`; `dest` has one value, or those of the fields. -/
def storageStore (ty : Stored) (slot : Val) (dest : List Val) (storageType : Nat) (s : σ) : Option σ :=
  match ty, dest with
  | .struct _, dest => putFields h slot storageType 0 dest s
  | .scalar _, [v] => h.putContractData slot v storageType s
  | .scalar _, _ => none

/-- `soroban_decode_arg`, for booleans and integers -/
def decode (ty : Ty) (v : Val) (s : σ) : Option Int :=
  let large (bits : Nat) : Option (BitVec bits) := do
    let pieces ← h.objToPieces ty v s
    some (pieces.foldr (fun piece n => n <<< 64 + piece.setWidth bits) 0)
  match ty with
  | .bool => some (if v = 0 then 0 else 1)
  | .uint 32 => some ((v >>> 32).setWidth 32).toNat
  | .int 32 => some ((v.sshiftRight 32).setWidth 32).toInt
  | .uint 64 => some (v >>> 8).toNat
  | .int 64 => some (v.sshiftRight 8).toInt
  | .uint 128 => if v &&& 0xff = 10 then some (v >>> 8).toNat else (large 128).map fun n => n.toNat
  | .int 128 => if v &&& 0xff = 11 then some (v >>> 8).toNat else (large 128).map fun n => n.toInt
  | .uint 256 => (large 256).map fun n => n.toNat
  | .int 256 => (large 256).map fun n => n.toInt
  | _ => none

/-! ## Access paths -/

/-- The index of a mapping: an integer is passed as it is, a string or an address by its handle. -/
inductive Index where
  | int (n : Val)
  | handle (v : Val)

def Index.val : Index → Val
  | .int n => n
  | .handle v => v

inductive Step where
  | key (index : Index)
  | field (offset : Nat)

/-- The expression that names a place in storage: the slot of a variable, then indices and fields -/
structure Place where
  slot : Nat
  steps : List Step

/-- The key of a place -/
def access : List Step → Val → σ → Option (Val × σ)
  | [], key, s => some (key, s)
  | .key index :: steps, key, s => do
    let (key, s) ← storageSubscript h key index.val s
    access steps key s
  | .field offset :: steps, key, s => do
    let (key, s) ← structMember h key offset s
    access steps key s

/-- `storage_type` of codegen: only a variable by itself has one. -/
def storageType (types : Nat → Option StorageType) (place : Place) : Option StorageType :=
  if place.steps.isEmpty then types place.slot else none

/-- What a contract does with its storage; between that the host may do anything else. -/
inductive Op (σ : Type) where
  | store (place : Place) (ty : Stored) (dest : List Val)
  | load (place : Place) (ty : Stored)
  | other (f : σ → σ)

variable (types : Nat → Option StorageType)

/-- What is loaded, and the host afterwards -/
def exec (op : Op σ) (s : σ) : Option (List Val × σ) :=
  match op with
  | .store place ty dest => do
    let (key, s) ← access h place.steps (BitVec.ofNat 64 place.slot) s
    let s ← storageStore h ty key dest (storageTypeToInt (storageType types place)) s
    some ([], s)
  | .load place ty => do
    let (key, s) ← access h place.steps (BitVec.ofNat 64 place.slot) s
    storageLoad h ty key (storageTypeToInt (storageType types place)) s
  | .other f => some ([], f s)

end Code

end Solang.Emit.Soroban

/-!
## Storage on Soroban is a map from access paths

What the host is assumed to do (`Lawful`): vectors do not change, and contract data is a map
whose keys are compared by what they stand for. A path is a variable with the keys and the
fields that lead to a place. The key that the code builds for a path stands for that path as
long as there is one index at most: the vector of an inner mapping starts with the word that
the handle of the outer vector happens to be.
-/

namespace Solang.Emit.Soroban

/-- What a value stands for -/
inductive Item where
  | word (v : Val)
  | object (tag content : Nat)
  | vec (items : List Item)

/-- After `n` calls values still stand for the same, and there is room for `n` calls less. -/
structure Extends {σ : Type} (denotes : σ → Val → Option Item) (room : σ → Nat → Prop) (n : Nat)
    (s s' : σ) : Prop where
  denotes : ∀ v item, denotes s v = some item → denotes s' v = some item
  room : ∀ m, room s (m + n) → room s' m

/-- The assumptions on the host: `denotes` is what a value stands for, `data` is contract data,
and `room s n` says that the host does not stop the contract in its next `n` calls. -/
structure Lawful {σ : Type} (h : Host σ) where
  denotes : σ → Val → Option Item
  data : σ → Nat → Item → Option Item
  room : σ → Nat → Prop
  small : ∀ s v, v.tag < objectTag → denotes s v = some (.word v)
  room_mono : ∀ s m n, m ≤ n → room s n → room s m
  vectorNew : ∀ s, room s 1 → ∃ v s', h.vectorNew s = some (v, s') ∧
    denotes s' v = some (.vec []) ∧ data s' = data s ∧ Extends denotes room 1 s s'
  vecPushBack : ∀ s v x items item, room s 1 → denotes s v = some (.vec items) →
    denotes s x = some item → ∃ v' s', h.vecPushBack v x s = some (v', s') ∧
      denotes s' v' = some (.vec (items ++ [item])) ∧ data s' = data s ∧ Extends denotes room 1 s s'
  hasContractData : ∀ s v t key, denotes s v = some key →
    h.hasContractData v t s = some (if (data s t key).isSome then 1 else 0)
  getContractData : ∀ s v t key item, room s 1 → denotes s v = some key → data s t key = some item →
    ∃ x s', h.getContractData v t s = some (x, s') ∧ denotes s' x = some item ∧
      data s' = data s ∧ Extends denotes room 1 s s'
  putContractData : ∀ s v x t key item, room s 1 → denotes s v = some key →
    denotes s x = some item → ∃ s', h.putContractData v x t s = some s' ∧
      data s' t key = some item ∧
      (∀ t' key', ¬(t' = t ∧ key' = key) → data s' t' key' = data s t' key') ∧
      Extends denotes room 1 s s'

/-! ### Paths -/

inductive PathStep where
  | key (item : Item)
  | field (n : Nat)

/-- A state variable, by its slot, with keys and fields -/
structure Path where
  slot : Nat
  steps : List PathStep

def Path.field (p : Path) (n : Nat) : Path := ⟨p.slot, p.steps ++ [.field n]⟩

/-- The values at a path, each with its type -/
def Path.cells (p : Path) : Stored → List (Path × Ty)
  | .scalar ty => [(p, ty)]
  | .struct fields => fields.zipIdx.map fun f => (p.field f.2, f.1)

section Spec

variable {σ : Type} {h : Host σ} (L : Lawful h)

/-- The key of the source that an index is: an integer is itself. -/
def Index.item (s : σ) : Index → Option Item
  | .int n => some (.word n)
  | .handle v => L.denotes s v

def pathSteps (s : σ) : List Step → Option (List PathStep)
  | [] => some []
  | .key index :: steps => do
    let item ← index.item L s
    let steps ← pathSteps s steps
    some (.key item :: steps)
  | .field n :: steps => do
    let steps ← pathSteps s steps
    some (.field n :: steps)

/-- What was last stored at each path -/
abbrev Contents := Path → Option Item

open Classical in
/-- Store these values at these paths. -/
noncomputable def write (A : Contents) : List (Path × Ty) → List Item → Contents
  | cell :: cells, item :: items => write (Function.update A cell.1 (some item)) cells items
  | _, _ => A

/-- These values are what was last stored at these paths, or decode to zero if nothing was. -/
def Loaded (A : Contents) (s : σ) : List (Path × Ty) → List Val → Prop
  | [], [] => True
  | (p, ty) :: cells, v :: vs =>
    (match A p with
      | some item => L.denotes s v = some item
      | none => decode h ty v s = some 0) ∧ Loaded A s cells vs
  | _, _ => False

/-- Where a place is -/
def Place.path (s : σ) (place : Place) : Option Path :=
  (pathSteps L s place.steps).map (⟨place.slot, ·⟩)

/-- What the paths hold after this -/
noncomputable def after (A : Contents) (s : σ) : Op σ → Contents
  | .store place ty dest =>
    match place.path L s with
    | some p => write A (p.cells ty) (dest.filterMap (L.denotes s))
    | none => A
  | _ => A

/-- What is loaded at a path is what is there. -/
def LoadOk (A : Contents) (s s' : σ) (r : List Val) : Op σ → Prop
  | .load place ty => ∃ p, place.path L s = some p ∧ Loaded L A s' (p.cells ty) r
  | _ => True

variable (types : Nat → Option StorageType)

/-- Every operation returns, and every load returns what is at its path. -/
def Correct : σ → Contents → List (Op σ) → Prop
  | _, _, [] => True
  | s, A, op :: ops => ∃ r s', exec h types op s = some (r, s') ∧ LoadOk L A s s' r op ∧
    Correct s' (after L A s op) ops

/-! ### Conditions -/

def Stored.count : Stored → Nat
  | .scalar _ => 1
  | .struct fields => fields.length

/-- Indices and values stand for something, and the host does not stop the contract. -/
def Valid (s : σ) : Op σ → Prop
  | .store place ty dest => (place.path L s).isSome ∧ dest.length = ty.count ∧
    (∀ v ∈ dest, (L.denotes s v).isSome) ∧ L.room s (4 + 2 * ty.count)
  | .load place ty => (place.path L s).isSome ∧ L.room s (4 + 2 * ty.count)
  | .other f => L.data (f s) = L.data s

def Index.Plain : Index → Prop
  | .int n => n.tag < objectTag
  | .handle _ => True

/-- One index at most, of a variable whose slot fits in 32 bits; what is a key by itself has no tag
of an object. -/
def Place.Plain (place : Place) (ty : Stored) : Prop :=
  place.slot < 2 ^ 32 ∧
    match place.steps, ty with
    | [], .scalar _ => place.slot % 256 < objectTag
    | [.key index], .scalar _ => index.Plain
    | [.key index], .struct fields => index.Plain ∧ fields.length ≤ 2 ^ 32
    | [.key index, .field n], .scalar _ => index.Plain ∧ n < 2 ^ 32
    | _, _ => False

/-- The types whose value is zero where nothing was stored: a field is the word zero then. -/
def Ty.ZeroField (ty : Ty) : Prop :=
  ty = .bool ∨ ty = .uint 32 ∨ ty = .int 32 ∨ ty = .uint 64 ∨ ty = .int 64

def Ty.ZeroScalar (ty : Ty) : Prop := ty.ZeroField ∨ ty = .uint 128 ∨ ty = .int 128

def Stored.ZeroOk (A : Contents) (p : Path) : Stored → Prop
  | .scalar ty => A p = none → ty.ZeroScalar
  | .struct fields => ∀ c ∈ p.cells (.struct fields), A c.1 = none → c.2.ZeroField

def Plain (A : Contents) (s : σ) : Op σ → Prop
  | .store place ty _ => place.Plain ty
  | .load place ty => place.Plain ty ∧ ∀ p, place.path L s = some p → ty.ZeroOk A p
  | .other _ => True

/-- Every operation of the run meets the condition. -/
def Along (P : Contents → σ → Op σ → Prop) : σ → Contents → List (Op σ) → Prop
  | _, _, [] => True
  | s, A, op :: ops => P A s op ∧
    ∀ r s', exec h types op s = some (r, s') → Along P s' (after L A s op) ops

end Spec

end Solang.Emit.Soroban
