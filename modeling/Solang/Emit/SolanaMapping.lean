import Solang.Lib.Memory

/-!
# Mappings on Solana

`emit/solana/mod.rs`: a mapping, or a large array, is a table of `SOLANA_BUCKET_SIZE` words in
account data. Each is the offset of the first entry of its bucket, and each entry holds its key,
the offset of the next entry and the value. `sparse_lookup_function` is the function that is
generated for a type of keys and a type of values: it finds the entry of a key, or makes one.
The layout of an entry is that of LLVM's type; `account_data_alloc` and `account_data_len` are
parameters. Where the allocator has no room the function returns a code, which ends the
transaction.
-/

namespace Solang.Emit.Solana

/-- `SOLANA_BUCKET_SIZE` -/
def bucketSize : Nat := 251

/-- The types of keys: integers, booleans, enums and fixed bytes are of so many bits; contracts are
addresses, and strings are bytes. -/
inductive KeyTy where
  | int (bits : Nat)
  | address
  | bytes

inductive Key where
  | int (v : Nat)
  | address (data : List UInt8)
  | bytes (data : List UInt8)
deriving DecidableEq

/-- The type of the entries, and what is known of the value's type -/
structure Table where
  keyTy : KeyTy
  /-- The offset of the bucket words -/
  slot : Nat
  /-- The offset of the next field in an entry -/
  nextAt : Nat
  valueAt : Nat
  entryLength : Nat
  /-- The size of the value in storage -/
  valueSize : Nat

structure Allocator where
  /-- `account_data_alloc`: the offset of the block, unless there is no room -/
  alloc : Memory → Nat → Option (Nat × Memory)
  /-- `account_data_len` -/
  len : Memory → Nat → Nat

/-- The number of bytes rounded up to eight -/
def up (n : Nat) : Nat := (n + 7) / 8 * 8

/-! ## Buckets -/

/-- `vector_hash`; the pointer to the data is not advanced. -/
def vectorHash (data : List UInt8) : Nat :=
  data.foldl (fun hash _ => (hash + (data.headD 0).toNat) % 2 ^ 64) 0

/-- `address_hash` -/
def addressHash (data : List UInt8) : Nat :=
  data.foldl (fun hash b => (hash + b.toNat) % 2 ^ 64) 0

/-- The width of the hash in bits, and the hash -/
def hash : KeyTy → Key → Nat × Nat
  | .int bits, .int v => if 64 < bits then (64, v % 2 ^ 64) else (bits, v)
  | _, .bytes data => (64, vectorHash data)
  | _, .address data => (64, addressHash data)
  | _, .int v => (64, v)

/-- The index of the bucket word: `getelementptr` extends its sign. -/
def bucketIndex (ty : KeyTy) (key : Key) : Int :=
  let (width, hash) := hash ty key
  let bucket := hash % (bucketSize % 2 ^ width)
  if bucket < 2 ^ (width - 1) then bucket else bucket - 2 ^ width

namespace Table

variable (T : Table) (al : Allocator)

/-- The address of the bucket word of a key -/
def bucketWord (key : Key) : Nat := (T.slot + 4 * bucketIndex T.keyTy key).toNat

/-- The bytes of a key in its entry -/
def keySize : Nat :=
  match T.keyTy with
  | .int bits => (bits + 7) / 8
  | .address => 32
  | .bytes => 4

/-! ## `sparse_lookup_function` -/

/-- Is this the key of the entry at this offset? -/
def matchesKey (m : Memory) (offset : Nat) : Key → Bool
  | .int v => m.load offset T.keySize = v
  | .address data => m.bytes offset 32 = data
  | .bytes data =>
    let entryKey := m.load offset 4
    al.len m entryKey = data.length && m.bytes entryKey (al.len m entryKey) = data

inductive Found where
  | entry (offset : Nat)
  /-- The end of the bucket: the address of the last offset, which is zero -/
  | last (ptr : Nat)

/-- The loop over the entries of a bucket, from this offset on -/
def walk (m : Memory) (key : Key) : Nat → Nat → Option Found
  | 0, _ => none
  | fuel + 1, ptr =>
    let offset := m.load ptr 4
    if offset = 0 then some (.last ptr)
    else if T.matchesKey al m offset key then some (.entry offset)
    else walk m key fuel (offset + T.nextAt)

/-- The key of a new entry; a string has a block of its own. -/
def setKey (m : Memory) (offset : Nat) : Key → Option Memory
  | .int v => some (m.store offset T.keySize v)
  | .address data => some (m.write offset data)
  | .bytes data => do
    let (keyOffset, m) ← al.alloc m data.length
    let m := m.store offset 4 keyOffset
    some (m.write keyOffset data)

/-- A new entry, with its offset at `ptr` -/
def newEntry (m : Memory) (ptr : Nat) (key : Key) : Option (Nat × Memory) := do
  let (offset, m) ← al.alloc m T.entryLength
  let m := m.store ptr 4 offset
  let m := m.store offset (up T.entryLength) 0
  let m ← T.setKey al m offset key
  some (offset, m)

/-- What a lookup ends with -/
inductive Outcome where
  | value (offset : Nat) (m : Memory)
  /-- The transaction ends with the code of the allocator. -/
  | failed

/-- The lookup of a key, for this many entries: the offset of its value -/
def lookup (m : Memory) (key : Key) (fuel : Nat) : Option Outcome := do
  match ← T.walk al m key fuel (T.bucketWord key) with
  | .entry offset => some (.value (offset + T.valueAt) m)
  | .last ptr =>
    match T.newEntry al m ptr key with
    | some (offset, m) => some (.value (offset + T.valueAt) m)
    | none => some .failed

end Table

end Solang.Emit.Solana
