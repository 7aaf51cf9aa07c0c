import Solang.Emit.SolanaMapping

/-!
# Runs of lookups

What is assumed of the allocator (`Contract`), and what a mapping is for: over every sequence of
lookups equal keys have the same value, different keys have values apart from each other, a value
is zero at first, and a lookup leaves everything alone that is not the mapping's own.
-/

namespace Solang.Emit.Solana

open Memory

/-- An offset and a length -/
abbrev Block := Nat × Nat

/-- The byte is in the block, or in the padding behind it. -/
def Block.Has (b : Block) (x : Nat) : Prop := b.1 ≤ x ∧ x < b.1 + up b.2

/-- The contract of `account_data_alloc`: the storage variables are from `base` to `fixed`, and the
heap is behind them. `Holds m bs` says that the blocks `bs` are allocated. -/
structure Contract (al : Allocator) (base fixed : Nat) where
  Holds : Memory → List Block → Prop
  perm : ∀ {m : Memory} {bs bs' : List Block}, Holds m bs → bs.Perm bs' → Holds m bs'
  bound : ∀ {m : Memory} {bs : List Block}, Holds m bs → ∀ b ∈ bs,
    0 < b.2 ∧ fixed ≤ b.1 ∧ b.1 + up b.2 < 2 ^ 31
  apart : ∀ {m : Memory} {bs : List Block}, Holds m bs →
    bs.Pairwise fun b c => b.1 + up b.2 ≤ c.1 ∨ c.1 + up c.2 ≤ b.1
  frame : ∀ {m m' : Memory} {bs : List Block}, Holds m bs →
    (∀ x, m' x ≠ m x → (base ≤ x ∧ x < fixed) ∨ ∃ b ∈ bs, Block.Has b x) → Holds m' bs
  len : ∀ {m : Memory} {bs : List Block}, Holds m bs → ∀ b ∈ bs, al.len m b.1 = b.2
  len_zero : ∀ m, al.len m 0 = 0
  alloc_zero : ∀ m, al.alloc m 0 = some (0, m)
  alloc : ∀ {m m' : Memory} {bs : List Block} {n b : Nat}, Holds m bs → 0 < n → n < 2 ^ 31 →
    al.alloc m n = some (b, m') → Holds m' ((b, n) :: bs) ∧
      ∀ x, (x < fixed ∨ ∃ c ∈ bs, Block.Has c x) → m' x = m x

/-! ## States -/

/-- What is known of an entry: its key and its offset, and the offset of a string -/
structure Entry where
  key : Key
  offset : Nat
  keyOffset : Nat

/-- Account data, the entries that were made, and the blocks of other variables -/
structure State where
  mem : Memory
  entries : List Entry
  others : List Block

namespace Table

variable (T : Table)

/-- The blocks of an entry: a string has one unless it is empty. -/
def blocks (e : Entry) : List Block :=
  (e.offset, T.entryLength) ::
    match e.key with
    | .bytes (b :: data) => [(e.keyOffset, (b :: data).length)]
    | _ => []

def owned (entries : List Entry) : List Block := entries.flatMap T.blocks

/-- A lookup with what it adds to the entries -/
def look (al : Allocator) (s : State) (key : Key) (fuel : Nat) : Option (Option (Nat × State)) := do
  match ← T.lookup al s.mem key fuel with
  | .failed => some none
  | .value v m =>
    if s.entries.any (·.key = key) then some (some (v, { s with mem := m }))
    else
      let offset := v - T.valueAt
      some (some (v, ⟨m, s.entries ++ [⟨key, offset, m.load offset 4⟩], s.others⟩))

/-- A key of the table's type; strings are of less than `2 ^ 31` bytes. -/
def KeyOk : Key → Prop
  | .int v => ∃ bits, T.keyTy = .int bits ∧ v < 2 ^ bits
  | .address data => T.keyTy = .address ∧ data.length = 32
  | .bytes data => T.keyTy = .bytes ∧ data.length < 2 ^ 31

/-- The layout of entries: the fields do not overlap, and the bucket words are a variable. -/
structure Ok (base fixed : Nat) : Prop where
  key : T.keySize ≤ T.nextAt
  next : T.nextAt + 4 ≤ T.valueAt
  value : T.valueAt ≤ T.entryLength
  length : T.entryLength < 2 ^ 31
  base : base ≤ T.slot
  slot : 0 < T.slot
  fixed : T.slot + 4 * bucketSize ≤ fixed
  width : ∀ bits, T.keyTy = .int bits → bits = 1 ∨ (8 ≤ bits ∧ bits % 8 = 0)

/-! ## What a mapping is -/

/-- The value of this entry -/
def Value (e : Entry) (x : Nat) : Prop :=
  e.offset + T.valueAt ≤ x ∧ x < e.offset + T.valueAt + T.valueSize

/-- A lookup of a key that is in the table returns the value of its entry and changes nothing. -/
def Again (s : State) (key : Key) (v : Nat) (s' : State) : Prop :=
  s' = s ∧ ∃ e ∈ s.entries, e.key = key ∧ v = e.offset + T.valueAt

/-- A lookup of another key makes an entry. Its value is zero, apart from the other values, from the
storage variables and from the blocks of others; and these stay as they are, but for the bucket
words. -/
structure First (fixed : Nat) (s : State) (key : Key) (v : Nat) (s' : State) : Prop where
  fresh : ∀ e ∈ s.entries, e.key ≠ key
  entries : ∃ e, e.key = key ∧ v = e.offset + T.valueAt ∧ s'.entries = s.entries ++ [e]
  others : s'.others = s.others
  zero : ∀ x, v ≤ x → x < v + T.valueSize → s'.mem x = 0
  apart : ∀ x, v ≤ x → x < v + T.valueSize → fixed ≤ x ∧ (∀ b ∈ s.others, ¬Block.Has b x) ∧
    ∀ e ∈ s.entries, ¬T.Value e x
  storage : ∀ x < fixed, ¬(T.slot ≤ x ∧ x < T.slot + 4 * bucketSize) → s'.mem x = s.mem x
  blocks : ∀ b ∈ s.others, ∀ x, Block.Has b x → s'.mem x = s.mem x
  values : ∀ e ∈ s.entries, ∀ x, T.Value e x → s'.mem x = s.mem x

/-- A lookup, or anything else that the contract does -/
inductive Op where
  | lookup (key : Key)
  | other (mem : Memory) (others : List Block)

variable {al : Allocator} {base fixed : Nat} (C : Contract al base fixed)

/-- Other code leaves the bucket words and the entries alone, but for the values. -/
structure Leaves (s : State) (mem : Memory) (others : List Block) : Prop where
  holds : C.Holds mem (T.owned s.entries ++ others)
  buckets : Agree s.mem mem T.slot (T.slot + 4 * bucketSize)
  entries : ∀ e ∈ s.entries, ∀ b ∈ T.blocks e, ∀ x, Block.Has b x → ¬T.Value e x → mem x = s.mem x

/-- Every lookup ends, in so many steps; unless the transaction ends with it, it finds the value of
its key or makes one. -/
def Correct (al : Allocator) (fixed : Nat) : State → List Op → Prop
  | _, [] => True
  | s, .lookup key :: ops => ∃ n r, (∀ fuel, n ≤ fuel → T.look al s key fuel = some r) ∧
    ∀ v s', r = some (v, s') → (T.Again s key v s' ∨ T.First fixed s key v s') ∧
      Correct al fixed s' ops
  | s, .other mem others :: ops => Correct al fixed ⟨mem, s.entries, others⟩ ops

/-- What a run may look up, and what else it may do -/
def Valid : State → List Op → Prop
  | _, [] => True
  | s, .lookup key :: ops => T.KeyOk key ∧
    ∀ fuel v s', T.look al s key fuel = some (some (v, s')) → Valid s' ops
  | s, .other mem others :: ops => T.Leaves C s mem others ∧ Valid ⟨mem, s.entries, others⟩ ops

/-- A key of eight bits whose bucket has the top bit has a negative index. -/
def Narrow (key : Key) : Prop := ∃ v, key = .int v ∧ T.keyTy = .int 8 ∧ 128 ≤ v % bucketSize

/-- No key is narrow, and the value fits in its LLVM type. -/
def Plain (ops : List Op) : Prop :=
  T.valueAt + T.valueSize ≤ T.entryLength ∧ ∀ key, Op.lookup key ∈ ops → ¬T.Narrow key

/-- The mapping is empty. -/
structure Fresh (s : State) : Prop where
  holds : C.Holds s.mem s.others
  entries : s.entries = []
  buckets : ∀ x, T.slot ≤ x → x < T.slot + 4 * bucketSize → s.mem x = 0

end Table

end Solang.Emit.Solana
