import Solang.Lib.Memory

/-!
# The heap of the contract's memory

`stdlib/heap.c`: a doubly linked list of chunks, each a header followed by its
payload, from the start of the heap to its end. The header is that of wasm, with
pointers of four bytes, or that of Solana, with pointers of eight.

A header that is accessed through a null pointer, and a copy that leaves the
memory, are faults.
-/

namespace Solang.Stdlib.Heap

/-- The memory that `__init_heap` makes one chunk of -/
structure Arena where
  /-- The bytes of a pointer -/
  ptr : Nat
  /-- `HEAP_START` -/
  start : Nat
  /-- The length of the first chunk -/
  length : Nat
  ptr_eq : ptr = 4 ∨ ptr = 8
  start_pos : 0 < start
  start_dvd : 8 ∣ start
  length_dvd : 8 ∣ length
  length_lt : length < 2 ^ 32
  fits : start + (2 * ptr + 8) + length ≤ 256 ^ ptr

/-- A wasm memory of some pages -/
def wasm (pages : Nat) (h : 2 ≤ pages ∧ pages ≤ 65536) : Arena where
  ptr := 4
  start := 0x10000
  length := pages * 0x10000 - 0x10000 - 16
  ptr_eq := .inl rfl
  start_pos := by decide
  start_dvd := by decide
  length_dvd := by omega
  length_lt := by omega
  fits := by omega

def solana : Arena where
  ptr := 8
  start := 0x300000000
  length := 32 * 1024 - 24
  ptr_eq := .inr rfl
  start_pos := by decide
  start_dvd := by decide
  length_dvd := by decide
  length_lt := by decide
  fits := by decide

inductive Fault where
  | outOfMemory
  /-- A header is accessed through a null pointer. -/
  | nullHeader
  /-- A copy leaves the memory. -/
  | outOfBounds
  deriving DecidableEq

/-- `struct chunk` -/
structure Header where
  next : Nat
  prev : Nat
  length : Nat
  allocated : Nat
  deriving DecidableEq

/-- `(size + 7) & ~7` -/
def roundUp (size : Nat) : Nat := (size + 7) % 2 ^ 32 / 8 * 8

/-- The difference of two `uint32_t` -/
def sub32 (a b : Nat) : Nat := (a + 2 ^ 32 - b) % 2 ^ 32

/-- The words of `__memcpy8` one after the other -/
def copyWords (m : Memory) (dest source : Nat) : Nat → Memory
  | 0 => m
  | n + 1 => copyWords (m.copy dest source 8) (dest + 8) (source + 8) n

namespace Arena

variable (A : Arena)

/-- `sizeof(struct chunk)` -/
def sizeofChunk : Nat := 2 * A.ptr + 8

/-- The end of the memory -/
def limit : Nat := A.start + A.sizeofChunk + A.length

def header (m : Memory) (p : Nat) : Header :=
  ⟨m.load p A.ptr, m.load (p + A.ptr) A.ptr, m.load (p + 2 * A.ptr) 4, m.load (p + 2 * A.ptr + 4) 4⟩

def setNext (m : Memory) (p v : Nat) : Memory := m.store p A.ptr v

def setPrev (m : Memory) (p v : Nat) : Memory := m.store (p + A.ptr) A.ptr v

def setLength (m : Memory) (p v : Nat) : Memory := m.store (p + 2 * A.ptr) 4 v

def setAllocated (m : Memory) (p v : Nat) : Memory := m.store (p + 2 * A.ptr + 4) 4 v

/-- `__init_heap` -/
def initHeap (m : Memory) : Memory :=
  let m := A.setPrev m A.start 0
  let m := A.setNext m A.start 0
  let m := A.setAllocated m A.start 0
  A.setLength m A.start A.length

/-- Merge a chunk with the next one, which is free. -/
def mergeNext (m : Memory) (cur next : Nat) : Memory :=
  let m := A.setNext m cur (A.header m next).next
  let m := if (A.header m cur).next ≠ 0 then A.setPrev m (A.header m cur).next cur else m
  A.setLength m cur ((A.header m cur).length + (A.header m next).length + A.sizeofChunk)

/-- `__free` -/
def free (m : Memory) (block : Nat) : Except Fault Memory :=
  let cur := block - A.sizeofChunk
  if block = 0 then .ok m
  else
    let m := A.setAllocated m cur 0
    let next := (A.header m cur).next
    let m := if next ≠ 0 ∧ (A.header m next).allocated = 0 then A.mergeNext m cur next else m
    let next := (A.header m cur).next
    let prev := (A.header m cur).prev
    if prev ≠ 0 ∧ (A.header m prev).allocated = 0 then
      let m := A.setNext m prev next
      -- `next->prev = prev`, also for the last chunk
      if next = 0 then .error .nullHeader
      else
        let m := A.setPrev m next prev
        .ok (A.setLength m prev
          ((A.header m prev).length + (A.header m cur).length + A.sizeofChunk))
    else .ok m

/-- `shrink_chunk` -/
def shrinkChunk (m : Memory) (cur size : Nat) : Memory :=
  let size := roundUp size
  if 8 + A.sizeofChunk ≤ sub32 (A.header m cur).length size then
    let new := cur + A.sizeofChunk + size
    let m := A.setNext m new (A.header m cur).next
    let m := if (A.header m new).next ≠ 0 then A.setPrev m (A.header m new).next new else m
    let m := A.setNext m cur new
    let m := A.setPrev m new cur
    let m := A.setAllocated m new 0
    let m := A.setLength m new (sub32 (A.header m cur).length size - A.sizeofChunk)
    A.setLength m cur size
  else m

/-- The search of `__malloc`, for this many chunks: the first one that is free and long enough,
or a null pointer -/
def firstFit (m : Memory) (size : Nat) : Nat → Nat → Nat
  | 0, _ => 0
  | fuel + 1, cur =>
    if cur = 0 then 0
    else if (A.header m cur).allocated ≠ 0 ∨ size > (A.header m cur).length then
      firstFit m size fuel (A.header m cur).next
    else cur

/-- `__malloc`: the memory holds fewer than `limit` chunks. -/
def malloc (m : Memory) (size : Nat) : Except Fault (Nat × Memory) :=
  let cur := A.firstFit m size A.limit A.start
  if cur = 0 then .error .outOfMemory
  else
    let m := A.shrinkChunk m cur size
    .ok (cur + A.sizeofChunk, A.setAllocated m cur 1)

/-- `__memcpy8`, whose loop is left when the number of words has been counted down to zero -/
def memcpy8 (m : Memory) (dest source length : Nat) : Except Fault Memory :=
  let words := if length = 0 then 2 ^ 32 else length
  if dest + 8 * words ≤ A.limit ∧ source + 8 * words ≤ A.limit then
    .ok (copyWords m dest source words)
  else .error .outOfBounds

/-- `__realloc` -/
def realloc (m : Memory) (block size : Nat) : Except Fault (Nat × Memory) :=
  let cur := block - A.sizeofChunk
  let next := (A.header m cur).next
  if next ≠ 0 ∧ (A.header m next).allocated = 0 ∧
      size ≤ (((A.header m cur).length + (A.header m next).length) % 2 ^ 32 + A.sizeofChunk) %
        256 ^ A.ptr then
    let m := A.mergeNext m cur next
    .ok (block, A.shrinkChunk m cur size)
  else do
    let len := if size < (A.header m cur).length then size else (A.header m cur).length
    let (n, m) ← A.malloc m size
    let m ← A.memcpy8 m n block ((len + 7) / 8)
    let m ← A.free m block
    .ok (n, m)

end Arena

/-! ## Runs -/

inductive Call where
  | malloc (size : Nat)
  | free (block : Nat)
  | realloc (block size : Nat)

/-- The memory, and the live blocks with the sizes that were asked for -/
structure State where
  mem : Memory
  live : List (Nat × Nat)

namespace State

variable (A : Arena)

def init (m : Memory) : State := ⟨A.initHeap m, []⟩

/-- Without the block -/
def drop (live : List (Nat × Nat)) (block : Nat) : List (Nat × Nat) :=
  live.filter (·.1 ≠ block)

def step (s : State) : Call → Except Fault State
  | .malloc size => do
    let (block, m) ← A.malloc s.mem size
    .ok ⟨m, (block, size) :: s.live⟩
  | .free block => do
    let m ← A.free s.mem block
    .ok ⟨m, drop s.live block⟩
  | .realloc block size => do
    let (block', m) ← A.realloc s.mem block size
    .ok ⟨m, (block', size) :: drop s.live block⟩

def run (s : State) : List Call → Except Fault State
  | [] => .ok s
  | call :: calls => do
    let s ← step A s call
    run s calls

/-- The sizes are those of a `uint32_t`, and the blocks are live. -/
def Valid (s : State) : Call → Prop
  | .malloc size => size < 2 ^ 32
  | .free block => block ∈ s.live.map (·.1)
  | .realloc block size => block ∈ s.live.map (·.1) ∧ size < 2 ^ 32

instance (s : State) (call : Call) : Decidable (s.Valid call) :=
  match call with
  | .malloc size => inferInstanceAs (Decidable (size < 2 ^ 32))
  | .free block => inferInstanceAs (Decidable (block ∈ s.live.map (·.1)))
  | .realloc block size => inferInstanceAs (Decidable (block ∈ s.live.map (·.1) ∧ size < 2 ^ 32))

/-- The calls of a run are valid where they are made. -/
def ValidRun (s : State) : List Call → Prop
  | [] => True
  | call :: calls => s.Valid call ∧
    match step A s call with
    | .ok s => ValidRun s calls
    | .error _ => True

instance decidableValidRun (s : State) : (calls : List Call) → Decidable (s.ValidRun A calls)
  | [] => .isTrue trivial
  | call :: calls =>
    have : Decidable (match step A s call with
      | .ok s => ValidRun A s calls
      | .error _ => True) :=
      match step A s call with
      | .ok s => decidableValidRun s calls
      | .error _ => .isTrue trivial
    inferInstanceAs (Decidable (_ ∧ _))

end State

end Solang.Stdlib.Heap
