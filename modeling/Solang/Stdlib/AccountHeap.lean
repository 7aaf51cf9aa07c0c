import Solang.Lib.Memory

/-!
# The heap of the account data

`stdlib/solana.c`: the heap on Solana's account data is a doubly linked list of chunks
that are addressed by their offsets. The last chunk is free, of length zero, with no
next one. The functions return their code and, in place of `*res`, the offset.
-/

namespace Solang.Stdlib.AccountHeap

/-- `struct chunk`, of four words -/
structure Header where
  offsetNext : Nat
  offsetPrev : Nat
  length : Nat
  allocated : Nat
  deriving DecidableEq

/-- `sizeof(struct chunk)` -/
abbrev sizeofChunk : Nat := 16

def header (data : Memory) (offset : Nat) : Header :=
  ⟨data.load offset 4, data.load (offset + 4) 4, data.load (offset + 8) 4, data.load (offset + 12) 4⟩

def setNext (data : Memory) (offset v : Nat) : Memory := data.store offset 4 v

def setPrev (data : Memory) (offset v : Nat) : Memory := data.store (offset + 4) 4 v

def setLength (data : Memory) (offset v : Nat) : Memory := data.store (offset + 8) 4 v

def setAllocated (data : Memory) (offset v : Nat) : Memory := data.store (offset + 12) 4 v

/-- `hdr->heap_offset` of the account's header -/
def heapOffset (data : Memory) : Nat := data.load 12 4

/-- The sum and the difference of two `uint32_t` -/
def add32 (a b : Nat) : Nat := (a + b) % 2 ^ 32

def sub32 (a b : Nat) : Nat := (a + 2 ^ 32 - b) % 2 ^ 32

/-- `ROUND_UP(size, 8)` -/
def roundUp (size : Nat) : Nat := add32 size 7 / 8 * 8

inductive Outcome where
  | ok (res : Nat)
  /-- `ERROR_ACCOUNT_DATA_TOO_SMALL` -/
  | tooSmall
  /-- The search for a chunk does not end. -/
  | diverges
  deriving DecidableEq

variable (dataLen : Nat)

/-- The loop of `account_data_alloc`, for this many chunks -/
def search (data : Memory) (size : Nat) : Nat → Nat → Nat → Outcome × Memory
  | 0, _, _ => (.diverges, data)
  | fuel + 1, offset, offsetPrev =>
    let allocSize := roundUp size
    let chunk := header data offset
    if chunk.allocated = 0 then
      if chunk.length = 0 then
        let block := add32 offset sizeofChunk
        if dataLen ≤ add32 block allocSize + sizeofChunk then (.tooSmall, data)
        else
          let data := setNext data offset (add32 block allocSize)
          let data := setPrev data offset offsetPrev
          let data := setAllocated data offset 1
          let data := setLength data offset size
          let next := (header data offset).offsetNext
          let data := setPrev data next (sub32 block sizeofChunk)
          let data := setLength data next 0
          let data := setNext data next 0
          let data := setAllocated data next 0
          (.ok block, data)
      else if chunk.length < allocSize then
        search data size fuel chunk.offsetNext offset
      else if chunk.length < allocSize + sizeofChunk + 8 then
        let data := setAllocated data offset 1
        let data := setLength data offset size
        (.ok (add32 offset sizeofChunk), data)
      else
        let next := chunk.offsetNext
        let nextOffset := add32 (add32 offset sizeofChunk) allocSize
        let data := setNext data offset nextOffset
        let data := setLength data offset size
        let data := setAllocated data offset 1
        let data := setPrev data nextOffset offset
        let data := setNext data nextOffset next
        let data := setLength data nextOffset (sub32 (sub32 next nextOffset) sizeofChunk)
        let data := setAllocated data nextOffset 0
        let data := if next ≠ 0 then setPrev data next nextOffset else data
        (.ok (add32 offset sizeofChunk), data)
    else search data size fuel chunk.offsetNext offset

/-- `account_data_alloc`: the account holds fewer than `dataLen` chunks. -/
def alloc (data : Memory) (size : Nat) : Outcome × Memory :=
  if size = 0 then (.ok 0, data) else search dataLen data size dataLen (heapOffset data) 0

/-- `account_data_len` -/
def len (data : Memory) (offset : Nat) : Nat :=
  if offset = 0 then 0 else (header data (sub32 offset sizeofChunk)).length

/-- The first half of `account_data_free`: merge with the previous chunk, and return the chunk. -/
def mergePrev (data : Memory) (offset : Nat) : Nat × Memory :=
  let chunk := header data offset
  if chunk.offsetPrev ≠ 0 ∧ (header data chunk.offsetPrev).allocated = 0 then
    let prev := chunk.offsetPrev
    if chunk.offsetNext ≠ 0 then
      let data := setLength data prev (sub32 (sub32 chunk.offsetNext prev) sizeofChunk)
      let data := setNext data prev chunk.offsetNext
      (prev, setPrev data chunk.offsetNext prev)
    else
      let data := setNext data prev 0
      (prev, setLength data prev 0)
  else (offset, data)

/-- The second half: merge with the next chunk. -/
def mergeNext (data : Memory) (offset : Nat) : Memory :=
  let chunk := header data offset
  if chunk.offsetNext ≠ 0 ∧ (header data chunk.offsetNext).allocated = 0 then
    let next := header data chunk.offsetNext
    if next.offsetNext ≠ 0 then
      let data := setNext data offset next.offsetNext
      let data := setLength data offset (sub32 (sub32 next.offsetNext offset) sizeofChunk)
      setPrev data next.offsetNext offset
    else
      let data := setNext data offset 0
      setLength data offset 0
  else data

/-- `account_data_free` -/
def free (data : Memory) (offset : Nat) : Memory :=
  if offset = 0 then data
  else
    let offset := sub32 offset sizeofChunk
    let (offset, data) := mergePrev (setAllocated data offset 0) offset
    mergeNext data offset

/-- A chunk header that `account_data_realloc` writes behind the block: free, up to `next` -/
def freeChunk (data : Memory) (offset prev next length : Nat) : Memory :=
  let data := setPrev data offset prev
  let data := setNext data offset next
  let data := setAllocated data offset 0
  setLength data offset length

/-- The existing chunk is big enough, and some of it may be freed. -/
def shrink (data : Memory) (offset size : Nat) : Memory :=
  let chunkOffset := sub32 offset sizeofChunk
  let next := (header data chunkOffset).offsetNext
  let existingSize := sub32 next offset
  let allocSize := roundUp size
  let data := setLength data chunkOffset size
  if allocSize + sizeofChunk + 8 ≤ existingSize then
    let newNext := add32 offset allocSize
    if (header data next).allocated = 0 then
      if (header data next).offsetNext = 0 then
        let data := setNext data chunkOffset newNext
        freeChunk data newNext chunkOffset 0 0
      else
        let data := setNext data chunkOffset newNext
        let nextNext := (header data next).offsetNext
        let data := freeChunk data newNext chunkOffset nextNext
          (sub32 (sub32 nextNext newNext) sizeofChunk)
        setPrev data nextNext newNext
    else
      let nextNext := (header data chunkOffset).offsetNext
      let data := setNext data chunkOffset newNext
      let data := freeChunk data newNext chunkOffset nextNext
        (sub32 (sub32 nextNext newNext) sizeofChunk)
      setPrev data nextNext newNext
  else data

/-- The block grows into the next chunk, if that is free and there is room. -/
def grow (data : Memory) (offset size : Nat) : Option Memory :=
  let chunkOffset := sub32 offset sizeofChunk
  let next := (header data chunkOffset).offsetNext
  let allocSize := roundUp size
  if (header data next).allocated = 0 then
    if (header data next).offsetNext ≠ 0 then
      let mergedSize := sub32 (header data next).offsetNext offset
      if size < mergedSize then
        if sub32 mergedSize allocSize < 8 + sizeofChunk then
          let data := setNext data chunkOffset (header data next).offsetNext
          let data := setLength data chunkOffset size
          some (setPrev data (header data chunkOffset).offsetNext chunkOffset)
        else
          let offsetNext := add32 offset allocSize
          let offsetNextNext := (header data next).offsetNext
          let data := setNext data chunkOffset offsetNext
          let data := setLength data chunkOffset size
          let data := freeChunk data offsetNext chunkOffset offsetNextNext
            (sub32 (sub32 offsetNextNext offsetNext) sizeofChunk)
          some (setPrev data offsetNextNext offsetNext)
      else none
    else if add32 offset allocSize + sizeofChunk < dataLen then
      let data := setNext data chunkOffset (add32 offset allocSize)
      let data := setLength data chunkOffset size
      some (freeChunk data (header data chunkOffset).offsetNext chunkOffset 0 0)
    else none
  else none

/-- `account_data_realloc` -/
def realloc (data : Memory) (offset size : Nat) : Outcome × Memory :=
  if size = 0 then (.ok 0, free data offset)
  else if offset = 0 then alloc dataLen data size
  else if size ≤ sub32 (header data (sub32 offset sizeofChunk)).offsetNext offset then
    (.ok offset, shrink data offset size)
  else
    match grow dataLen data offset size with
    | some data => (.ok offset, data)
    | none =>
      let oldLength := len data offset
      match alloc dataLen data size with
      | (.ok newOffset, data) =>
        (.ok newOffset, free (data.copy newOffset offset oldLength) offset)
      | r => r

end Solang.Stdlib.AccountHeap
