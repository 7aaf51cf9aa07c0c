import Solang.Stdlib.HeapData

/-!
# Vectors

`struct vector` is a length, a size and the elements. `vector_new` of `stdlib/stdlib.c` makes
one, `PushMemory` and `PopMemory` of `emit/instructions.rs` change its length with `__realloc`.
A null pointer is an empty vector too.

Lengths and sizes are `uint32_t`, and wrap.
-/

namespace Solang.Emit.Vector

open Memory Stdlib.Heap

inductive Target where
  | polkadot
  | solana
  deriving DecidableEq

/-- The heap of a contract: the linker gives a Polkadot contract 1048576 bytes. -/
def Target.arena : Target → Arena
  | .polkadot => wasm 16 (by decide)
  | .solana => Stdlib.Heap.solana

inductive Abort where
  | fault (f : Fault)
  /-- "pop from empty array" -/
  | emptyArrayPop
  deriving DecidableEq

/-- `sizeof(struct vector)` -/
def sizeofVector : Nat := 8

/-! ## Elements -/

/-- The type of the elements, as `llvm_type`, `llvm_field_ty` and `is_fixed_reference_type` see it -/
inductive Element where
  /-- The value is stored. -/
  | value (size : Nat) (pos : 0 < size)
  /-- A struct, an array of fixed length or an external function: a pointer in a variable, its bytes
  in an array -/
  | reference (size : Nat) (pos : 0 < size)
  /-- Bytes, a string or a dynamic array: a pointer in both -/
  | vector
  /-- An array of fixed length of dynamic arrays: a pointer in both -/
  | rows (length : Nat) (pos : 0 < length)

namespace Element

/-- The constructor and its number -/
def key : Element → Nat × Nat
  | value size _ => (0, size)
  | reference size _ => (1, size)
  | vector => (2, 0)
  | rows length _ => (3, length)

theorem key_injective : Function.Injective key := by
  rintro ⟨⟩ ⟨⟩ h <;> simp_all [key]

instance : DecidableEq Element := key_injective.decidableEq

/-- The size of `llvm_type`, by which `new` allocates and a subscript is computed -/
def typeSize : Element → Nat
  | value size _ => size
  | reference size _ => size
  | vector => sizeofVector
  | rows length _ => length * sizeofVector

variable (A : Arena)

/-- The size of `llvm_field_ty`, by which `PushMemory` and `PopMemory` go -/
def fieldSize : Element → Nat
  | vector => A.ptr
  | e => e.typeSize

/-- `is_fixed_reference_type` -/
def isFixedReference : Element → Bool
  | reference _ _ => true
  | _ => false

/-- The bytes that a store of an element writes -/
def width : Element → Nat
  | value size _ => size
  | reference size _ => size
  | vector => A.ptr
  | rows _ _ => A.ptr

/-- The store of an element: for a struct, of what is loaded from the pointer -/
def store (e : Element) (m : Memory) (slot value : Nat) : Except Fault Memory :=
  if slot + e.width A ≤ A.limit then
    .ok (if e.isFixedReference then m.copy slot value (e.width A) else m.store slot (e.width A) value)
  else .error .outOfBounds

variable {A}

theorem typeSize_pos (e : Element) : 0 < e.typeSize := by
  cases e with
  | value size pos | reference size pos => exact pos
  | vector => decide
  | rows length pos => exact Nat.mul_pos pos (by decide)

theorem width_le_fieldSize (e : Element) : e.width A ≤ e.fieldSize A := by
  cases e with
  | rows length pos =>
    have hptr := A.ptr_eq
    show A.ptr ≤ length * 8
    omega
  | _ => exact Nat.le_refl _

theorem fieldSize_le_typeSize (e : Element) : e.fieldSize A ≤ e.typeSize := by
  cases e with
  | vector =>
    have hptr := A.ptr_eq
    show A.ptr ≤ 8
    omega
  | _ => exact Nat.le_refl _

/-- The two sizes differ only where a pointer has four bytes. -/
theorem sizes_of_ne {e : Element} (h : e.fieldSize A ≠ e.typeSize) :
    e.typeSize = 8 ∧ e.fieldSize A = 4 := by
  cases e with
  | vector => exact ⟨rfl, A.ptr_eq.resolve_right h⟩
  | _ => exact absurd rfl h

theorem within_store {e : Element} {m m' : Memory} {slot value : Nat}
    (h : e.store A m slot value = .ok m') : Within m m' slot (slot + e.width A) := by
  unfold store at h
  split at h
  next =>
    cases h
    split
    next => exact Within.refl.copy (Nat.le_refl _) (Nat.le_refl _)
    next => exact Within.refl.store (Nat.le_refl _) (Nat.le_refl _)
  next => cases h

end Element

/-- What an instruction leaves in its result -/
inductive Result where
  | word (value : Nat)
  | pointer (address : Nat)
  /-- The bytes of a `struct.vector`, or of an array of them, where the others expect a pointer -/
  | aggregate (bytes : List UInt8)
  deriving DecidableEq

section Model

variable (A : Arena)

/-! ## `vector_new` -/

/-- The length and the size of the vector -/
def setLength (m : Memory) (v len : Nat) : Memory := (m.store v 4 len).store (v + 4) 4 len

/-- Write zeros. -/
def clear (m : Memory) (a n : Nat) : Memory := fun x => if a ≤ x ∧ x < a + n then 0 else m x

/-- The loops that fill the vector: with the bytes of a constant, or with zeros -/
def fill (m : Memory) (data : Nat) (initial : Option Nat) (sizeArray : Nat) : Except Fault Memory :=
  if data + sizeArray ≤ A.limit then
    .ok (match initial with
      | some source => m.copy data source sizeArray
      | none => clear m data sizeArray)
  else .error .outOfBounds

/-- `vector_new` of `stdlib.c` -/
def vectorNew (s : State) (members size : Nat) (initial : Option Nat) : Except Fault (Nat × State) := do
  let sizeArray := members * size % 2 ^ 32
  let (v, m) ← A.malloc s.mem ((sizeofVector + sizeArray) % 2 ^ 32)
  let m := setLength m v members
  let m ← fill A m (v + sizeofVector) initial sizeArray
  .ok (v, ⟨m, (v, (sizeofVector + sizeArray) % 2 ^ 32) :: s.live⟩)

/-- `Expression::AllocDynamicBytes`, with the addresses of the constants: an initializer without
bytes gives a null pointer. -/
def allocDynamicBytes (constString : List UInt8 → Nat) (s : State) (e : Element) (size : Nat)
    (initializer : Option (List UInt8)) : Except Fault (Nat × State) :=
  match initializer with
  | some [] => .ok (0, s)
  | some bytes => vectorNew A s size (e.typeSize % 2 ^ 32) (some (constString bytes))
  | none => vectorNew A s size (e.typeSize % 2 ^ 32) none

/-- `vector_len` -/
def vectorLen (m : Memory) (v : Nat) : Nat := if v = 0 then 0 else m.load v 4

/-! ## `PushMemory` and `PopMemory` -/

/-- The operand of a push. It is evaluated where the array is by then, and may allocate, for which
there may not be the memory. -/
structure Operand where
  eval : Nat → State → Except Fault (Nat × State)
  kept : ∀ {array s v s'}, Inv A s → eval array s = .ok (v, s') → Kept A s s' none
  fault : ∀ {array s f}, eval array s = .error f → f = .outOfMemory

/-- `__realloc`; a null pointer has no header. -/
def reallocate (s : State) (array size : Nat) : Except Fault (Nat × State) :=
  if array = 0 then .error .nullHeader
  else do
    let (block, m) ← A.realloc s.mem array size
    .ok (block, ⟨m, (block, size) :: State.drop s.live array⟩)

/-- The address at an offset, which is a signed word -/
def gep (base offset : Nat) : Nat :=
  (base + if offset < 2 ^ 31 then offset else offset + 256 ^ A.ptr - 2 ^ 32) % 256 ^ A.ptr

/-- The size that `__realloc` is asked for -/
def vectorSize (e : Element) (len : Nat) : Nat :=
  (e.fieldSize A % 2 ^ 32 * len % 2 ^ 32 + sizeofVector) % 2 ^ 32

/-- The place of an element -/
def slotOf (e : Element) (v i : Nat) : Nat :=
  gep A (v + sizeofVector) (i * (e.fieldSize A % 2 ^ 32) % 2 ^ 32)

/-- `PushMemory`: the result, the array and the memory -/
def pushMemory (e : Element) (s : State) (array : Nat) (value : Operand A) :
    Except Abort (Result × Nat × State) :=
  let len := vectorLen s.mem array
  let newLen := (len + 1) % 2 ^ 32
  Except.mapError .fault do
    let (new, s) ← reallocate A s array (vectorSize A e newLen)
    let slot := slotOf A e new len
    let (value, s) ← value.eval new s
    let m ← e.store A s.mem slot value
    .ok (if e.isFixedReference then .pointer slot else .word value, new, ⟨setLength m new newLen, s.live⟩)

/-- What `PopMemory` loads: `llvm_type` of the element -/
def popped (e : Element) (m : Memory) (slot : Nat) : Result :=
  match e with
  | .value size _ => .word (m.load slot size)
  | .reference _ _ => .pointer slot
  | .vector => .aggregate (m.bytes slot e.typeSize)
  | .rows _ _ => .aggregate (m.bytes slot e.typeSize)

/-- `PopMemory`: the result, the array and the memory -/
def popMemory (e : Element) (s : State) (array : Nat) : Except Abort (Result × Nat × State) :=
  let len := s.mem.load array 4
  if len = 0 then .error .emptyArrayPop
  else
    let newLen := len - 1
    let res := popped e s.mem (slotOf A e array newLen)
    Except.mapError .fault do
      let (new, s) ← reallocate A s array (vectorSize A e newLen)
      .ok (res, new, ⟨setLength s.mem new newLen, s.live⟩)

end Model

end Solang.Emit.Vector
