import Solang.Codegen.Evaluation.Expression

/-!
# Dynamic arrays in storage

`push`, `pop` and the assignment of an element: `array_offset`, `storage_slots_array_push` and `storage_slots_array_pop`
of `codegen/storage.rs` for arrays with a slot or more for each element, and `array_push` and `array_pop` for `bytes`,
which are stored as a whole. The length is at the slot of the array. What the emitter does for `SetStorage`,
`LoadStorage` and `ClearStorage` of an element is to go from slot to slot.

The operands are arbitrary code.
-/

namespace Solang.Codegen.Evaluation

/-- The array that is changed; an element that is a struct or an array of fixed length is copied from memory and to
memory. -/
inductive ArrayKind where
  | values
  | aggregates (slots : Nat) (pos : 0 < slots)
  | bytes
  deriving DecidableEq, Repr

/-- `storage_slots` of the elements -/
def ArrayKind.elemSlots : ArrayKind → Nat
  | .values | .bytes => 1
  | .aggregates slots _ => slots

theorem ArrayKind.elemSlots_pos : ∀ kind : ArrayKind, 0 < kind.elemSlots
  | .values | .bytes => Nat.one_pos
  | .aggregates _ pos => pos

/-- The size of the buffer for `bytes` that are changed -/
def scratchSize : Nat := 32 * 1024

/-- `allocate` is where the heap has room for an element. -/
structure Arrays extends Context where
  kind : ArrayKind
  allocate : State → Nat

variable (ctx : Arrays)

/-! ## Instructions -/

/-- An expression of the type of slots with `overflowing` set -/
def wrapping (op : Nat → Nat → Nat) (left right : Tree) : Tree := fun s => do
  some (op (← left s) (← right s) % 2 ^ ctx.slotBits)

def hashed (slot : Tree) : Tree := fun s => (slot s).map ctx.keccak256

/-- `array_offset` -/
def arrayOffset (start index : Tree) (elemSize : Nat) : Tree :=
  if elemSize = 1 then wrapping ctx (· + ·) start index
  else if elemSize &&& (elemSize - 1) = 0 then
    wrapping ctx (· + ·) start (wrapping ctx (· <<< ·) index (temp elemSize.log2))
  else wrapping ctx (· + ·) start (wrapping ctx (· * ·) index (temp elemSize))

def slotAfter (slot n : Nat) : Nat := (slot + n) % 2 ^ ctx.slotBits

def writeAll (loc : Nat) : List (Place × Nat) → Code Unit
  | [] => pure ()
  | (p, v) :: ws => do
    write loc p v
    writeAll loc ws

/-- The words from a place on -/
def placed (place : Nat → Place) (words : List Nat) : List (Place × Nat) :=
  words.mapIdx fun j w => (place j, w)

/-- What an expression of the type of the elements stands for: the value, or what the memory has at it -/
def contents (v : Nat) (s : State) : List Nat :=
  match ctx.kind with
  | .values | .bytes => [v]
  | .aggregates slots _ => (List.range slots).map fun j => s (.memory (v + j))

/-- `SetStorage` of an element -/
def setElement (loc : Nat) (value storage : Tree) : Code Unit := do
  let v ← force value
  let slot ← force storage
  let words ← Logged.ask fun s => some (contents ctx v s)
  writeAll loc (placed (fun j => .storage (slotAfter ctx slot j)) words)

/-- `LoadStorage` of an element -/
def loadElement (loc : Nat) (storage : Tree) : Code Tree :=
  match ctx.kind with
  | .values | .bytes => loadStorage storage
  | .aggregates slots _ => do
    let slot ← force storage
    let words ← Logged.ask fun s => some ((List.range slots).map fun j => s (.storage (slotAfter ctx slot j)))
    let address ← Logged.ask fun s => some (ctx.allocate s)
    writeAll loc (placed (fun j => .memory (address + j)) words)
    pure (temp address)

/-- `ClearStorage` of an element -/
def clearElement (loc : Nat) (storage : Tree) : Code Unit := do
  let slot ← force storage
  writeAll loc (placed (fun j => .storage (slotAfter ctx slot j)) (List.replicate ctx.kind.elemSlots 0))

/-- `PushStorage` of a byte -/
def pushStorage (loc : Nat) (storage value : Tree) : Code Tree := do
  let v ← force value
  let slot ← force storage
  let length ← read (.storage slot)
  if scratchSize ≤ length then .abort
  else do
    write loc (.storageByte slot length) v
    write loc (.storage slot) (length + 1)
    pure (temp v)

/-- `PopStorage` of a byte -/
def popStorage (loc : Nat) (storage : Tree) : Code Tree := do
  let slot ← force storage
  let length ← read (.storage slot)
  if length = 0 then .abort
  else do
    let v ← read (.storageByte slot (length - 1))
    write loc (.storage slot) (length - 1)
    pure (temp v)

/-! ## The code of `push` and `pop` -/

/-- `storage_slots_array_push`; without an argument the result is a reference to the new element. -/
def storageSlotsArrayPush (loc : Nat) (array : Code Tree) (arg : Option (Code Tree)) : Code (Option Tree) := do
  let varExpr ← array
  let length ← loadStorage varExpr
  let entryPos ← force (arrayOffset ctx (hashed ctx varExpr) length ctx.kind.elemSlots)
  match arg with
  | some arg => do
    let value ← arg
    setElement ctx loc value (temp entryPos)
    setStorage loc (wrapping ctx (· + ·) length (temp 1)) varExpr
    pure none
  | none => do
    setStorage loc (wrapping ctx (· + ·) length (temp 1)) varExpr
    pure (some (temp entryPos))

/-- `storage_slots_array_pop` -/
def storageSlotsArrayPop (loc : Nat) (array : Code Tree) (returned : Bool) : Code (Option Tree) := do
  let varExpr ← array
  let length ← loadStorage varExpr
  let n ← force length
  if n = 0 then .abort
  else do
    -- `Subtract`, modulo the size of the type
    let newLength ← force (wrapping ctx (fun l r => l + 2 ^ ctx.slotBits - r) (temp n) (temp 1))
    let entryPos ← force (arrayOffset ctx (hashed ctx varExpr) (temp newLength) ctx.kind.elemSlots)
    if returned then do
      let val ← loadElement ctx loc (temp entryPos)
      clearElement ctx loc (temp entryPos)
      setStorage loc (temp newLength) varExpr
      pure (some val)
    else do
      clearElement ctx loc (temp entryPos)
      setStorage loc (temp newLength) varExpr
      pure none

/-- `array_push`; the default of a byte is zero. -/
def arrayPush (loc : Nat) (array : Code Tree) (arg : Option (Code Tree)) : Code (Option Tree) := do
  let storage ← array
  match arg with
  | some arg => do
    let value ← arg
    some <$> pushStorage loc storage value
  | none => some <$> pushStorage loc storage (temp 0)

/-- `array_pop` -/
def arrayPop (loc : Nat) (array : Code Tree) : Code (Option Tree) := do
  let storage ← array
  some <$> popStorage loc storage

/-- `assign_single` of an element -/
def assignElement (loc : Nat) (array index arg : Code Tree) : Code (Option Tree) := do
  let cfgRight ← arg
  match ctx.kind with
  | .bytes => some <$> assignStorageByte loc array index cfgRight
  | _ => do
    let dest ← arraySubscript ctx.toContext (.storage none ctx.kind.elemSlots) array index
    let pos ← force cfgRight
    setElement ctx loc (temp pos) dest
    pure (some (temp pos))

/-- An operation on an array, with the code of its operands -/
inductive Operation where
  | push (array : Code Tree) (arg : Option (Code Tree))
  | pop (array : Code Tree) (returned : Bool)
  | assign (array index arg : Code Tree)

def Operation.code (loc : Nat) : Operation → Code (Option Tree)
  | .push array arg =>
    if ctx.kind = .bytes then arrayPush loc array arg else storageSlotsArrayPush ctx loc array arg
  | .pop array returned =>
    if ctx.kind = .bytes then arrayPop loc array else storageSlotsArrayPop ctx loc array returned
  | .assign array index arg => assignElement ctx loc array index arg

/-! ## The array as a list -/

/-- Where the array at slot `p` has its words, one element after another -/
def wordPlace (p x : Nat) : Place :=
  match ctx.kind with
  | .bytes => .storageByte p x
  | _ => .storage (slotAfter ctx (ctx.keccak256 p) x)

def element (s : State) (p i : Nat) : List Nat :=
  (List.range ctx.kind.elemSlots).map fun j => s (wordPlace ctx p (i * ctx.kind.elemSlots + j))

def elements (s : State) (p : Nat) : List (List Nat) :=
  (List.range (s (.storage p))).map (element ctx s p)

/-- What an operation is to do to the list; `extend` keeps what storage has after the last element. -/
inductive Change where
  | append (x : List Nat)
  | extend
  | removeLast (returned : Bool)
  | set (i : Nat) (x : List Nat)

/-- `none` when it aborts -/
def Change.apply (next : List Nat) (xs : List (List Nat)) : Change → Option (List (List Nat))
  | .append x => some (xs ++ [x])
  | .extend => some (xs ++ [next])
  | .removeLast _ => if xs = [] then none else some xs.dropLast
  | .set i x => if i < xs.length then some (xs.set i x) else none

/-- The element that is changed, of `n` -/
def Change.index (n : Nat) : Change → Nat
  | .append _ | .extend => n
  | .removeLast _ => n - 1
  | .set i _ => i

def argument (arg : Code Tree) : Code (List Nat) := do
  let value ← arg
  let v ← force value
  .ask fun s => some (contents ctx v s)

/-- The evaluation of the operands: the slot of the array, and what is to be done to it -/
def Operation.operands : Operation → Code (Nat × Change)
  | .push array arg => do
    let varExpr ← array
    let p ← force varExpr
    match arg with
    | some arg => do
      let x ← argument ctx arg
      pure (p, .append x)
    | none => pure (p, if ctx.kind = .bytes then .append [0] else .extend)
  | .pop array returned => do
    let varExpr ← array
    let p ← force varExpr
    pure (p, .removeLast returned)
  | .assign array index arg => do
    let cfgRight ← arg
    let varExpr ← array
    let index ← index
    let p ← force varExpr
    let i ← force index
    let v ← force cfgRight
    let x ← Logged.ask fun s => some (contents ctx v s)
    pure (p, .set i x)

/-- What is right after an operation: the list is `xs`, no two elements share a place, nothing else has changed, and
`pop` has the last element. -/
structure Fulfilled (s₁ : State) (p : Nat) (change : Change) (xs : List (List Nat)) (r : Option Tree) (s' : State) :
    Prop where
  elements : elements ctx s' p = xs
  disjoint : ∀ i i' j j', i < xs.length → i' < xs.length → i ≠ i' → j < ctx.kind.elemSlots → j' < ctx.kind.elemSlots →
    wordPlace ctx p (i * ctx.kind.elemSlots + j) ≠ wordPlace ctx p (i' * ctx.kind.elemSlots + j')
  frame : ∀ q, q ≠ .storage p →
    (∀ j < ctx.kind.elemSlots, q ≠ wordPlace ctx p (change.index (s₁ (.storage p)) * ctx.kind.elemSlots + j)) →
    (∀ j < ctx.kind.elemSlots, q ≠ .memory (ctx.allocate s₁ + j)) → s' q = s₁ q
  yields : change = .removeLast true →
    ∃ tree v, r = some tree ∧ tree s' = some v ∧ (Evaluation.elements ctx s₁ p).getLast? = some (contents ctx v s')

/-- An operation does to the list that is there after its operands what it is to do. -/
def Operation.Does (loc : Nat) (op : Operation) (s : State) : Prop :=
  match (op.operands ctx).result s with
  | none => (op.code ctx loc).result s = none
  | some ((p, change), s₁) =>
    match change.apply (element ctx s₁ p (s₁ (.storage p))) (elements ctx s₁ p) with
    | none => (op.code ctx loc).result s = none
    | some xs => ∃ r s', (op.code ctx loc).result s = some (r, s') ∧ Fulfilled ctx s₁ p change xs r s'

/-- What each operation of a sequence does -/
def DoesAll (loc : Nat) : List Operation → State → Prop
  | [], _ => True
  | op :: ops, s => op.Does ctx loc s ∧ After (op.code ctx loc) s fun _ s' => DoesAll loc ops s'

/-! ## When they do -/

/-- There are slots for `n` elements, and none of them is the slot of the length. -/
def Room (p n : Nat) : Prop :=
  match ctx.kind with
  | .bytes => n ≤ scratchSize
  | _ => n < 2 ^ ctx.slotBits ∧ n * ctx.kind.elemSlots ≤ 2 ^ ctx.slotBits ∧
      ∀ x < n * ctx.kind.elemSlots, slotAfter ctx (ctx.keccak256 p) x ≠ p

/-- The reference to the array denotes slot `p` also after `storage` or a new element in memory is written. -/
def Stable (array : Tree) (p : Nat) (s : State) : Prop :=
  ∀ s', (∀ varNo, s' (.variable varNo) = s (.variable varNo)) →
    (∀ address, (∀ j < ctx.kind.elemSlots, address ≠ ctx.allocate s + j) → s' (.memory address) = s (.memory address)) →
    array s' = some p

/-- The argument of `push` leaves the slot that the array is at as it is and, unless the array is `bytes`, the length. -/
def Operation.Safe (op : Operation) (s : State) : Prop :=
  match op with
  | .push array none => After array s fun varExpr s₀ => ∀ p, varExpr s₀ = some p → Room ctx p (s₀ (.storage p) + 1)
  | .push array (some arg) => After array s fun varExpr s₀ => After (argument ctx arg) s₀ fun _ s₁ =>
      if ctx.kind = .bytes then
        varExpr s₁ = varExpr s₀ ∧ ∀ p, varExpr s₀ = some p → Room ctx p (s₁ (.storage p) + 1)
      else ∀ p, varExpr s₀ = some p →
        s₁ (.storage p) = s₀ (.storage p) ∧ Stable ctx varExpr p s₁ ∧ Room ctx p (s₁ (.storage p) + 1)
  | .pop array _ => After array s fun varExpr s₀ => ∀ p, varExpr s₀ = some p →
      (ctx.kind ≠ .bytes → Stable ctx varExpr p s₀) ∧ Room ctx p (s₀ (.storage p))
  | .assign array index arg => After arg s fun _ s₁ => After array s₁ fun varExpr s₂ => After index s₂ fun _ s₃ =>
      ∀ p, varExpr s₃ = some p → Room ctx p (s₃ (.storage p))

def SafeAll (loc : Nat) : List Operation → State → Prop
  | [], _ => True
  | op :: ops, s => op.Safe ctx s ∧ After (op.code ctx loc) s fun _ s' => SafeAll loc ops s'

end Solang.Codegen.Evaluation
