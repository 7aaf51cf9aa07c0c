import Solang.Codegen.ConversionsSema
import Solang.Lib.EvmWord

/-!
# Array subscripts

`array_subscript` of `codegen/expression.rs`, with `array_offset` of `codegen/storage.rs` and what the emitter does for
`Subscript`. Values have the width of their type. An operation on operands of different widths, and an extension to a
narrower type, are not accepted by LLVM, so that there is no code.

The index has the type of an integer without a sign, which `sema` requires; for `bytes` in storage `sema` casts it
explicitly to `uint32`. The length of an array in memory is what its length expression has.
-/

namespace Solang.Codegen.Subscript

open EvmWord (signed wrap)
open Conversions (CastExpr castCodegen castTypes)

structure Target extends Conversions.Namespace where
  solana : Bool
  keccak256 : Nat → Nat
  /-- What Solana has at the slot of a dynamic array: where its elements are -/
  offset : Nat → Nat
  /-- What a shift by as many places as there are bits leaves, or more -/
  poison : Nat → Nat → Nat

namespace Target

variable (t : Target)

/-- The width of `ns.storage_type()` -/
def slotBits : Nat := if t.solana then 32 else 256

/-- The width of a pointer, which LLVM computes addresses with -/
def ptrBits : Nat := if t.solana then 64 else 32

end Target

/-- A value of an integer type -/
structure Word where
  bits : Nat
  value : Nat
  deriving DecidableEq, Repr

/-- The arrays by the arms of the code. `size` is that of an element: in bytes, or in slots, or what
`solana_storage_size` has; `sparse` is what `is_sparse_solana` has. -/
inductive Array where
  | bytesN (n value : Nat) (inStorage : Bool)
  | storageBytes (length slot : Nat)
  | memoryFixed (length size address : Nat)
  | memoryDynamic (length size address : Nat)
  | accounts (length size address : Nat)
  | storageFixed (length size slot : Nat) (sparse : Bool)
  | storageDynamic (length size slot : Nat) (sparse : Bool)
  deriving DecidableEq, Repr

/-- What a subscript denotes -/
inductive Element where
  | byte (value : Nat)
  | byteAt (slot index : Nat)
  | address (n : Nat)
  | slot (n : Nat)
  /-- An entry of a sparse array -/
  | entry (slot key : Nat)
  deriving DecidableEq, Repr

inductive Outcome where
  | element (e : Element)
  /-- The panic that the index is out of bounds -/
  | abort
  deriving DecidableEq, Repr

/-! ## Operations -/

namespace Word

def zeroExt (bits : Nat) (x : Word) : Option Word := if x.bits ≤ bits then some ⟨bits, x.value⟩ else none

def trunc (bits : Nat) (x : Word) : Option Word := if bits ≤ x.bits then some ⟨bits, x.value % 2 ^ bits⟩ else none

/-- An operation with `overflowing` set -/
def binary (op : Nat → Nat → Nat) (x y : Word) : Option Word :=
  if x.bits = y.bits then some ⟨x.bits, op x.value y.value % 2 ^ x.bits⟩ else none

def add : Word → Word → Option Word := binary (· + ·)

def subtract (x y : Word) : Option Word := binary (fun l r => l + (2 ^ x.bits - r)) x y

def multiply : Word → Word → Option Word := binary (· * ·)

/-- `MoreEqual`, without a sign -/
def moreEqual (x y : Word) : Option Bool := if x.bits = y.bits then some (decide (y.value ≤ x.value)) else none

variable (t : Target)

def shiftLeft (x y : Word) : Option Word := binary (fun l r => if r < x.bits then l <<< r else t.poison l r) x y

def shiftRight (x y : Word) : Option Word := binary (fun l r => if r < x.bits then l >>> r else t.poison l r) x y

def converted (bits : Nat) (x : Word) (expr : CastExpr) : Option Word :=
  match expr.eval t.toNamespace (.uint x.bits) x.value with
  | .value n => some ⟨bits, n⟩
  | .abort | .rejected => none

/-- `Expression::cast` to `Uint(bits)` -/
def cast (bits : Nat) (x : Word) : Option Word :=
  converted t bits x (castCodegen t.toNamespace (.uint x.bits) (.uint bits))

/-- The explicit cast of `sema` to `Uint(bits)` -/
def semaCast (bits : Nat) (x : Word) : Option Word :=
  match castTypes t.toNamespace none false (.uint x.bits) (.uint bits) with
  | .ok expr => converted t bits x expr
  | .error _ => none

end Word

/-- The smallest type for a literal, of `bigint_to_expression` -/
def literal (n : Nat) : Option Word :=
  if n.size ≤ 256 then some ⟨if n.size < 7 then 8 else (n.size + 7) / 8 * 8, n⟩ else none

variable (t : Target)

/-- `getelementptr`: the index has a sign -/
def gep (address : Nat) (index : Word) (size : Nat) : Nat :=
  wrap t.ptrBits (address + signed index.bits index.value * size)

/-! ## The code -/

def Array.length : Array → Nat
  | bytesN n _ _ => n
  | storageBytes length _ => length
  | memoryFixed length _ _ | memoryDynamic length _ _ | accounts length _ _ => length
  | storageFixed length _ _ _ | storageDynamic length _ _ _ => length

/-- `array_length` -/
def arrayLength : Array → Option Word
  | .bytesN n _ _ => literal n
  | .memoryFixed length _ _ | .storageFixed length _ _ _ => literal length
  | .storageDynamic length _ _ _ => some ⟨t.slotBits, length⟩
  | .memoryDynamic length _ _ | .accounts length _ _ | .storageBytes length _ => some ⟨32, length⟩

/-- `array >> ((n - 1 - index) << 3)` -/
def byteFrom (n value : Nat) (shiftArg : Word) : Option Word := do
  let difference ← Word.subtract ⟨n * 8, n - 1⟩ shiftArg
  let places ← difference.shiftLeft t ⟨n * 8, 3⟩
  let shifted ← Word.shiftRight t ⟨n * 8, value⟩ places
  shifted.trunc 8

/-- The arm for `bytesN`. `to_width` is the width of `array_ty`, which is a reference to storage where the value was
loaded from there. -/
def bytesSubscript (n value : Nat) (inStorage : Bool) (indexWidth : Nat) (pos : Word) : Option Word := do
  let toWidth := if inStorage then t.slotBits else n * 8
  let shiftArg ←
    if indexWidth = toWidth then some pos
    else if indexWidth < toWidth then pos.zeroExt (n * 8)
    else pos.trunc (n * 8)
  byteFrom t n value shiftArg

/-- `array_offset` -/
def arrayOffset (start index : Word) (elemSize : Nat) : Option Word :=
  if elemSize = 1 then start.add index
  else if elemSize &&& (elemSize - 1) = 0 then do
    start.add (← index.shiftLeft t ⟨t.slotBits, elemSize.log2⟩)
  else do
    start.add (← index.multiply ⟨t.slotBits, elemSize % 2 ^ t.slotBits⟩)

/-- The offset with 64 bits -/
def shortOffset (start pos : Word) (elemSize : Nat) : Option Word := do
  let product ← (← pos.cast t 64).multiply ⟨64, elemSize % 2 ^ 64⟩
  start.add (← product.zeroExt t.slotBits)

/-- An element in storage with a slot or more for each, not on Solana -/
def slotSubscript (length : Option Nat) (size : Nat) (start pos : Word) : Option Word :=
  if length.any (· * size < 2 ^ 64) then shortOffset t start pos size
  else do
    arrayOffset t start (← pos.cast t t.slotBits) size

/-- An array of fixed length on Solana that is not sparse -/
def solanaSubscript (size : Nat) (start pos : Word) : Option Word := do
  let index ← pos.cast t t.slotBits
  start.add (← index.multiply ⟨t.slotBits, size % 2 ^ t.slotBits⟩)

/-- What the emitter does for a dynamic array in memory: the index is cut to 32 bits -/
def memorySubscript (size address : Nat) (pos : Word) : Option Nat := do
  let index ← if 32 < pos.bits then pos.trunc 32 else some pos
  let offset ← index.multiply ⟨32, size % 2 ^ 32⟩
  some (gep t address offset 1)

/-- The element at a position that is in bounds -/
def elementAt (array : Array) (indexWidth : Nat) (pos : Word) : Option Element :=
  match array with
  | .bytesN n value inStorage => do
    let byte ← bytesSubscript t n value inStorage indexWidth pos
    some (.byte byte.value)
  | .storageBytes _ slot => some (.byteAt slot pos.value)
  | .memoryFixed _ size address | .accounts _ size address => some (.address (gep t address pos size))
  | .memoryDynamic _ size address => do
    let n ← memorySubscript t size address pos
    some (.address n)
  | .storageFixed length size slot sparse =>
    if t.solana then
      if sparse then do
        let index ← pos.cast t 256
        some (.entry slot index.value)
      else do
        let n ← solanaSubscript t size ⟨t.slotBits, slot⟩ pos
        some (.slot n.value)
    else do
      let n ← slotSubscript t (some length) size ⟨t.slotBits, slot⟩ pos
      some (.slot n.value)
  | .storageDynamic _ size slot sparse =>
    if t.solana then
      -- The keys of a sparse array have 256 bits, and the index has been cast to the type of slots.
      if sparse then none
      else do
        let n ← solanaSubscript t size ⟨t.slotBits, t.offset slot⟩ pos
        some (.slot n.value)
    else do
      let n ← slotSubscript t none size ⟨t.slotBits, t.keccak256 slot⟩ pos
      some (.slot n.value)

/-- The bounds check -/
def arraySubscript (array : Array) (index : Word) : Option Outcome :=
  match array with
  | .storageBytes length slot => do
    -- The check is in the emitter, for 32 bits.
    let index ← index.semaCast t 32
    let outOfBounds ← index.moreEqual ⟨32, length⟩
    some (if outOfBounds then .abort else .element (.byteAt slot index.value))
  | array => do
    let length ← arrayLength t array
    let width := max length.bits index.bits
    let pos ← index.cast t width
    let outOfBounds ← pos.moreEqual (← length.cast t width)
    let e ← elementAt t array index.bits pos
    some (if outOfBounds then .abort else .element e)

/-! ## What it means -/

/-- Element number `i` -/
def Array.element (i : Nat) : Array → Element
  | bytesN n value _ => .byte (value / 256 ^ (n - 1 - i) % 256)
  | storageBytes _ slot => .byteAt slot i
  | memoryFixed _ size address | memoryDynamic _ size address | accounts _ size address =>
    .address ((address + i * size) % 2 ^ t.ptrBits)
  | storageFixed _ size slot sparse =>
    if t.solana ∧ sparse then .entry slot i else .slot ((slot + i * size) % 2 ^ t.slotBits)
  | storageDynamic _ size slot _ =>
    let start := if t.solana then t.offset slot else t.keccak256 slot
    .slot ((start + i * size) % 2 ^ t.slotBits)

/-- The width of the index once it is compared with the length -/
def positionBits (array : Array) (index : Word) : Nat :=
  max ((arrayLength t array).elim 0 Word.bits) index.bits

/-- The two forms of the offset are the same, where the code has the short one. -/
def SameOffset (index : Word) (array : Array) : Prop :=
  match array with
  | .storageFixed length size slot _ => t.solana = false → index.value < length → length * size < 2 ^ 64 →
      shortOffset t ⟨t.slotBits, slot⟩ ⟨positionBits t array index, index.value⟩ size =
        arrayOffset t ⟨t.slotBits, slot⟩ ⟨t.slotBits, index.value⟩ size
  | _ => True

/-- The code aborts where the index is out of bounds, and denotes the element elsewhere. -/
structure Correct (array : Array) (index : Word) : Prop where
  outcome : arraySubscript t array index =
    some (if array.length ≤ index.value then .abort else .element (array.element t index.value))
  offset : SameOffset t index array

/-! ## Where it does -/

def Word.Valid (x : Word) : Prop := 8 ≤ x.bits ∧ x.bits ≤ 256 ∧ x.value < 2 ^ x.bits

/-- The bounds of the types -/
def Array.Valid : Array → Prop
  | bytesN n value _ => 0 < n ∧ n ≤ 32 ∧ value < 2 ^ (n * 8)
  | storageBytes length _ => length < 2 ^ 32
  | memoryFixed length size _ => length < 2 ^ 256 ∧ size < 2 ^ 32
  | memoryDynamic length size _ | accounts length size _ => length < 2 ^ 32 ∧ size < 2 ^ 32
  | storageFixed length size _ _ => length < 2 ^ 256 ∧ 0 < size ∧ size < 2 ^ t.slotBits
  | storageDynamic length size _ _ => length < 2 ^ t.slotBits ∧ 0 < size ∧ size < 2 ^ t.slotBits

/-- The top bit of the position is clear, or no part of the address. -/
def Unsigned (size : Nat) (bits value : Nat) : Prop := 2 * value < 2 ^ bits ∨ 2 ^ t.ptrBits ∣ 2 ^ bits * size

/-- Where the code is correct -/
def Addressed (index : Word) (array : Array) : Prop :=
  match array with
  | .bytesN n _ inStorage => inStorage = true → (index.bits ≤ n * 8 ∨ t.slotBits < index.bits) ∧
      (n * 8 ≤ index.bits ∨ index.bits < t.slotBits)
  | .storageBytes length _ => index.value < 2 ^ 32 ∨ length ≤ index.value % 2 ^ 32
  | .memoryFixed length size _ | .accounts length size _ =>
    index.value < length → Unsigned t size (positionBits t array index) index.value
  | .memoryDynamic length size _ => index.value < length → t.solana = true → index.value * size < 2 ^ 31
  | .storageFixed _ _ _ _ => True
  | .storageDynamic _ _ _ sparse => t.solana = true → sparse = false

end Solang.Codegen.Subscript

/-!
## Array subscripts and the elements they denote

The index is compared at the width of the wider type, so that nothing is cut off before; after the comparison it is
less than the length. Where the code goes wrong is in the width that the position has from then on.
-/

namespace Solang.Codegen.Subscript

open EvmWord (signed wrap)

variable {t : Target} {array : Array} {index x y : Word} {n v w length size address slot : Nat}

/-! ### Operations -/

theorem Word.binary_eq (op : Nat → Nat → Nat) (w a b : Nat) :
    Word.binary op ⟨w, a⟩ ⟨w, b⟩ = some ⟨w, op a b % 2 ^ w⟩ := if_pos rfl

theorem castCodegen_eq (w bits : Nat) : Conversions.castCodegen t.toNamespace (.uint w) (.uint bits) =
    if Conversions.Ty.uint w = .uint bits then .operand
    else Conversions.resize .zeroExt w bits (.uint bits) .operand := rfl

/-- A cast is the residue, of which nothing is lost when the type is not narrower. -/
theorem Word.cast_eq (hx : x.value < 2 ^ x.bits) (bits : Nat) : x.cast t bits = some ⟨bits, x.value % 2 ^ bits⟩ := by
  have heval : (Conversions.castCodegen t.toNamespace (.uint x.bits) (.uint bits)).eval t.toNamespace (.uint x.bits)
      x.value = .value (x.value % 2 ^ bits) := by
    rw [castCodegen_eq]
    split
    · next heq =>
      obtain rfl : x.bits = bits := Conversions.Ty.uint.inj heq
      rw [Nat.mod_eq_of_lt hx]
      rfl
    · exact @Conversions.eval_resize_zeroExt t.toNamespace (.uint x.bits) (.uint bits) x.value rfl rfl hx
  simp only [Word.cast, Word.converted, heval]

theorem Word.semaCast_eq (hx : x.value < 2 ^ x.bits) (bits : Nat) :
    x.semaCast t bits = some ⟨bits, x.value % 2 ^ bits⟩ := by
  have htypes : Conversions.castTypes t.toNamespace none false (.uint x.bits) (.uint bits) =
      .ok (Conversions.resize .zeroExt x.bits bits (.uint bits) .operand) :=
    if_neg fun h => Bool.false_ne_true h.2
  have heval : (Conversions.resize .zeroExt x.bits bits (.uint bits) .operand).eval t.toNamespace (.uint x.bits)
      x.value = .value (x.value % 2 ^ bits) :=
    @Conversions.eval_resize_zeroExt t.toNamespace (.uint x.bits) (.uint bits) x.value rfl rfl hx
  simp only [Word.semaCast, Word.converted, htypes, heval]

/-- Without a loss -/
theorem Word.cast_wide (hx : x.value < 2 ^ x.bits) (hle : x.bits ≤ w) : x.cast t w = some ⟨w, x.value⟩ := by
  rw [Word.cast_eq hx, Nat.mod_eq_of_lt (hx.trans_le (Nat.pow_le_pow_right (by decide) hle))]

theorem literal_eq (hn : n < 2 ^ 256) : ∃ w, literal n = some ⟨w, n⟩ ∧ 8 ≤ w ∧ w ≤ 256 ∧ n < 2 ^ w := by
  have hsize : n.size ≤ 256 := Nat.size_le.mpr hn
  have hlt {w : Nat} (hw : n.size ≤ w) : n < 2 ^ w := Nat.size_le.mp hw
  unfold literal
  rw [if_pos hsize]
  split
  · exact ⟨8, rfl, by omega, by omega, hlt (by omega)⟩
  · exact ⟨_, rfl, by omega, by omega, hlt (by omega)⟩

/-! ### The bounds check -/

theorem Target.slotBits_le (t : Target) : 8 ≤ t.slotBits ∧ t.slotBits ≤ 256 := by
  unfold Target.slotBits
  split
  · omega
  · omega

theorem arrayLength_eq (harray : array.Valid t) :
    ∃ w, arrayLength t array = some ⟨w, array.length⟩ ∧ 8 ≤ w ∧ w ≤ 256 ∧ array.length < 2 ^ w := by
  cases array with
  | bytesN n value inStorage =>
    obtain ⟨-, hn, -⟩ := harray
    exact literal_eq (n := n) ((Nat.lt_two_pow_self).trans_le (Nat.pow_le_pow_right (by decide) (by omega)))
  | memoryFixed length size address => exact literal_eq harray.1
  | storageFixed length size slot sparse => exact literal_eq harray.1
  | storageDynamic length size slot sparse => exact ⟨_, rfl, t.slotBits_le.1, t.slotBits_le.2, harray.1⟩
  | storageBytes length slot => exact ⟨32, rfl, by omega, by omega, harray⟩
  | memoryDynamic length size address | accounts length size address =>
    exact ⟨32, rfl, by omega, by omega, harray.1⟩

/-- The comparison is at a width that has room for both. -/
theorem arraySubscript_eq (harray : array.Valid t) (hindex : index.Valid)
    (hbytes : ∀ length slot, array ≠ .storageBytes length slot) :
    arraySubscript t array index = (elementAt t array index.bits ⟨positionBits t array index, index.value⟩).map fun e =>
      if array.length ≤ index.value then .abort else .element e := by
  obtain ⟨w, hlength, -, -, hlt⟩ := arrayLength_eq harray
  have hbits : positionBits t array index = max w index.bits := by
    rw [positionBits, hlength]
    rfl
  have hcode : arraySubscript t array index = (do
      let length ← arrayLength t array
      let width := max length.bits index.bits
      let pos ← index.cast t width
      let outOfBounds ← pos.moreEqual (← length.cast t width)
      let e ← elementAt t array index.bits pos
      some (if outOfBounds then .abort else .element e)) := by
    cases array with
    | storageBytes length slot => exact absurd rfl (hbytes length slot)
    | _ => rfl
  rw [hcode, hlength, hbits]
  simp only [Option.bind_eq_bind, Option.bind_some, Word.cast_wide hindex.2.2 (le_max_right w index.bits),
    Word.cast_wide (x := ⟨w, array.length⟩) hlt (le_max_left w index.bits), Word.moreEqual, if_true,
    decide_eq_true_eq]
  cases elementAt t array index.bits ⟨max w index.bits, index.value⟩ with
  | none => rfl
  | some e => rfl

theorem outcome_iff (harray : array.Valid t) (hindex : index.Valid)
    (hbytes : ∀ length slot, array ≠ .storageBytes length slot) :
    arraySubscript t array index =
      some (if array.length ≤ index.value then .abort else .element (array.element t index.value)) ↔
      ∃ e, elementAt t array index.bits ⟨positionBits t array index, index.value⟩ = some e ∧
        (index.value < array.length → e = array.element t index.value) := by
  rw [arraySubscript_eq harray hindex hbytes, Option.map_eq_some_iff]
  refine exists_congr fun e => and_congr_right fun _ => ?_
  by_cases hlt : index.value < array.length
  · rw [if_neg (Nat.not_le.mpr hlt), if_neg (Nat.not_le.mpr hlt), Outcome.element.injEq]
    exact ⟨fun h _ => h, fun h => h hlt⟩
  · rw [if_pos (Nat.not_lt.mp hlt), if_pos (Nat.not_lt.mp hlt)]
    exact iff_of_true rfl fun h => absurd h hlt

/-! ### Addresses -/

/-- The index of an address is taken with a sign, so that its top bit moves the address. -/
theorem gep_eq_iff :
    gep t address ⟨w, v⟩ size = (address + v * size) % 2 ^ t.ptrBits ↔ Unsigned t size w v := by
  have hcast : (address : Int) + v * size = ((address + v * size : Nat) : Int) := by norm_cast
  rw [← EvmWord.wrap_natCast, ← hcast, gep, EvmWord.wrap_eq_iff, signed, Unsigned]
  dsimp only
  by_cases hlow : 2 * v < 2 ^ w
  · rw [if_pos hlow]
    refine iff_of_true ?_ (.inl hlow)
    rw [sub_self]
    exact dvd_zero _
  · have hdiff : (address : Int) + ((v : Int) - 2 ^ w) * size - (address + v * size) = -(2 ^ w * size) := by ring
    have hnat : (2 ^ t.ptrBits : Int) ∣ 2 ^ w * size ↔ 2 ^ t.ptrBits ∣ 2 ^ w * size := by
      exact_mod_cast Iff.rfl
    rw [if_neg hlow, hdiff, dvd_neg, hnat]
    exact ⟨.inr, fun h => h.resolve_left hlow⟩

theorem memorySubscript_eq (hw : 32 ≤ w) (hv : v < 2 ^ w) : memorySubscript t size address ⟨w, v⟩ =
    some (gep t address ⟨32, v * size % 2 ^ 32⟩ 1) := by
  have hmul : (v % 2 ^ 32) * (size % 2 ^ 32) % 2 ^ 32 = v * size % 2 ^ 32 := (Nat.mul_mod ..).symm
  unfold memorySubscript
  by_cases hwide : 32 < w
  · rw [if_pos hwide, Word.trunc, if_pos hw]
    simp only [Option.bind_eq_bind, Option.bind_some, Word.multiply, Word.binary_eq, hmul]
  · obtain rfl : w = 32 := by omega
    have hmul' : v * (size % 2 ^ 32) % 2 ^ 32 = v * size % 2 ^ 32 := Nat.mul_mod_mod ..
    rw [if_neg hwide]
    simp only [Option.bind_eq_bind, Option.bind_some, Word.multiply, Word.binary_eq, hmul']

/-- Where pointers have 64 bits, the offset of the element has to be less than half of what 32 bits have. -/
theorem memory_offset_iff (hv : v < 2 ^ 32) (hsize : size < 2 ^ 32) :
    gep t address ⟨32, v * size % 2 ^ 32⟩ 1 = (address + v * size) % 2 ^ t.ptrBits ↔
      (t.solana = true → v * size < 2 ^ 31) := by
  have hcast : (address : Int) + v * size = ((address + v * size : Nat) : Int) := by norm_cast
  rw [← EvmWord.wrap_natCast (w := t.ptrBits) (address + v * size), ← hcast, gep, EvmWord.wrap_eq_iff, signed,
    Target.ptrBits]
  have hbound : v * size ≤ (2 ^ 32 - 1) * (2 ^ 32 - 1) := Nat.mul_le_mul (by omega) (by omega)
  rw [← Nat.cast_mul]
  generalize v * size = p at hbound
  dsimp only
  cases t.solana with
  | false =>
    refine iff_of_true ?_ (by rintro ⟨⟩)
    rw [if_neg Bool.false_ne_true]
    split
    · omega
    · omega
  | true =>
    simp only [if_true, forall_const]
    by_cases hlow : 2 * (p % 2 ^ 32) < 2 ^ 32
    · rw [if_pos hlow]
      omega
    · rw [if_neg hlow]
      omega

/-! ### Slots -/

theorem arrayOffset_eq {a : Nat} (hsize : 0 < size) (hlt : size < 2 ^ t.slotBits) :
    arrayOffset t ⟨t.slotBits, a⟩ ⟨t.slotBits, v⟩ size = some ⟨t.slotBits, (a + v * size) % 2 ^ t.slotBits⟩ := by
  unfold arrayOffset
  split
  · next hone => rw [hone, Nat.mul_one, Word.add, Word.binary_eq]
  · split
    · next hpow =>
      obtain ⟨k, rfl⟩ := (Nat.and_sub_one_eq_zero_iff_isPowerOfTwo hsize.ne').mp hpow
      have hk : k < t.slotBits := (Nat.pow_lt_pow_iff_right (by decide)).mp hlt
      simp only [Nat.log2_two_pow, Word.shiftLeft, Word.binary_eq, Option.bind_eq_bind, Option.bind_some, if_pos hk,
        Nat.shiftLeft_eq, Word.add, Nat.add_mod_mod]
    · rw [Nat.mod_eq_of_lt hlt]
      simp only [Word.multiply, Word.binary_eq, Option.bind_eq_bind, Option.bind_some, Word.add, Nat.add_mod_mod]

theorem shortOffset_some {a : Nat} (h64 : 64 ≤ t.slotBits) (hv : v < 2 ^ w) :
    shortOffset t ⟨t.slotBits, a⟩ ⟨w, v⟩ size =
      some ⟨t.slotBits, (a + (v % 2 ^ 64) * (size % 2 ^ 64) % 2 ^ 64) % 2 ^ t.slotBits⟩ := by
  unfold shortOffset
  rw [Word.cast_eq (x := ⟨w, v⟩) hv]
  simp only [Option.bind_eq_bind, Option.bind_some, Word.multiply, Word.binary_eq, Word.zeroExt, if_pos h64, Word.add]

/-- Nothing is lost in 64 bits, for an index that is in bounds. -/
theorem shortOffset_eq {a : Nat} (h64 : 64 ≤ t.slotBits) (hw : v < 2 ^ w) (hsize : 0 < size) (hv : v < length)
    (hfits : length * size < 2 ^ 64) :
    shortOffset t ⟨t.slotBits, a⟩ ⟨w, v⟩ size = some ⟨t.slotBits, (a + v * size) % 2 ^ t.slotBits⟩ := by
  have hproduct : v * size < 2 ^ 64 := (Nat.mul_lt_mul_of_pos_right hv hsize).trans hfits
  have hv64 : v < 2 ^ 64 := (Nat.le_mul_of_pos_right v hsize).trans_lt hproduct
  have hsize64 : size < 2 ^ 64 := (Nat.le_mul_of_pos_left size (by omega)).trans_lt hfits
  rw [shortOffset_some h64 hw, Nat.mod_eq_of_lt hv64, Nat.mod_eq_of_lt hsize64, Nat.mod_eq_of_lt hproduct]

/-- The slot of an element, by either form of the offset -/
theorem slotSubscript_eq (a : Nat) (fixed : Option Nat) (hsolana : t.solana = false) (hw : v < 2 ^ w) (hv : v < 2 ^ 256)
    (hsize : 0 < size) (hlt : size < 2 ^ t.slotBits) :
    ∃ x, slotSubscript t fixed size ⟨t.slotBits, a⟩ ⟨w, v⟩ = some x ∧
      ((∀ length ∈ fixed, v < length) → x.value = (a + v * size) % 2 ^ t.slotBits) := by
  have hbits : t.slotBits = 256 := by
    rw [Target.slotBits, hsolana]
    rfl
  have h64 : 64 ≤ t.slotBits := by omega
  unfold slotSubscript
  split
  · next hshort =>
    refine ⟨_, shortOffset_some h64 hw, fun hbounds => ?_⟩
    obtain ⟨length, rfl, hfits⟩ := (Option.any_eq_true _ _).mp hshort
    have heq := shortOffset_eq (t := t) (a := a) h64 hw hsize (hbounds length rfl) (of_decide_eq_true hfits)
    rw [shortOffset_some h64 hw] at heq
    exact congrArg Word.value (Option.some.inj heq)
  · rw [Word.cast_eq (x := ⟨w, v⟩) hw, Option.bind_eq_bind, Option.bind_some,
      Nat.mod_eq_of_lt (by rw [hbits]; exact hv), arrayOffset_eq hsize hlt]
    exact ⟨_, rfl, fun _ => rfl⟩

theorem solanaSubscript_eq {a : Nat} (hv : v < 2 ^ w) :
    solanaSubscript t size ⟨t.slotBits, a⟩ ⟨w, v⟩ = some ⟨t.slotBits, (a + v * size) % 2 ^ t.slotBits⟩ := by
  unfold solanaSubscript
  rw [Word.cast_eq (x := ⟨w, v⟩) hv]
  simp only [Option.bind_eq_bind, Option.bind_some, Word.multiply, Word.binary_eq, Word.add, ← Nat.mul_mod,
    Nat.add_mod_mod]

/-! ### Bytes -/

theorem byteFrom_none (value : Nat) (h : x.bits ≠ n * 8) : byteFrom t n value x = none := by
  have hsub : Word.subtract ⟨n * 8, n - 1⟩ x = none := if_neg h.symm
  unfold byteFrom
  rw [hsub]
  rfl

/-- The byte is what two shifts leave, once the index has the width of the bytes. -/
theorem byteFrom_some (hn : 0 < n) (value : Nat) : ∃ b, byteFrom t n value ⟨n * 8, v⟩ = some ⟨8, b⟩ ∧
    (v < n → b = value / 256 ^ (n - 1 - v) % 256) := by
  have hthree : 3 < n * 8 := by omega
  have height : 8 ≤ n * 8 := by omega
  unfold byteFrom
  simp only [Word.subtract, Word.shiftLeft, Word.shiftRight, Word.binary_eq, Option.bind_eq_bind, Option.bind_some,
    Word.trunc, if_pos hthree, if_pos height]
  refine ⟨_, rfl, fun hv => ?_⟩
  have hpow : n * 8 < 2 ^ (n * 8) := Nat.lt_two_pow_self
  have hdifference : (n - 1 + (2 ^ (n * 8) - v)) % 2 ^ (n * 8) = n - 1 - v := by
    rw [show n - 1 + (2 ^ (n * 8) - v) = n - 1 - v + 2 ^ (n * 8) by omega, Nat.add_mod_right,
      Nat.mod_eq_of_lt (by omega)]
  have hplaces : (n - 1 - v) <<< 3 % 2 ^ (n * 8) = 8 * (n - 1 - v) := by
    rw [Nat.shiftLeft_eq, Nat.mod_eq_of_lt (by omega), Nat.mul_comm]
  rw [hdifference, hplaces, if_pos (by omega), Nat.mod_mod_of_dvd _ (Nat.pow_dvd_pow 2 height),
    Nat.shiftRight_eq_div_pow, Nat.pow_mul]

/-- Whether the position has the width of the bytes, or comes to have it -/
theorem bytesSubscript_iff {value : Nat} {inStorage : Bool} (harray : (Array.bytesN n value inStorage).Valid t)
    (hv : v < 2 ^ w) :
    (∃ b, bytesSubscript t n value inStorage w ⟨w, v⟩ = some b ∧ (v < n → b.value = value / 256 ^ (n - 1 - v) % 256)) ↔
      (inStorage = true → (w ≤ n * 8 ∨ t.slotBits < w) ∧ (n * 8 ≤ w ∨ w < t.slotBits)) := by
  obtain ⟨hn, hn32, -⟩ := harray
  -- What is left to do when the index has a width
  have hfound {u : Nat} (hu : v < n → u = v) : ∃ b, byteFrom t n value ⟨n * 8, u⟩ = some b ∧
      (v < n → b.value = value / 256 ^ (n - 1 - v) % 256) := by
    obtain ⟨b, hb, hvalue⟩ := byteFrom_some (t := t) (v := u) hn value
    refine ⟨⟨8, b⟩, hb, fun hlt => ?_⟩
    obtain rfl := hu hlt
    exact hvalue hlt
  have hresidue : v < n → v % 2 ^ (n * 8) = v := by
    intro hlt
    have hpow : n * 8 < 2 ^ (n * 8) := Nat.lt_two_pow_self
    exact Nat.mod_eq_of_lt (by omega)
  unfold bytesSubscript
  dsimp only
  have hwidths : (inStorage = true → (w ≤ n * 8 ∨ t.slotBits < w) ∧ (n * 8 ≤ w ∨ w < t.slotBits)) ↔
      (w ≤ n * 8 ∨ (if inStorage then t.slotBits else n * 8) < w) ∧
        (n * 8 ≤ w ∨ w < if inStorage then t.slotBits else n * 8) := by
    cases inStorage with
    | true => simp
    | false =>
      simp only [Bool.false_eq_true, if_false, false_imp_iff, true_iff]
      omega
  rw [hwidths]
  generalize (if inStorage then t.slotBits else n * 8) = toWidth
  rcases Nat.lt_trichotomy w toWidth with hlt | rfl | hgt
  · rw [if_neg hlt.ne, if_pos hlt, Word.zeroExt]
    by_cases hle : w ≤ n * 8
    · rw [if_pos hle, Option.bind_eq_bind, Option.bind_some]
      exact iff_of_true (hfound fun _ => rfl) ⟨.inl hle, .inr hlt⟩
    · rw [if_neg hle]
      refine iff_of_false ?_ (by omega)
      rintro ⟨b, hb, -⟩
      cases hb
  · rw [if_pos rfl, Option.bind_eq_bind, Option.bind_some]
    by_cases heq : w = n * 8
    · subst heq
      exact iff_of_true (hfound fun _ => rfl) ⟨.inl le_rfl, .inl le_rfl⟩
    · refine iff_of_false ?_ (by omega)
      rintro ⟨b, hb, -⟩
      rw [byteFrom_none value heq] at hb
      cases hb
  · rw [if_neg hgt.ne', if_neg hgt.not_gt, Word.trunc]
    by_cases hle : n * 8 ≤ w
    · rw [if_pos hle, Option.bind_eq_bind, Option.bind_some]
      exact iff_of_true (hfound hresidue) ⟨.inr hgt, .inl hle⟩
    · rw [if_neg hle]
      refine iff_of_false ?_ (by omega)
      rintro ⟨b, hb, -⟩
      cases hb

/-! ### Elements -/

/-- The condition is about the element at the position. -/
theorem elementAt_iff (harray : array.Valid t) (hindex : index.Valid)
    (hbytes : ∀ length slot, array ≠ .storageBytes length slot) :
    (∃ e, elementAt t array index.bits ⟨positionBits t array index, index.value⟩ = some e ∧
      (index.value < array.length → e = array.element t index.value)) ↔ Addressed t index array := by
  obtain ⟨h8, h256, hlt⟩ := hindex
  have hv256 : index.value < 2 ^ 256 := hlt.trans_le (Nat.pow_le_pow_right (by decide) h256)
  have hle : index.bits ≤ positionBits t array index := le_max_right _ _
  have hpos : index.value < 2 ^ positionBits t array index := hlt.trans_le (Nat.pow_le_pow_right (by decide) hle)
  cases array with
  | storageBytes length slot => exact absurd rfl (hbytes length slot)
  | bytesN n value inStorage =>
    have hwidth : positionBits t (.bytesN n value inStorage) index = index.bits := by
      have hsize : n.size < 7 := Nat.lt_succ_of_le (Nat.size_le.mpr (harray.2.1.trans_lt (by decide)))
      have hliteral : literal n = some ⟨8, n⟩ := by
        rw [literal, if_pos (by omega), if_pos hsize]
      rw [positionBits, arrayLength, hliteral]
      exact max_eq_right h8
    rw [hwidth, ← show _ ↔ Addressed t index (.bytesN n value inStorage) from bytesSubscript_iff harray hlt]
    simp only [elementAt, Option.bind_eq_bind, Option.bind_eq_some_iff, Option.some.injEq]
    constructor
    · rintro ⟨_, ⟨b, hb, rfl⟩, he⟩
      exact ⟨b, hb, fun hv => Element.byte.inj (he hv)⟩
    · rintro ⟨b, hb, hvalue⟩
      exact ⟨_, ⟨b, hb, rfl⟩, fun hv => congrArg Element.byte (hvalue hv)⟩
  | memoryFixed length size address | accounts length size address =>
    simp only [elementAt, Option.some.injEq, exists_eq_left', Array.element, Element.address.injEq, gep_eq_iff]
    rfl
  | memoryDynamic length size address =>
    have h32 : 32 ≤ positionBits t (.memoryDynamic length size address) index := le_max_left _ _
    simp only [elementAt, memorySubscript_eq h32 hpos, Option.bind_eq_bind, Option.bind_some, Option.some.injEq,
      exists_eq_left', Array.element, Element.address.injEq]
    exact forall_congr' fun hv => memory_offset_iff ((show index.value < length from hv).trans harray.1) harray.2
  | storageFixed length size slot sparse =>
    refine iff_of_true ?_ trivial
    cases hsolana : t.solana with
    | false =>
      obtain ⟨x, hx, hvalue⟩ := slotSubscript_eq slot (some length) hsolana hpos hv256 harray.2.1 harray.2.2
      simp only [elementAt, hsolana, Bool.false_eq_true, if_false, hx, Option.bind_eq_bind, Option.bind_some,
        Option.some.injEq, exists_eq_left', Array.element, false_and]
      intro hv
      rw [hvalue]
      rintro _ ⟨⟩
      exact hv
    | true =>
      cases sparse with
      | true =>
        have hcast := Word.cast_eq (t := t) (x := ⟨positionBits t (.storageFixed length size slot true) index, index.value⟩)
          hpos 256
        rw [Nat.mod_eq_of_lt hv256] at hcast
        simp only [elementAt, hsolana, if_true, hcast, Option.bind_eq_bind, Option.bind_some, Option.some.injEq,
          exists_eq_left', Array.element, true_and, implies_true]
      | false =>
        simp only [elementAt, hsolana, if_true, Bool.false_eq_true, if_false, solanaSubscript_eq hpos,
          Option.bind_eq_bind, Option.bind_some, Option.some.injEq, exists_eq_left', Array.element, and_false,
          implies_true]
  | storageDynamic length size slot sparse =>
    cases hsolana : t.solana with
    | false =>
      refine iff_of_true ?_ fun h => absurd (hsolana.symm.trans h) Bool.false_ne_true
      obtain ⟨x, hx, hvalue⟩ := slotSubscript_eq (t.keccak256 slot) none hsolana hpos hv256 harray.2.1
        harray.2.2
      simp only [elementAt, hsolana, Bool.false_eq_true, if_false, hx, Option.bind_eq_bind, Option.bind_some,
        Option.some.injEq, exists_eq_left', Array.element]
      intro hv
      rw [hvalue (by rintro _ ⟨⟩)]
    | true =>
      cases sparse with
      | true =>
        simp only [elementAt, hsolana, if_true, reduceCtorEq, false_and, exists_false, Addressed, Bool.true_eq_false,
          imp_false, not_true_eq_false]
      | false =>
        simp only [elementAt, hsolana, if_true, Bool.false_eq_true, if_false, solanaSubscript_eq hpos,
          Option.bind_eq_bind, Option.bind_some, Option.some.injEq, exists_eq_left', Array.element, Addressed,
          implies_true]

theorem offset_same (harray : array.Valid t) (hindex : index.Valid) : SameOffset t index array := by
  cases array with
  | storageFixed length size slot sparse =>
    intro hsolana hlt hfits
    have h64 : 64 ≤ t.slotBits := by
      rw [Target.slotBits, hsolana]
      decide
    have hpos : index.value < 2 ^ positionBits t (.storageFixed length size slot sparse) index :=
      hindex.2.2.trans_le (Nat.pow_le_pow_right (by decide) (le_max_right _ _))
    rw [arrayOffset_eq harray.2.1 harray.2.2, shortOffset_eq h64 hpos harray.2.1 hlt hfits]
  | _ => trivial

theorem storageBytes_iff (harray : (Array.storageBytes length slot).Valid t) (hindex : index.Valid) :
    arraySubscript t (.storageBytes length slot) index =
      some (if length ≤ index.value then .abort else .element (.byteAt slot index.value)) ↔
      index.value < 2 ^ 32 ∨ length ≤ index.value % 2 ^ 32 := by
  have hlength : length < 2 ^ 32 := harray
  have hcode : arraySubscript t (.storageBytes length slot) index =
      some (if length ≤ index.value % 2 ^ 32 then .abort else .element (.byteAt slot (index.value % 2 ^ 32))) := by
    unfold arraySubscript
    rw [Word.semaCast_eq hindex.2.2]
    simp only [Option.bind_eq_bind, Option.bind_some, Word.moreEqual, if_true, decide_eq_true_eq]
  rw [hcode, Option.some.injEq]
  by_cases hsmall : index.value < 2 ^ 32
  · rw [Nat.mod_eq_of_lt hsmall]
    exact iff_of_true rfl (.inl hsmall)
  · rw [if_pos (by omega : length ≤ index.value)]
    by_cases hle : length ≤ index.value % 2 ^ 32
    · rw [if_pos hle]
      exact iff_of_true rfl (.inr hle)
    · rw [if_neg hle]
      exact iff_of_false (by rintro ⟨⟩) (by omega)

namespace Sample

def polkadot : Target where
  addressLength := 32
  valueLength := 16
  enumValues _ := 0
  solana := false
  keccak256 slot := slot + 1000
  offset slot := slot
  poison _ _ := 0

/-- Element 150 of `uint256[200]`, by an index of the type `uint8`, is before the array. -/
example : arraySubscript polkadot (.memoryFixed 200 32 4096) ⟨8, 150⟩ = some (.element (.address 704)) := by decide

end Sample

end Solang.Codegen.Subscript
