import Solang.Codegen.Encoding.Types
import Solang.Lib.Traced

/-!
# The buffer and its validator

The decoder is a code generator. A definition here takes what is known when
code is generated (types, the state of the `BufferValidator`) and returns the
new state together with the code, a function of the run-time offset. Running
code accesses the buffer (`Access`) and may abort.

The arithmetic on offsets is the checked arithmetic of `uint32`: it aborts
instead of wrapping.
-/

namespace Solang.Codegen.Encoding

/-- `byte i` is what memory holds `i` bytes after the start of the buffer, also
past its end. -/
structure Buffer where
  length : Nat
  length_lt : length < 2 ^ 32
  byte : Nat → UInt8

def Buffer.ofBytes (bytes : List UInt8) (h : bytes.length < 2 ^ 32) : Buffer where
  length := bytes.length
  length_lt := h
  byte i := bytes.getD i 0

def Buffer.slice (buf : Buffer) (offset size : Nat) : List UInt8 :=
  (List.range size).map fun i => buf.byte (offset + i)

/-- What an access reads: the length in front of a dynamic value, or its data. -/
inductive AccessKind where
  | length
  | data
  deriving DecidableEq, Repr

structure Access where
  kind : AccessKind
  offset : Nat
  size : Nat
  deriving DecidableEq, Repr

def Access.Inside (length : Nat) (a : Access) : Prop := a.offset + a.size ≤ length

instance (length : Nat) (a : Access) : Decidable (a.Inside length) :=
  inferInstanceAs (Decidable (_ ≤ _))

abbrev Code (α : Type) := Traced Access α

namespace Code

def toU32 (n : Nat) : Code Nat := do
  Traced.require (n < 2 ^ 32)
  pure n

def addU32 (a b : Nat) : Code Nat := toU32 (a + b)

def mulU32 (a b : Nat) : Code Nat := toU32 (a * b)

/-- `Builtin::ReadFromBuffer` and the source of `Instr::MemCopy` -/
def read (buf : Buffer) (kind : AccessKind) (offset size : Nat) : Code (List UInt8) :=
  Traced.emit ⟨kind, offset, size⟩ (buf.slice offset size)

end Code

open Code

/-- `buffer_length` is the length of the buffer the code runs on. -/
structure BufferValidator where
  types : List AbiType
  verifiedUntil : Option Nat
  currentArg : Nat

namespace BufferValidator

def new (types : List AbiType) : BufferValidator := ⟨types, none, 0⟩

def setArgumentNumber (v : BufferValidator) (argNo : Nat) : BufferValidator :=
  { v with currentArg := argNo }

/-- `build_out_of_bounds_fail_branch` -/
def validateOffset (buf : Buffer) (offset : Nat) : Code Unit :=
  Traced.require (offset ≤ buf.length)

def validationNecessary (v : BufferValidator) : Bool :=
  match v.verifiedUntil with
  | none => true
  | some n => n < v.currentArg

def validateArray (v : BufferValidator) : BufferValidator :=
  { v with verifiedUntil := some v.currentArg }

def validateOffsetPlusSize (v : BufferValidator) (buf : Buffer) (offset size : Nat) : Code Unit :=
  if v.validationNecessary then do
    let reach ← addU32 offset size
    validateOffset buf reach
  else pure ()

def validateAllBytesRead (buf : Buffer) (endOffset : Nat) : Code Unit :=
  Traced.require (¬ endOffset < buf.length)

/-- The last argument of `tys`, whose first one has number `i`, before a dynamic
one; `acc` when there is none. -/
def maximumVerifiable (acc : Nat) : Nat → List AbiType → Nat
  | _, [] => acc
  | i, ty :: tys => if ty.isDynamic then acc else maximumVerifiable i (i + 1) tys

/-- `_verify_buffer` -/
def verifyBuffer (v : BufferValidator) (ns : Namespace) (buf : Buffer) :
    BufferValidator × (Nat → Code Unit) :=
  let tys := v.types.drop v.currentArg
  let last := maximumVerifiable v.currentArg v.currentArg tys
  if last = v.currentArg then (v, fun _ => pure ())
  else
    let advance := AbiType.memorySizes ns (tys.take (last + 1 - v.currentArg))
    ({ v with verifiedUntil := some last }, fun offset => do
      let reach ← addU32 offset advance
      validateOffset buf reach)

def initializeValidation (v : BufferValidator) (ns : Namespace) (buf : Buffer) :
    BufferValidator × (Nat → Code Unit) :=
  verifyBuffer { v with verifiedUntil := none } ns buf

def validateBuffer (v : BufferValidator) (ns : Namespace) (buf : Buffer) :
    BufferValidator × (Nat → Code Unit) :=
  if v.validationNecessary then v.verifyBuffer ns buf else (v, fun _ => pure ())

def createSubValidator (v : BufferValidator) (types : List AbiType) : BufferValidator :=
  if v.validationNecessary then ⟨types, none, 0⟩ else ⟨types, some types.length, types.length⟩

end BufferValidator

end Solang.Codegen.Encoding

/-!
## The decoder

`abi_decode` and `AbiEncoding::read_from_buffer` for Borsh (Solana) and SCALE
(the other targets). `Value.memory` is an object the code fills by one copy
from the buffer; the other values are assembled from what was read.

An expression the decoder returns without storing it (an external function) is
evaluated by its first user; here it is read at once.
-/

namespace Solang.Codegen.Encoding

open Code BufferValidator

/-- A `scalar` lists the bytes of a register, the least significant one first. -/
inductive Value where
  | scalar (bytes : List UInt8)
  | bytes (data : List UInt8)
  | externalFunction (selector address : List UInt8)
  | array (elems : List Value)
  | struct (fields : List Value)
  | memory (bytes : List UInt8)

/-- Generated code for one item: from its offset to its value and the bytes it
takes. -/
abbrev Generated := BufferValidator × (Nat → Code (Value × Nat))

def littleEndian : List UInt8 → Nat
  | [] => 0
  | b :: bs => b.toNat + 256 * littleEndian bs

/-- The length at `offset` and the bytes it takes. -/
def decodeCompact (buf : Buffer) (offset : Nat) : Code (Nat × Nat) := do
  let sizeWidth := littleEndian (← read buf .length offset 1)
  match sizeWidth % 4 with
  | 0 => pure (sizeWidth / 4, 1)
  | 1 =>
    let b ← read buf .length offset 2
    pure (littleEndian b / 4, 2)
  | 2 =>
    let b ← read buf .length offset 4
    pure (littleEndian b / 4, 4)
  -- sizes of 2^30 or larger
  | _ => Traced.abort

def retrieveArrayLength (ns : Namespace) (buf : Buffer) (offset : Nat) : Code (Nat × Nat) :=
  match ns.target with
  | .solana => do
    let b ← read buf .length offset 4
    pure (littleEndian b, 4)
  | _ => decodeCompact buf offset

/-- `bytesN` is big endian on the wire. -/
def Elementary.load (ty : Elementary) (wire : List UInt8) : Value :=
  match ty with
  | .bytes _ => .scalar wire.reverse
  | _ => .scalar wire

def readElementary (ns : Namespace) (buf : Buffer) (ty : Elementary) (v : BufferValidator)
    (offset : Nat) : Code (Value × Nat) := do
  v.validateOffsetPlusSize buf offset (ty.wireSize ns)
  let b ← read buf .data offset (ty.memorySize ns)
  pure (ty.load b, ty.wireSize ns)

def readBytes (ns : Namespace) (buf : Buffer) (offset : Nat) : Code (Value × Nat) := do
  let (length, sizeLength) ← retrieveArrayLength ns buf offset
  let start ← addU32 offset sizeLength
  validateOffset buf start
  let total ← addU32 length sizeLength
  let reach ← addU32 offset total
  validateOffset buf reach
  let b ← read buf .data start length
  pure (.bytes b, total)

def decodeExternalFunction (ns : Namespace) (buf : Buffer) (v : BufferValidator) (offset : Nat) :
    Code (Value × Nat) :=
  match ns.target with
  | .solana => do
    let size := ns.addressLength + ns.target.selectorLength
    v.validateOffsetPlusSize buf offset size
    let selector ← read buf .data offset ns.target.selectorLength
    let next ← addU32 offset ns.target.selectorLength
    let address ← read buf .data next ns.addressLength
    pure (.externalFunction selector.reverse address, size)
  | _ => do
    let size := ns.addressLength + 4
    v.validateOffsetPlusSize buf offset size
    let address ← read buf .data offset ns.addressLength
    let next ← addU32 offset ns.addressLength
    let selector ← read buf .data next ns.target.selectorLength
    pure (.externalFunction selector.reverse address, size)

/-- The part of `decode_array` that copies the elements. `dims` are the
dimensions, the last one being `outer`. -/
def copyArray (ns : Namespace) (buf : Buffer) (elem : AbiType) (dims : List AbiLength)
    (outer : AbiLength) (v : BufferValidator) (offset : Nat) : Code (Value × Nat) :=
  match outer with
  | .fixed _ => do
    -- `calculate_direct_copy_bytes_size`
    let size := (dims.map (AbiLength.size ns)).prod * elem.memorySize ns
    v.validateOffsetPlusSize buf offset size
    let b ← read buf .data offset size
    pure (.memory b, size)
  | .dynamic => do
    let (length, sizeWidth) ← retrieveArrayLength ns buf offset
    let start ← addU32 offset sizeWidth
    validateOffset buf start
    let size ← mulU32 length (elem.memorySize ns)
    v.validateOffsetPlusSize buf start size
    let b ← read buf .data start size
    let total ← addU32 size sizeWidth
    pure (.memory b, total)

/-- The number of elements of the dimension `dim` and the offset of the first. -/
def arrayLength (ns : Namespace) (buf : Buffer) (dim : AbiLength) (offset : Nat) :
    Code (Nat × Nat) :=
  match dim with
  | .fixed n => pure (n, offset)
  | .dynamic => do
    let (length, sizeLength) ← retrieveArrayLength ns buf offset
    let start ← addU32 offset sizeLength
    validateOffset buf start
    pure (length, start)

/-- One round of the loop over the elements of a dimension. -/
def arrayRound (body : Nat → Code (Value × Nat)) (s : List Value × Nat) :
    Code (List Value × Nat) := do
  let (x, offset) ← body s.2
  pure (s.1 ++ [x], offset)

/-- `dims` are the dimensions still to enter, outermost first. The code leads
from the offset to the value and the offset after it. -/
def decodeComplexArray (ns : Namespace) (buf : Buffer) (elem : AbiType)
    (readElem : BufferValidator → Generated) : List AbiLength → BufferValidator → Generated
  | [], v =>
    let (v, code) := readElem v
    (v, fun offset => do
      let (x, advance) ← code offset
      let offset ← addU32 advance offset
      pure (x, offset))
  | dim :: dims, v =>
    let known := v.validationNecessary && !(dim :: dims).contains .dynamic && !elem.isDynamic
    let size := ((dim :: dims).map (AbiLength.size ns)).prod * elem.memorySize ns
    let (v', body) :=
      decodeComplexArray ns buf elem readElem dims (if known then v.validateArray else v)
    (v', fun offset => do
      if known then v.validateOffsetPlusSize buf offset size
      let (n, offset) ← arrayLength ns buf dim offset
      let (xs, offset) ← Traced.iterate (arrayRound body) n ([], offset)
      pure (.array xs, offset))

def decodeArray (ns : Namespace) (buf : Buffer) (elem : AbiType)
    (readElem : BufferValidator → Generated) (dims : List AbiLength) (v : BufferValidator) :
    Generated :=
  let (v, code) := decodeComplexArray ns buf elem readElem dims.reverse v
  (v, fun offset => do
    let (x, reached) ← code offset
    pure (x, reached - offset))

/-- The bytes of a struct: its size without padding, or what its fields took at run time. -/
def structSize (size : Option Nat) (runtimeSize : Nat) : Code Nat :=
  match size with
  | some n => pure n
  | none => toU32 runtimeSize

mutual

def readFromBuffer (ns : Namespace) (buf : Buffer) : AbiType → BufferValidator → Generated
  | .elementary ty, v => (v, readElementary ns buf ty v)
  | .userType ty, v => (v, readElementary ns buf ty v)
  | .dynamicBytes, v => (v, readBytes ns buf)
  | .string, v => (v, readBytes ns buf)
  | .externalFunction, v => (v, decodeExternalFunction ns buf v)
  | .array elem inner outer, v =>
    if AbiType.allowMemcpy ns (.array elem inner outer) then
      (v, copyArray ns buf elem (inner ++ [outer]) outer v)
    else decodeArray ns buf elem (readFromBuffer ns buf elem) (inner ++ [outer]) v
  | .slice elem, v => decodeArray ns buf elem (readFromBuffer ns buf elem) [.dynamic] v
  | .struct first rest, v =>
    let size := AbiType.nonPaddedSize ns (.struct first rest)
    if AbiType.allowMemcpy ns (.struct first rest) then
      (v, fun offset => do
        let size := size.getD 0
        v.validateOffsetPlusSize buf offset size
        let b ← read buf .data offset size
        pure (.memory b, size))
    else
      let sub := v.createSubValidator (first :: rest)
      let (sub, check) :=
        if v.validationNecessary then sub.initializeValidation ns buf
        else (sub, fun _ => pure ())
      let (sub, code) := readFromBuffer ns buf first sub
      (v, fun offset => do
        check offset
        let (x, advance) ← code offset
        let (xs, others) ← readFields ns buf rest 1 sub offset advance
        let size ← structSize size (advance + others)
        pure (.struct (x :: xs), size))

/-- The fields of a struct from number `i` on: `offset` and `advance` are those of
the field before. -/
def readFields (ns : Namespace) (buf : Buffer) :
    List AbiType → Nat → BufferValidator → Nat → Nat → Code (List Value × Nat)
  | [], _, _, _, _ => pure ([], 0)
  | ty :: tys, i, v, offset, advance => do
    let (v, check) := (v.setArgumentNumber i).validateBuffer ns buf
    let (v, code) := readFromBuffer ns buf ty v
    check offset
    let offset ← addU32 offset advance
    let (x, advance) ← code offset
    let (xs, others) ← readFields ns buf tys (i + 1) v offset advance
    pure (x :: xs, advance + others)

end

/-- The loop of `abi_decode` over the items from number `i` on. -/
def readItems (ns : Namespace) (buf : Buffer) :
    List AbiType → Nat → BufferValidator → Nat → Code (List Value × Nat)
  | [], _, _, offset => pure ([], offset)
  | ty :: tys, i, v, offset => do
    let (v, check) := (v.setArgumentNumber i).validateBuffer ns buf
    let (v, code) := readFromBuffer ns buf ty v
    check offset
    let (x, advance) ← code offset
    let offset ← addU32 offset advance
    let (xs, offset) ← readItems ns buf tys (i + 1) v offset
    pure (x :: xs, offset)

/-- The values and the number of bytes they took. -/
def abiDecode (ns : Namespace) (types : List AbiType) (buf : Buffer) :
    Code (List Value × Nat) := do
  let (v, check) := (BufferValidator.new types).initializeValidation ns buf
  check 0
  let (items, offset) ← readItems ns buf types 0 v 0
  validateAllBytesRead buf offset
  pure (items, offset)

end Solang.Codegen.Encoding

/-!
## One spec for each piece of the decoder

`Reads buf m Q`: when the length fields that `m` reads lie inside the buffer, so
does everything else it reads, and a result meets `Q`. An item is read in one of
two ways: on its own, checking the buffer itself (`Alone`), or under an earlier
check that covers its size in memory (`Covered`).
-/

namespace Solang.Codegen.Encoding

open Code BufferValidator Traced AbiType

/-- The assumption on a run: the lengths it reads are in the buffer. -/
def LengthInside (buf : Buffer) (a : Access) : Prop := a.kind = .length → a.Inside buf.length

def Reads {α : Type} (buf : Buffer) (m : Code α) (Q : α → Prop) : Prop :=
  Ensures (LengthInside buf) (Access.Inside buf.length) m Q

variable {ns : Namespace} {buf : Buffer} {v : BufferValidator} {offset size : Nat}

theorem reads_toU32 {n : Nat} : Reads buf (toU32 n) (· = n) :=
  Ensures.bind (P := fun _ => True) (ensures_require fun _ => trivial) fun _ _ => ensures_pure rfl

theorem reads_addU32 {a b : Nat} : Reads buf (addU32 a b) (· = a + b) := reads_toU32

theorem reads_validateOffset : Reads buf (validateOffset buf offset) fun _ => offset ≤ buf.length :=
  ensures_require id

theorem reads_data (h : offset + size ≤ buf.length) :
    Reads buf (read buf .data offset size) fun _ => True :=
  ensures_emit (fun _ => h) fun _ => trivial

theorem reads_length :
    Reads buf (read buf .length offset size) fun _ => True :=
  ensures_emit (fun h => h rfl) fun _ => trivial

theorem reads_validateOffsetPlusSize (hv : v.validationNecessary = true) :
    Reads buf (v.validateOffsetPlusSize buf offset size) fun _ => offset + size ≤ buf.length := by
  rw [validateOffsetPlusSize, if_pos hv]
  refine Ensures.bind reads_addU32 ?_
  rintro _ rfl
  exact reads_validateOffset

theorem reads_of_verified (hv : v.validationNecessary = false) :
    Reads buf (v.validateOffsetPlusSize buf offset size) fun _ => True := by
  rw [validateOffsetPlusSize, if_neg (by simp [hv])]
  exact ensures_pure trivial

theorem reads_retrieveArrayLength :
    Reads buf (retrieveArrayLength ns buf offset) fun _ => True := by
  have hcompact : Reads buf (decodeCompact buf offset) fun _ => True := by
    refine Ensures.bind reads_length fun b _ => ?_
    dsimp only
    split
    · exact ensures_pure trivial
    · exact Ensures.bind reads_length fun _ _ => ensures_pure trivial
    · exact Ensures.bind reads_length fun _ _ => ensures_pure trivial
    · exact ensures_abort
  unfold retrieveArrayLength
  split
  · exact Ensures.bind reads_length fun _ _ => ensures_pure trivial
  · exact hcompact

theorem reads_structSize {known : Option Nat} {taken : Nat} (h : ∀ n, known = some n → n ≤ taken) :
    Reads buf (structSize known taken) fun n => n ≤ taken ∧ (known = some n ∨ n = taken) := by
  cases known with
  | some n => exact ensures_pure ⟨h n rfl, .inl rfl⟩
  | none => exact reads_toU32.mono fun n hn => ⟨hn.le, .inr hn⟩

/-- What holds of `size` bytes that an item takes on its own. -/
def Taken (ns : Namespace) (buf : Buffer) (ty : AbiType) (offset size : Nat) : Prop :=
  offset + size ≤ buf.length ∧ ∀ n, ty.nonPaddedSize ns = some n → n ≤ size

/-- Code for `ty` that checks the buffer itself. -/
def Alone (ns : Namespace) (buf : Buffer) (ty : AbiType) (code : Nat → Code (Value × Nat)) :
    Prop :=
  ∀ offset, offset ≤ buf.length → Reads buf (code offset) fun r => Taken ns buf ty offset r.2

/-- Code for `ty` that relies on an earlier check of its size in memory. -/
def Covered (ns : Namespace) (buf : Buffer) (ty : AbiType) (code : Nat → Code (Value × Nat)) :
    Prop :=
  ∀ offset, offset + ty.memorySize ns ≤ buf.length →
    Reads buf (code offset) fun r => r.2 = ty.memorySize ns

variable {ty : Elementary} {elem : AbiType} {dims : List AbiLength}

theorem alone_elementary (hv : v.validationNecessary = true) (offset : Nat) :
    Reads buf (readElementary ns buf ty v offset) fun r =>
      offset + r.2 ≤ buf.length ∧ ty.memorySize ns ≤ r.2 := by
  have hle := ty.memorySize_le_wireSize ns
  refine Ensures.bind (reads_validateOffsetPlusSize hv) fun _ hcheck => ?_
  refine Ensures.bind (reads_data (by omega)) fun _ _ => ?_
  exact ensures_pure ⟨hcheck, hle⟩

theorem covered_elementary (hv : v.validationNecessary = false)
    (ht : ty.wireSize ns = ty.memorySize ns) (hoff : offset + ty.memorySize ns ≤ buf.length) :
    Reads buf (readElementary ns buf ty v offset) fun r => r.2 = ty.memorySize ns := by
  refine Ensures.bind (reads_of_verified hv) fun _ _ => ?_
  exact Ensures.bind (reads_data hoff) fun _ _ => ensures_pure ht

theorem reads_readBytes :
    Reads buf (readBytes ns buf offset) fun r => offset + r.2 ≤ buf.length := by
  refine Ensures.bind reads_retrieveArrayLength ?_
  rintro ⟨length, sizeLength⟩ -
  refine Ensures.bind reads_addU32 ?_
  rintro _ rfl
  refine Ensures.bind reads_validateOffset fun _ _ => ?_
  refine Ensures.bind reads_addU32 ?_
  rintro _ rfl
  refine Ensures.bind reads_addU32 ?_
  rintro _ rfl
  refine Ensures.bind reads_validateOffset fun _ hreach => ?_
  exact Ensures.bind (reads_data (by omega)) fun _ _ => ensures_pure hreach

theorem selectorLength_of_ne_solana {t : Target} (h : t ≠ .solana) : t.selectorLength = 4 := by
  cases t with
  | solana => exact absurd rfl h
  | _ => rfl

theorem alone_externalFunction (hv : v.validationNecessary = true) :
    Reads buf (decodeExternalFunction ns buf v offset) fun r => offset + r.2 ≤ buf.length := by
  unfold decodeExternalFunction
  split
  · refine Ensures.bind (reads_validateOffsetPlusSize hv) fun _ hcheck => ?_
    refine Ensures.bind (reads_data (by omega)) fun _ _ => ?_
    refine Ensures.bind reads_addU32 ?_
    rintro _ rfl
    exact Ensures.bind (reads_data (by omega)) fun _ _ => ensures_pure hcheck
  case h_2 hne =>
    have hsel := selectorLength_of_ne_solana hne
    refine Ensures.bind (reads_validateOffsetPlusSize hv) fun _ hcheck => ?_
    refine Ensures.bind (reads_data (by omega)) fun _ _ => ?_
    refine Ensures.bind reads_addU32 ?_
    rintro _ rfl
    exact Ensures.bind (reads_data (by omega)) fun _ _ => ensures_pure hcheck

theorem covered_externalFunction (hv : v.validationNecessary = false)
    (ht : ns.target.selectorLength = 4) (hoff : offset + (ns.addressLength + 4) ≤ buf.length) :
    Reads buf (decodeExternalFunction ns buf v offset) fun r => r.2 = ns.addressLength + 4 := by
  unfold decodeExternalFunction
  split
  case h_1 heq => rw [heq] at ht; cases ht
  case h_2 =>
    refine Ensures.bind (reads_of_verified hv) fun _ _ => ?_
    refine Ensures.bind (reads_data (by omega)) fun _ _ => ?_
    refine Ensures.bind reads_addU32 ?_
    rintro _ rfl
    exact Ensures.bind (reads_data (by omega)) fun _ _ => ensures_pure rfl

theorem alone_copyArray {outer : AbiLength} (hv : v.validationNecessary = true) :
    Reads buf (copyArray ns buf elem dims outer v offset) fun r => offset + r.2 ≤ buf.length := by
  unfold copyArray
  split
  · refine Ensures.bind (reads_validateOffsetPlusSize hv) fun _ hcheck => ?_
    exact Ensures.bind (reads_data hcheck) fun _ _ => ensures_pure hcheck
  · refine Ensures.bind reads_retrieveArrayLength ?_
    rintro ⟨length, sizeWidth⟩ -
    refine Ensures.bind reads_addU32 ?_
    rintro _ rfl
    refine Ensures.bind reads_validateOffset fun _ _ => ?_
    refine Ensures.bind reads_toU32 ?_
    rintro _ rfl
    refine Ensures.bind (reads_validateOffsetPlusSize hv) fun _ hcheck => ?_
    refine Ensures.bind (reads_data hcheck) fun _ _ => ?_
    refine Ensures.bind reads_addU32 ?_
    rintro _ rfl
    exact ensures_pure (by simp only; omega)

theorem covered_copyArray {n : Nat} (hv : v.validationNecessary = false)
    (hoff : offset + (dims.map (AbiLength.size ns)).prod * elem.memorySize ns ≤ buf.length) :
    Reads buf (copyArray ns buf elem dims (.fixed n) v offset) fun r =>
      r.2 = (dims.map (AbiLength.size ns)).prod * elem.memorySize ns := by
  refine Ensures.bind (reads_of_verified hv) fun _ _ => ?_
  exact Ensures.bind (reads_data hoff) fun _ _ => ensures_pure rfl

end Solang.Codegen.Encoding
