import Solang.Codegen.Encoding.Decode

/-!
# The encoder

`AbiEncoding::encode` and `AbiEncoding::get_expr_size`, for Borsh (Solana) and SCALE (the other
targets). The size of what is encoded is calculated first, by code of its own, and a buffer of
that size is allocated. The code then writes into the buffer (`Write`), and returns how far it
has come.

Where a value is copied whole, the bytes are those of memory: `mem ty v i` is what memory holds
`i` bytes after the start of the object `v` (of its elements, for a dynamic array).
-/

namespace Solang.Codegen.Encoding

/-- `Instr::WriteBuffer`, and `Instr::MemCopy` into the buffer -/
structure Write where
  offset : Nat
  bytes : List UInt8
deriving DecidableEq, Repr

abbrev Writer (α : Type) := Traced Write α

namespace Writer

def write (offset : Nat) (bytes : List UInt8) : Writer Unit := Traced.emit ⟨offset, bytes⟩ ()

/-- The checked arithmetic of `uint32` -/
def u32 (n : Nat) : Writer Nat := do
  Traced.require (n < 2 ^ 32)
  pure n

end Writer

open Writer

/-- The low `count` bytes of an integer, the least significant one first -/
def toLittleEndian : Nat → Nat → List UInt8
  | 0, _ => []
  | count + 1, n => UInt8.ofNat n :: toLittleEndian count (n / 256)

/-- `encode_compact`; without an offset there is no buffer, and only the size is computed. -/
def encodeCompact (expr : Nat) (offset : Option Nat) : Writer Nat :=
  let put (width value : Nat) : Writer Nat := do
    if let some offset := offset then write offset (toLittleEndian width value)
    pure width
  if expr > 0x40000000 - 1 then Traced.abort
  else if expr > 0x40 - 1 then
    if expr > 0x4000 - 1 then do
      let mul ← u32 (expr * 4)
      put 4 (mul ||| 2)
    else do
      let mul ← u32 (expr * 4)
      put 2 (mul ||| 1)
  else do
    let mul ← u32 (expr * 4)
    put 1 mul

/-- A register as it is written: integers are extended to the next power of two, `bytesN` are
big endian. -/
def Elementary.store (ns : Namespace) (ty : Elementary) (bytes : List UInt8) : List UInt8 :=
  match ty with
  | .bytes _ => bytes.reverse
  | .uint _ => bytes ++ List.replicate (ty.wireSize ns - bytes.length) 0
  | .int _ =>
    let negative := 128 ≤ (bytes.getLastD 0).toNat
    bytes ++ List.replicate (ty.wireSize ns - bytes.length) (if negative then 255 else 0)
  | _ => bytes

section Encoder

variable (ns : Namespace) (packed : Bool)

/-- `size_width` -/
def sizeWidth (size : Nat) : Writer Nat :=
  match ns.target with
  | .solana => pure 4
  | _ => encodeCompact size none

/-- `encode_size` -/
def encodeSize (expr offset : Nat) : Writer Nat :=
  match ns.target with
  | .solana => do
    write offset (toLittleEndian 4 expr)
    pure 4
  | _ => encodeCompact expr (some offset)

/-! ## The size -/

/-- `calculate_string_size` -/
def calculateStringSize (length : Nat) : Writer Nat :=
  if packed then pure length
  else do
    let width ← sizeWidth ns length
    u32 (width + length)

/-- `calculate_complex_array_size`: `dims` are the dimensions still to enter, outermost first, and
`size` is what has been counted. -/
def calculateComplexArraySize (elemSize : Value → Writer Nat) :
    List AbiLength → Value → Nat → Writer Nat
  | [], v, size => do
    let elem ← elemSize v
    u32 (size + elem)
  | dim :: dims, .array vs, size => do
    let size ← (if dim = .dynamic ∧ ¬ packed then do
        let width ← sizeWidth ns vs.length
        u32 (size + width)
      else pure size)
    vs.foldlM (fun size v => calculateComplexArraySize elemSize dims v size) size
  | _ :: _, _, _ => Traced.abort

/-- The size of an element that every value has, when the number of elements is known without a
look at the inner dimensions -/
def primitiveSize (elem : AbiType) (dims : List AbiLength) : Option Nat :=
  let dynDims := dims.count .dynamic
  let directAssessment := dynDims = 0 ∨ (dynDims = 1 ∧ dims.getLast? = some .dynamic)
  match elem with
  | .elementary ty => if ty.isPrimitive ∧ directAssessment then some (ty.memorySize ns) else none
  | .struct _ _ => if directAssessment then elem.nonPaddedSize ns else none
  | _ => none

/-- `calculate_array_size`; the dimensions are `inner ++ [outer]`. -/
def calculateArraySize (elem : AbiType) (elemSize : Value → Writer Nat) (inner : List AbiLength)
    (outer : AbiLength) (v : Value) : Writer Nat :=
  match primitiveSize ns elem (inner ++ [outer]), v with
  | some typeSize, .array vs => do
    let length := match outer with
      | .fixed n => n
      | .dynamic => vs.length
    let size ← inner.foldlM (fun size dim => u32 (size * dim.size ns)) length
    let width ← sizeWidth ns size
    let size ← u32 (size * typeSize)
    if packed ∨ outer ≠ .dynamic then pure size else u32 (size + width)
  | some _, _ => Traced.abort
  | none, v => calculateComplexArraySize ns packed elemSize (outer :: inner.reverse) v 0

mutual

/-- `get_expr_size` -/
def getExprSize : AbiType → Value → Writer Nat
  | .elementary ty, .scalar _ => pure (ty.wireSize ns)
  | .userType ty, .scalar _ => pure (ty.wireSize ns)
  | .dynamicBytes, .bytes data => calculateStringSize ns packed data.length
  | .string, .bytes data => calculateStringSize ns packed data.length
  | .externalFunction, .externalFunction _ _ =>
    pure (ns.addressLength + ns.target.selectorLength)
  | .array elem inner outer, v =>
    calculateArraySize ns packed elem (getExprSize elem) inner outer v
  | .slice elem, v => calculateArraySize ns packed elem (getExprSize elem) [] .dynamic v
  | .struct first rest, .struct (x :: xs) =>
    -- `calculate_struct_size`
    match AbiType.nonPaddedSize ns (.struct first rest) with
    | some structSize => pure structSize
    | none => do
      let size ← getExprSize first x
      fieldsSize rest xs size
  | _, _ => Traced.abort

/-- The loop of `calculate_struct_size` over the other fields -/
def fieldsSize : List AbiType → List Value → Nat → Writer Nat
  | [], [], size => pure size
  | ty :: tys, x :: xs, size => do
    let exprSize ← getExprSize ty x
    let size ← u32 (size + exprSize)
    fieldsSize tys xs size
  | _, _, _ => Traced.abort

end

/-! ## The bytes -/

variable (mem : AbiType → Value → Nat → UInt8)

/-- `encode_directly` and `encode_int` -/
def encodeElementary (ty : Elementary) (bytes : List UInt8) (offset : Nat) : Writer Nat := do
  write offset (ty.store ns bytes)
  pure (ty.wireSize ns)

/-- `encode_bytes` -/
def encodeBytes (data : List UInt8) (offset : Nat) : Writer Nat :=
  if packed then do
    write offset data
    pure data.length
  else do
    let size ← encodeSize ns data.length offset
    let dataOffset ← u32 (offset + size)
    write dataOffset data
    u32 (data.length + size)

/-- `encode_external_function` -/
def encodeExternalFunction (selector address : List UInt8) (offset : Nat) : Writer Nat :=
  match ns.target with
  | .solana => do
    write offset selector.reverse
    let next ← u32 (offset + ns.target.selectorLength)
    write next address
    pure (ns.target.selectorLength + ns.addressLength)
  | _ => do
    write offset address
    let next ← u32 (offset + ns.addressLength)
    write next selector.reverse
    pure (ns.addressLength + 4)

/-- `Instr::MemCopy` of the first `size` bytes of an object -/
def copyObject (ty : AbiType) (v : Value) (size offset : Nat) : Writer Unit :=
  write offset ((List.range size).map (mem ty v))

/-- The part of `encode_array` that copies the elements -/
def encodeArrayCopy (elem : AbiType) (inner : List AbiLength) (outer : AbiLength) (v : Value)
    (offset : Nat) : Writer Nat :=
  let ty := AbiType.array elem inner outer
  match outer, v with
  | .fixed _, v => do
    -- `calculate_direct_copy_bytes_size`
    let size := ((inner ++ [outer]).map (AbiLength.size ns)).prod * elem.memorySize ns
    copyObject mem ty v size offset
    pure size
  | .dynamic, .array vs =>
    if packed then do
      let size ← u32 (vs.length * elem.memorySize ns)
      copyObject mem ty v size offset
      pure size
    else do
      let sizeLength ← encodeSize ns vs.length offset
      let newOffset ← u32 (offset + sizeLength)
      let size ← u32 (vs.length * elem.memorySize ns)
      copyObject mem ty v size newOffset
      u32 (size + sizeLength)
  | .dynamic, _ => Traced.abort

/-- `encode_complex_array`: `dims` are the dimensions still to enter, outermost first. The result
is the offset behind the array. -/
def encodeComplexArray (encodeElem : Value → Nat → Writer Nat) :
    List AbiLength → Value → Nat → Writer Nat
  | [], v, offset => do
    let elemSize ← encodeElem v offset
    u32 (elemSize + offset)
  | dim :: dims, .array vs, offset => do
    let offset ← (if dim = .dynamic ∧ ¬ packed then do
        let size ← encodeSize ns vs.length offset
        u32 (offset + size)
      else pure offset)
    vs.foldlM (fun offset v => encodeComplexArray encodeElem dims v offset) offset
  | _ :: _, _, _ => Traced.abort

/-- The part of `encode_array` that loops through the elements -/
def encodeArrayLoop (encodeElem : Value → Nat → Writer Nat) (dims : List AbiLength) (v : Value)
    (offset : Nat) : Writer Nat := do
  let reached ← encodeComplexArray ns packed encodeElem dims v offset
  pure (reached - offset)

mutual

/-- `encode`. The element of an array that is looped through is a reference (`byRef`), and
`allow_memcpy` is false of references. -/
def encode : AbiType → Bool → Value → Nat → Writer Nat
  | .elementary ty, _, .scalar bytes, offset => encodeElementary ns ty bytes offset
  | .userType ty, _, .scalar bytes, offset => encodeElementary ns ty bytes offset
  | .dynamicBytes, _, .bytes data, offset => encodeBytes ns packed data offset
  | .string, _, .bytes data, offset => encodeBytes ns packed data offset
  | .externalFunction, _, .externalFunction selector address, offset =>
    encodeExternalFunction ns selector address offset
  | .array elem inner outer, _, v, offset =>
    if AbiType.allowMemcpy ns (.array elem inner outer) then
      encodeArrayCopy ns packed mem elem inner outer v offset
    else
      encodeArrayLoop ns packed (encode elem true) (outer :: inner.reverse) v offset
  | .slice elem, _, v, offset => encodeArrayLoop ns packed (encode elem true) [.dynamic] v offset
  | .struct first rest, byRef, .struct (x :: xs), offset =>
    -- `encode_struct`
    let size := AbiType.nonPaddedSize ns (.struct first rest)
    if byRef = false ∧ AbiType.allowMemcpy ns (.struct first rest) then do
      copyObject mem (.struct first rest) (.struct (x :: xs)) (size.getD 0) offset
      pure (size.getD 0)
    else do
      let advance ← encode first false x offset
      let runtimeSize ← encodeFields rest xs offset advance advance
      match size with
      | some n => pure n
      | none => u32 runtimeSize
  | _, _, _, _ => Traced.abort

/-- The loop of `encode_struct` over the other fields: `offset` and `advance` are those of the field
before. -/
def encodeFields : List AbiType → List Value → Nat → Nat → Nat → Writer Nat
  | [], [], _, _, runtimeSize => pure runtimeSize
  | ty :: tys, x :: xs, offset, advance, runtimeSize => do
    let offset ← u32 (offset + advance)
    let advance ← encode ty false x offset
    encodeFields tys xs offset advance (runtimeSize + advance)
  | _, _, _, _, _ => Traced.abort

end

end Encoder

end Solang.Codegen.Encoding
