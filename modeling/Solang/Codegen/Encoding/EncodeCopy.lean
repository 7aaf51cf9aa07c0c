import Solang.Codegen.Encoding.EncodeSizeCorrect

/-!
# Copies instead of elements

Where `allow_memcpy` is true, an array or a struct is copied between memory and the buffer in one
piece. That is right where memory holds the elements as the encoding does: one after the other,
without padding, each in as many bytes. LLVM lays objects out in memory; of it only the alignment
of integers is taken as given (`Layout`).
-/

namespace Solang.Codegen.Encoding

open AbiType

/-- `align n` is the alignment of an integer of `n` bytes. -/
structure Layout where
  align : Nat → Nat

section Memory

variable (L : Layout) (ns : Namespace)

/-- `llvm_type` of an elementary type, its alignment -/
def Elementary.llvmAlign : Elementary → Nat
  | .bytes n => L.align n
  | .value => L.align ns.valueLength
  | .uint bits => L.align (bits / 8)
  | .int bits => L.align (bits / 8)
  -- bytes, and arrays of bytes
  | _ => 1

mutual

def llvmAlign : AbiType → Nat
  | .elementary ty => ty.llvmAlign L ns
  | .userType ty => ty.llvmAlign L ns
  | .array elem _ _ => llvmAlign elem
  | .struct first rest => max (llvmAlign first) (llvmAligns rest)
  | _ => 1

def llvmAligns : List AbiType → Nat
  | [] => 0
  | ty :: tys => max (llvmAlign ty) (llvmAligns tys)

end

mutual

/-- The bytes from one object to the next -/
def llvmSize : AbiType → Nat
  | .elementary ty => padTo (ty.llvmAlign L ns) (ty.memorySize ns)
  | .userType ty => padTo (ty.llvmAlign L ns) (ty.memorySize ns)
  | .array elem inner outer => ((inner ++ [outer]).map (AbiLength.size ns)).prod * llvmSize elem
  | .struct first rest =>
    padTo (llvmAlign L ns (.struct first rest)) (llvmEnd rest (llvmSize first))
  | _ => 0

/-- The end of the last of these fields, when the one before them ends at `pos` -/
def llvmEnd : List AbiType → Nat → Nat
  | [], pos => pos
  | ty :: tys, pos => llvmEnd tys (padTo (llvmAlign L ns ty) pos + llvmSize ty)

end

/-- Memory `m` holds these objects, one every `stride` bytes. -/
def HoldsEach (holds : Value → (Nat → UInt8) → Prop) (stride : Nat) :
    List Value → (Nat → UInt8) → Prop
  | [], _ => True
  | v :: vs, m => holds v m ∧ HoldsEach holds stride vs fun i => m (stride + i)

/-- Memory `m` holds an array of these dimensions, outermost first, over elements of `size`
bytes. -/
def HoldsArray (holds : Value → (Nat → UInt8) → Prop) (size : Nat) :
    List AbiLength → Value → (Nat → UInt8) → Prop
  | [], v, m => holds v m
  | _ :: dims, v, m =>
    HoldsEach (HoldsArray holds size dims) ((dims.map (AbiLength.size ns)).prod * size) v.elems m

mutual

/-- Memory `m`, counted from the start of the object, holds a value. What is in the padding is not
known. -/
def Holds : AbiType → Value → (Nat → UInt8) → Prop
  | .elementary _, .scalar bytes, m => (List.range bytes.length).map m = bytes
  | .userType _, .scalar bytes, m => (List.range bytes.length).map m = bytes
  | .array elem inner outer, v, m =>
    HoldsArray ns (Holds elem) (llvmSize L ns elem) (outer :: inner.reverse) v m
  | .struct first rest, .struct (x :: xs), m =>
    Holds first x m ∧ HoldFields rest xs (llvmSize L ns first) m
  | _, _, _ => False

def HoldFields : List AbiType → List Value → Nat → (Nat → UInt8) → Prop
  | [], [], _, _ => True
  | ty :: tys, x :: xs, pos, m =>
    let offset := padTo (llvmAlign L ns ty) pos
    Holds ty x (fun i => m (offset + i)) ∧ HoldFields tys xs (offset + llvmSize L ns ty) m
  | _, _, _, _ => False

end

end Memory

/-! ## Element by element -/

section Elements

variable (ns : Namespace)

def arrayBytes (f : Value → List UInt8) : List AbiLength → Value → List UInt8
  | [], v => f v
  | _ :: dims, v => v.elems.flatMap (arrayBytes f dims)

mutual

/-- What is written when nothing is copied -/
def elementwise : AbiType → Value → List UInt8
  | .elementary ty, .scalar bytes => ty.store ns bytes
  | .userType ty, .scalar bytes => ty.store ns bytes
  | .array elem inner outer, v => arrayBytes (elementwise elem) (outer :: inner.reverse) v
  | .struct first rest, .struct (x :: xs) => elementwise first x ++ elementwiseFields rest xs
  | _, _ => []

def elementwiseFields : List AbiType → List Value → List UInt8
  | ty :: tys, x :: xs => elementwise ty x ++ elementwiseFields tys xs
  | _, _ => []

end

/-- `n` values, one after the other, and the bytes behind them -/
def decodeTimes (f : List UInt8 → Value × List UInt8) : Nat → List UInt8 → List Value × List UInt8
  | 0, bytes => ([], bytes)
  | n + 1, bytes =>
    let (v, bytes) := f bytes
    let (vs, bytes) := decodeTimes f n bytes
    (v :: vs, bytes)

/-- An array of these dimensions, outermost first; a dynamic one has `length` elements. -/
def decodeDims (f : List UInt8 → Value × List UInt8) (length : Nat) :
    List AbiLength → List UInt8 → Value × List UInt8
  | [], bytes => f bytes
  | dim :: dims, bytes =>
    let n := match dim with
      | .fixed n => n
      | .dynamic => length
    let (vs, bytes) := decodeTimes (decodeDims f length dims) n bytes
    (.array vs, bytes)

mutual

/-- What is read when nothing is copied: the value, and the bytes behind it -/
def decodeEach : AbiType → Nat → List UInt8 → Value × List UInt8
  | .elementary ty, _, bytes =>
    (ty.load (bytes.take (ty.memorySize ns)), bytes.drop (ty.wireSize ns))
  | .userType ty, _, bytes =>
    (ty.load (bytes.take (ty.memorySize ns)), bytes.drop (ty.wireSize ns))
  | .array elem inner outer, length, bytes =>
    decodeDims (decodeEach elem 0) length (outer :: inner.reverse) bytes
  | .struct first rest, _, bytes =>
    let (x, bytes) := decodeEach first 0 bytes
    let (xs, bytes) := decodeEachField rest bytes
    (.struct (x :: xs), bytes)
  | _, _, bytes => (.array [], bytes)

def decodeEachField : List AbiType → List UInt8 → List Value × List UInt8
  | [], bytes => ([], bytes)
  | ty :: tys, bytes =>
    let (x, bytes) := decodeEach ty 0 bytes
    let (xs, bytes) := decodeEachField tys bytes
    (x :: xs, bytes)

end

/-! ## The copy -/

/-- The bytes that are copied -/
def copySize : AbiType → Value → Nat
  | .array elem inner outer, v => elementCount ns inner outer v * elem.memorySize ns
  | ty, _ => ty.memorySize ns

mutual

/-- What the integers of a value are extended by, of every one of its elements -/
def extensions : AbiType → Nat
  | .elementary ty => extension ns (.elementary ty)
  | .userType ty => extension ns (.userType ty)
  | .array elem _ _ => extensions elem
  | .struct first rest => extensions first + extensionsAll rest
  | _ => 0

def extensionsAll : List AbiType → Nat
  | [] => 0
  | ty :: tys => extensions ty + extensionsAll tys

end

/-- What is copied is what is written element by element, and what is read element by element is
what memory holds after the copy. -/
structure CopyAgrees (L : Layout) (ty : AbiType) (v : Value) (m : Nat → UInt8) : Prop where
  encodes : (List.range (copySize ns ty v)).map m = elementwise ns ty v
  decodes : ∀ bytes : List UInt8, bytes.length = copySize ns ty v →
    (decodeEach ns ty v.elems.length bytes).2 = [] ∧
      Holds L ns ty (decodeEach ns ty v.elems.length bytes).1 fun i => bytes.getD i 0

end Elements

/-- The bytes that are written, in order, when the encoder does not fail -/
def Writes {α : Type} (w : Writer α) (bytes : List UInt8) : Prop :=
  ∀ x, w.result = some x → w.trace.flatMap Write.bytes = bytes

/-! ## What sema and LLVM promise -/

def Elementary.WidthOk : Elementary → Prop
  | .uint bits => 0 < bits ∧ 8 ∣ bits
  | .int bits => 0 < bits ∧ 8 ∣ bits
  | .bytes n => 0 < n
  | _ => True

mutual

/-- The widths of integers are whole bytes. -/
def AbiType.WidthsOk : AbiType → Prop
  | .elementary ty => ty.WidthOk
  | .userType ty => ty.WidthOk
  | .array elem _ _ => elem.WidthsOk
  | .struct first rest => first.WidthsOk ∧ AllWidthsOk rest
  | _ => True

def AbiType.AllWidthsOk : List AbiType → Prop
  | [] => True
  | ty :: tys => ty.WidthsOk ∧ AllWidthsOk tys

end

/-- The alignment of an integer whose size is a power of two divides its size; and balances are
such integers. -/
structure Layout.Lawful (L : Layout) (ns : Namespace) : Prop where
  natural : ∀ k, L.align (2 ^ k) ∣ 2 ^ k
  value : ∃ k, ns.valueLength = 2 ^ k

section Memory

variable (L : Layout) (ns : Namespace) (mem : AbiType → Value → Nat → UInt8)

/-- An array or a struct in memory, of which no integer is extended -/
structure Copied (ty : AbiType) (v : Value) : Prop where
  valid : ty.Valid
  widths : ty.WidthsOk
  type : HasType ns ty v
  holds : Holds L ns ty v (mem ty v)
  unextended : extensions ns ty = 0

mutual

/-- Integers, arrays and structs, of which memory holds those that `encode` copies -/
def Held : AbiType → Bool → Value → Prop
  | .elementary _, _, .scalar _ | .userType _, _, .scalar _ => True
  | .array elem inner outer, _, v =>
    if AbiType.allowMemcpy ns (.array elem inner outer) then Copied L ns mem (.array elem inner outer) v
    else ArrayOf (Held elem true) (outer :: inner.reverse) v
  | .struct first rest, byRef, .struct (x :: xs) =>
    if byRef = false ∧ AbiType.allowMemcpy ns (.struct first rest) then
      Copied L ns mem (.struct first rest) (.struct (x :: xs))
    else Held first false x ∧ HeldIn rest xs
  | _, _, _ => False

def HeldIn : List AbiType → List Value → Prop
  | [], [] => True
  | ty :: tys, x :: xs => Held ty false x ∧ HeldIn tys xs
  | _, _ => False

end

end Memory

end Solang.Codegen.Encoding
