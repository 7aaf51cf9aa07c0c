import Solang.Codegen.Encoding.Compact

/-!
# Sizes of encoded values

Three numbers should be one: the size that is calculated before the buffer is allocated, how far
`encode` says it has come, and the bytes that it has written. Each of them is the result of a
traversal of its own (`exprSize`, `advanced`, `written`). They differ by what `mismatch` counts:

* an array whose elements are assessed by their size in memory and encoded one by one is too
  small by what its integers are extended by, and the prefix of its length is that of the number
  of elements;
* an array of user types that is copied whole has been assessed element by element;
* a struct of primitive fields that is encoded field by field advances by its size in memory.
-/

namespace Solang.Codegen.Encoding

open Writer Traced

section Sizes

variable (ns : Namespace) (packed : Bool)

/-- The bytes of a length -/
def prefixWidth (n : Nat) : Nat :=
  match ns.target with
  | .solana => 4
  | _ => compactWidth n

/-- The bytes in front of a dimension of this many elements -/
def lengthPrefix (dim : AbiLength) (n : Nat) : Nat :=
  if dim = .dynamic ∧ ¬ packed then prefixWidth ns n else 0

/-- Lengths that SCALE has an encoding for -/
def LengthOk (n : Nat) : Prop := packed ∨ ns.target = .solana ∨ n < 2 ^ 30

def Value.elems : Value → List Value
  | .array vs => vs
  | _ => []

/-- `f` added up over the elements of an array, and what is in front of each dimension -/
def arraySum (front : AbiLength → Nat → Nat) (f : Value → Nat) : List AbiLength → Value → Nat
  | [], v => f v
  | dim :: dims, v =>
    front dim v.elems.length + (v.elems.map (arraySum front f dims)).sum

/-- The number of elements, from the length of the outer dimension and the other dimensions -/
def elementCount (inner : List AbiLength) (outer : AbiLength) (v : Value) : Nat :=
  (match outer with
    | .fixed n => n
    | .dynamic => v.elems.length) * (inner.map (AbiLength.size ns)).prod

/-- The size of an array whose elements all take `typeSize` bytes -/
def directSize (inner : List AbiLength) (outer : AbiLength) (typeSize : Nat) (v : Value) : Nat :=
  elementCount ns inner outer v * typeSize +
    lengthPrefix ns packed outer (elementCount ns inner outer v)

mutual

/-- The size that is calculated -/
def exprSize : AbiType → Value → Nat
  | .elementary ty, _ => ty.wireSize ns
  | .userType ty, _ => ty.wireSize ns
  | .dynamicBytes, .bytes data => lengthPrefix ns packed .dynamic data.length + data.length
  | .string, .bytes data => lengthPrefix ns packed .dynamic data.length + data.length
  | .externalFunction, _ => ns.addressLength + ns.target.selectorLength
  | .array elem inner outer, v =>
    match primitiveSize ns elem (inner ++ [outer]) with
    | some typeSize => directSize ns packed inner outer typeSize v
    | none => arraySum (lengthPrefix ns packed) (exprSize elem) (outer :: inner.reverse) v
  | .slice elem, v =>
    match primitiveSize ns elem [.dynamic] with
    | some typeSize => directSize ns packed [] .dynamic typeSize v
    | none => arraySum (lengthPrefix ns packed) (exprSize elem) [.dynamic] v
  | .struct first rest, .struct (x :: xs) =>
    match AbiType.nonPaddedSize ns (.struct first rest) with
    | some n => n
    | none => exprSize first x + exprSizes rest xs
  | _, _ => 0

def exprSizes : List AbiType → List Value → Nat
  | ty :: tys, x :: xs => exprSize ty x + exprSizes tys xs
  | _, _ => 0

end

/-- What a copied array takes -/
def copiedSize (elem : AbiType) (inner : List AbiLength) (outer : AbiLength) (v : Value) : Nat :=
  match outer with
  | .fixed _ => elementCount ns inner outer v * elem.memorySize ns
  | .dynamic => v.elems.length * elem.memorySize ns + lengthPrefix ns packed .dynamic v.elems.length

mutual

/-- How far `encode` advances -/
def advanced : AbiType → Value → Nat
  | .elementary ty, _ => ty.wireSize ns
  | .userType ty, _ => ty.wireSize ns
  | .dynamicBytes, .bytes data => lengthPrefix ns packed .dynamic data.length + data.length
  | .string, .bytes data => lengthPrefix ns packed .dynamic data.length + data.length
  | .externalFunction, _ => ns.addressLength + ns.target.selectorLength
  | .array elem inner outer, v =>
    if AbiType.allowMemcpy ns (.array elem inner outer) then copiedSize ns packed elem inner outer v
    else arraySum (lengthPrefix ns packed) (advanced elem) (outer :: inner.reverse) v
  | .slice elem, v => arraySum (lengthPrefix ns packed) (advanced elem) [.dynamic] v
  | .struct first rest, .struct (x :: xs) =>
    match AbiType.nonPaddedSize ns (.struct first rest) with
    | some n => n
    | none => advanced first x + advances rest xs
  | _, _ => 0

def advances : List AbiType → List Value → Nat
  | ty :: tys, x :: xs => advanced ty x + advances tys xs
  | _, _ => 0

end

mutual

/-- The bytes that `encode` writes -/
def written : AbiType → Bool → Value → Nat
  | .elementary ty, _, _ => ty.wireSize ns
  | .userType ty, _, _ => ty.wireSize ns
  | .dynamicBytes, _, .bytes data => lengthPrefix ns packed .dynamic data.length + data.length
  | .string, _, .bytes data => lengthPrefix ns packed .dynamic data.length + data.length
  | .externalFunction, _, _ => ns.addressLength + ns.target.selectorLength
  | .array elem inner outer, _, v =>
    if AbiType.allowMemcpy ns (.array elem inner outer) then copiedSize ns packed elem inner outer v
    else arraySum (lengthPrefix ns packed) (written elem true) (outer :: inner.reverse) v
  | .slice elem, _, v => arraySum (lengthPrefix ns packed) (written elem true) [.dynamic] v
  | .struct first rest, byRef, .struct (x :: xs) =>
    if byRef = false ∧ AbiType.allowMemcpy ns (.struct first rest) then
      (AbiType.nonPaddedSize ns (.struct first rest)).getD 0
    else written first false x + writtens rest xs
  | _, _, _ => 0

def writtens : List AbiType → List Value → Nat
  | ty :: tys, x :: xs => written ty false x + writtens tys xs
  | _, _ => 0

end

/-! ## Where they differ -/

/-- What an integer is extended by when it is encoded -/
def extension : AbiType → Nat
  | .elementary ty => ty.wireSize ns - ty.memorySize ns
  | .userType ty => ty.wireSize ns - ty.memorySize ns
  | _ => 0

mutual

/-- What the fields of a struct of primitive fields are written beyond their size in memory -/
def looseBytes : AbiType → Nat
  | .elementary ty => extension ns (.elementary ty)
  | .userType ty => extension ns (.userType ty)
  | .struct first rest =>
    if AbiType.allowMemcpy ns (.struct first rest) then 0
    else looseBytes first + looseBytesAll rest
  | _ => 0

def looseBytesAll : List AbiType → Nat
  | [] => 0
  | ty :: tys => looseBytes ty + looseBytesAll tys

end

/-- By how much the three numbers differ: `surplus` is in the size and not advanced by, `deficit`
is advanced by and not in the size, `beyond` is written and not advanced by. -/
@[ext]
structure Mismatch where
  surplus : Nat
  deficit : Nat
  beyond : Nat

def Mismatch.add (a b : Mismatch) : Mismatch :=
  ⟨a.surplus + b.surplus, a.deficit + b.deficit, a.beyond + b.beyond⟩

/-- Of an array that is copied whole -/
def copyMismatch (elem : AbiType) (inner : List AbiLength) (outer : AbiLength) (v : Value) :
    Mismatch :=
  match elem with
  | .userType ty => ⟨elementCount ns inner outer v * extension ns (.userType ty), 0, 0⟩
  | _ => ⟨0, 0, 0⟩

/-- Of an array that is looped through -/
def loopMismatch (elem : AbiType) (inner : List AbiLength) (outer : AbiLength)
    (ofElem : Value → Mismatch) (v : Value) : Mismatch :=
  let sum (f : Value → Nat) := arraySum (fun _ _ => 0) f (outer :: inner.reverse) v
  let count := elementCount ns inner outer v
  match primitiveSize ns elem (inner ++ [outer]) with
  | some _ =>
    ⟨lengthPrefix ns packed outer count - lengthPrefix ns packed outer v.elems.length,
      count * extension ns elem, sum fun u => (ofElem u).beyond⟩
  | none =>
    ⟨sum fun u => (ofElem u).surplus, sum fun u => (ofElem u).deficit,
      sum fun u => (ofElem u).beyond⟩

mutual

def mismatch : AbiType → Bool → Value → Mismatch
  | .array elem inner outer, _, v =>
    if AbiType.allowMemcpy ns (.array elem inner outer) then copyMismatch ns elem inner outer v
    else loopMismatch ns packed elem inner outer (mismatch elem true) v
  | .slice elem, _, v => loopMismatch ns packed elem [] .dynamic (mismatch elem true) v
  | .struct first rest, byRef, .struct (x :: xs) =>
    match AbiType.nonPaddedSize ns (.struct first rest) with
    | some _ =>
      if byRef = false ∧ AbiType.allowMemcpy ns (.struct first rest) then ⟨0, 0, 0⟩
      else ⟨0, 0, looseBytes ns first + looseBytesAll ns rest⟩
    | none => (mismatch first false x).add (mismatches rest xs)
  | _, _, _ => ⟨0, 0, 0⟩

def mismatches : List AbiType → List Value → Mismatch
  | ty :: tys, x :: xs => (mismatch ty false x).add (mismatches tys xs)
  | _, _ => ⟨0, 0, 0⟩

end

/-! ## Values of a type -/

/-- An array of these dimensions, outermost first, over elements that meet `p` -/
def ArrayOf (p : Value → Prop) : List AbiLength → Value → Prop
  | [], v => p v
  | dim :: dims, .array vs => (∀ n, dim = .fixed n → vs.length = n) ∧ ∀ v ∈ vs, ArrayOf p dims v
  | _ :: _, _ => False

mutual

def HasType : AbiType → Value → Prop
  | .elementary ty, .scalar bytes => bytes.length = ty.memorySize ns
  | .userType ty, .scalar bytes => bytes.length = ty.memorySize ns
  | .dynamicBytes, .bytes _ => True
  | .string, .bytes _ => True
  | .externalFunction, .externalFunction selector address =>
    selector.length = ns.target.selectorLength ∧ address.length = ns.addressLength
  | .array elem inner outer, v => ArrayOf (HasType elem) (outer :: inner.reverse) v
  | .slice elem, v => ArrayOf (HasType elem) [.dynamic] v
  | .struct first rest, .struct (x :: xs) => HasType first x ∧ HaveTypes rest xs
  | _, _ => False

def HaveTypes : List AbiType → List Value → Prop
  | [], [] => True
  | ty :: tys, x :: xs => HasType ty x ∧ HaveTypes tys xs
  | _, _ => False

end

/-- The lengths of an array's dynamic dimensions have an encoding, and the elements meet `p`. -/
def ArrayLengths (p : Value → Prop) : List AbiLength → Value → Prop
  | [], v => p v
  | dim :: dims, v =>
    (dim = .dynamic → LengthOk ns packed v.elems.length) ∧
      ∀ u ∈ v.elems, ArrayLengths p dims u

mutual

/-- Every length that is written has an encoding. -/
def LengthsOk : AbiType → Value → Prop
  | .dynamicBytes, .bytes data => LengthOk ns packed data.length
  | .string, .bytes data => LengthOk ns packed data.length
  | .array elem inner outer, v =>
    ArrayLengths ns packed (LengthsOk elem) (outer :: inner.reverse) v
  | .slice elem, v => ArrayLengths ns packed (LengthsOk elem) [.dynamic] v
  | .struct first rest, .struct (x :: xs) => LengthsOk first x ∧ AllLengthsOk rest xs
  | _, _ => True

def AllLengthsOk : List AbiType → List Value → Prop
  | ty :: tys, x :: xs => LengthsOk ty x ∧ AllLengthsOk tys xs
  | _, _ => True

end

end Sizes

mutual

/-- What sema has seen to: an array has no array as its elements (its dimensions are one list) and
no dimension of length zero. -/
def AbiType.Valid : AbiType → Prop
  | .array elem inner outer =>
    (∀ e i o, elem ≠ .array e i o) ∧ AbiLength.fixed 0 ∉ inner ++ [outer] ∧ elem.Valid
  | .slice elem => elem.Valid
  | .struct first rest => first.Valid ∧ AllValid rest
  | _ => True

def AbiType.AllValid : List AbiType → Prop
  | [] => True
  | ty :: tys => ty.Valid ∧ AllValid tys

end

end Solang.Codegen.Encoding
