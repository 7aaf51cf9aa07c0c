import Solang.Codegen.ConstantFolding.Keccak256
import Solang.Codegen.Encoding.EncodeCopyCorrect

/-!
# Arguments that are encoded at compile time

`const_encode` of the SCALE encoder appends the encodings of literal arguments, and `abi_encode` generates code
that writes them into a buffer. The crates that the former uses for vectors and `U256` are a parameter (`Codec`).

It does not look at `packed_encoder`, and has no prefix for the length of a slice. Nor does it end where the
generated code does: lengths from `2 ^ 30` on, and sizes from `2 ^ 32` on.
-/

namespace Solang.Codegen.Encoding

open Writer Traced AbiType

/-! ## At compile time -/

/-- The expressions that `const_encode` distinguishes. All others have their type and their value at run time. -/
inductive Argument where
  | allocDynamicBytes (ty : AbiType) (size : Nat) (initializer : Option (List UInt8))
  | numberLiteral (ty : AbiType) (value : Int)
  | other (ty : AbiType) (value : Value)

/-- `Encode` of the `parity_scale_codec` crate, for `Vec<u8>` and for `U256` -/
structure Codec where
  encodeBytes : List UInt8 → List UInt8
  encodeU256 : Nat → List UInt8

/-- The compact encoding of SCALE, for integers of 32 bits -/
def scaleCompact (n : Nat) : List UInt8 :=
  if n < 2 ^ 6 then toLittleEndian 1 (4 * n)
  else if n < 2 ^ 14 then toLittleEndian 2 (4 * n + 1)
  else if n < 2 ^ 30 then toLittleEndian 4 (4 * n + 2)
  else 3 :: toLittleEndian 4 n

/-- What SCALE says of both: a vector is the compact encoding of its length and its bytes, and integers of a fixed
width are little endian. -/
structure Codec.Scale (codec : Codec) : Prop where
  bytes : ∀ data : List UInt8, data.length < 2 ^ 32 → codec.encodeBytes data = scaleCompact data.length ++ data
  u256 : ∀ n, n < 2 ^ 256 → codec.encodeU256 n = toLittleEndian 32 n

/-- `BigInt::to_bytes_be`, of the magnitude -/
def toBytesBe (value : Int) : List UInt8 := (ConstantFolding.toBytesLe value).reverse

/-- `U256::from_big_endian`, of at most 32 bytes -/
def fromBigEndian (bytes : List UInt8) : Nat := littleEndian bytes.reverse

section ConstEncode

variable (codec : Codec)

/-- What an argument appends -/
def constEncodeArgument : Argument → Option (List UInt8)
  | .allocDynamicBytes .string _ (some data) => some (codec.encodeBytes data)
  | .allocDynamicBytes .dynamicBytes _ (some data) => some (codec.encodeBytes data)
  | .allocDynamicBytes (.slice (.elementary (.bytes 1))) _ (some data) => some data
  | .numberLiteral (.elementary (.bytes 4)) value =>
    let bytes := toBytesBe value
    if bytes.length < 4 then some (List.replicate (4 - bytes.length) 0 ++ bytes) else some bytes
  | .numberLiteral (.elementary (.uint 256)) value => some (codec.encodeU256 (fromBigEndian (toBytesBe value)))
  | _ => none

/-- `const_encode`; that of Borsh is the default of the trait. -/
def constEncode (ns : Namespace) (args : List Argument) : Option (List UInt8) :=
  match ns.target with
  | .solana => none
  | _ => args.foldlM (fun result arg => (constEncodeArgument codec arg).map (result ++ ·)) []

end ConstEncode

/-! ## At run time -/

namespace Argument

def ty : Argument → AbiType
  | allocDynamicBytes ty _ _ => ty
  | numberLiteral ty _ => ty
  | other ty _ => ty

/-- The value of the expression: a literal in its register, and the elements of a vector -/
def value (ns : Namespace) : Argument → Value
  | allocDynamicBytes (.slice _) size initializer =>
    .array ((initializer.getD (List.replicate size 0)).map fun b => .scalar [b])
  | allocDynamicBytes _ size initializer => .bytes (initializer.getD (List.replicate size 0))
  | numberLiteral (.elementary ty) value =>
    .scalar (toLittleEndian (ty.memorySize ns) (value % 2 ^ (8 * ty.memorySize ns)).toNat)
  | numberLiteral _ _ => .scalar []
  | other _ value => value

/-- What sema has seen to: a literal is in the range of its type, and an initializer as long as the size says. -/
def WellTyped : Argument → Prop
  | allocDynamicBytes _ size (some data) => data.length = size ∧ size < 2 ^ 32
  | numberLiteral (.elementary (.bytes n)) value => 0 ≤ value ∧ value < 2 ^ (8 * n)
  | numberLiteral (.elementary (.uint bits)) value => 0 ≤ value ∧ value < 2 ^ bits
  | _ => True

end Argument

section AbiEncode

variable (ns : Namespace) (packed : Bool)

/-- The loop of `calculate_size_args` over the other arguments -/
def addSizes : List Argument → Nat → Writer Nat
  | [], size => pure size
  | item :: items, size => do
    let additional ← getExprSize ns packed item.ty (item.value ns)
    let size ← u32 (size + additional)
    addSizes items size

/-- `calculate_size_args` -/
def calculateSizeArgs : List Argument → Writer Nat
  | [] => pure 0
  | item :: items => do
    let size ← getExprSize ns packed item.ty (item.value ns)
    addSizes ns packed items size

variable (mem : AbiType → Value → Nat → UInt8)

/-- The loop of `abi_encode`. The offset behind the last argument is not evaluated. -/
def encodeItems : List Argument → Nat → Writer Unit
  | [], _ => pure ()
  | item :: items, offset => do
    let advance ← encode ns packed mem item.ty false (item.value ns) offset
    match items with
    | [] => pure ()
    | items => do
      let offset ← u32 (offset + advance)
      encodeItems items offset

/-- The buffer after a write -/
def overwrite (buffer : List UInt8) (w : Write) : List UInt8 :=
  buffer.take w.offset ++ w.bytes ++ buffer.drop (w.offset + w.bytes.length)

/-- `abi_encode`: what is in the buffer at the end, `none` when the code aborts. The buffer is zero when it is
allocated. -/
def abiEncode (args : List Argument) : Option (List UInt8) :=
  match (calculateSizeArgs ns packed args).result, encodeItems ns packed mem args 0 with
  | some size, ⟨writes, some _⟩ => some (writes.foldl overwrite (List.replicate size 0))
  | _, _ => none

end AbiEncode

/-! ## Literals -/

/-- The arguments that have an encoding at compile time, and what it is -/
inductive Literal (codec : Codec) : Argument → List UInt8 → Prop
  | string (size : Nat) (data : List UInt8) :
    Literal codec (.allocDynamicBytes .string size (some data)) (codec.encodeBytes data)
  | dynamicBytes (size : Nat) (data : List UInt8) :
    Literal codec (.allocDynamicBytes .dynamicBytes size (some data)) (codec.encodeBytes data)
  | slice (size : Nat) (data : List UInt8) :
    Literal codec (.allocDynamicBytes (.slice (.elementary (.bytes 1))) size (some data)) data
  | bytes4 (value : Int) : Literal codec (.numberLiteral (.elementary (.bytes 4)) value)
      (List.replicate (4 - (toBytesBe value).length) 0 ++ toBytesBe value)
  | uint256 (value : Int) : Literal codec (.numberLiteral (.elementary (.uint 256)) value)
      (codec.encodeU256 (fromBigEndian (toBytesBe value)))

section Literals

variable {codec : Codec} {arg : Argument} {bytes : List UInt8}

theorem literal_of_constEncodeArgument (h : constEncodeArgument codec arg = some bytes) :
    Literal codec arg bytes := by
  unfold constEncodeArgument at h
  split at h
  · exact Option.some.inj h ▸ .string _ _
  · exact Option.some.inj h ▸ .dynamicBytes _ _
  · exact Option.some.inj h ▸ .slice _ _
  · rename_i value
    have hbytes : List.replicate (4 - (toBytesBe value).length) 0 ++ toBytesBe value = bytes := by
      dsimp only at h
      split at h
      · exact Option.some.inj h
      · rename_i hlong
        rw [Nat.sub_eq_zero_of_le (Nat.le_of_not_lt hlong)]
        exact Option.some.inj h
    exact hbytes ▸ .bytes4 _
  · exact Option.some.inj h ▸ .uint256 _
  · cases h

theorem forall₂_of_foldlM {α β : Type} {f : α → Option (List β)} : ∀ {args : List α} {result bytes : List β},
    args.foldlM (fun result arg => (f arg).map (result ++ ·)) result = some bytes →
      ∃ parts, List.Forall₂ (fun arg part => f arg = some part) args parts ∧ bytes = result ++ parts.flatten
  | [], result, bytes, h => ⟨[], .nil, by rw [List.flatten_nil, List.append_nil]; exact (Option.some.inj h).symm⟩
  | arg :: args, result, bytes, h => by
    rw [List.foldlM_cons] at h
    obtain ⟨next, hnext, hrest⟩ := Option.bind_eq_some_iff.mp h
    obtain ⟨part, hpart, rfl⟩ := Option.map_eq_some_iff.mp hnext
    obtain ⟨parts, hparts, rfl⟩ := forall₂_of_foldlM hrest
    exact ⟨part :: parts, .cons hpart hparts, by rw [List.flatten_cons, List.append_assoc]⟩

theorem literals_of_constEncode {ns : Namespace} {args : List Argument}
    (h : constEncode codec ns args = some bytes) :
    ns.target ≠ .solana ∧ ∃ parts, List.Forall₂ (Literal codec) args parts ∧ bytes = parts.flatten := by
  unfold constEncode at h
  split at h
  · cases h
  · rename_i hns
    obtain ⟨parts, hparts, rfl⟩ := forall₂_of_foldlM h
    exact ⟨hns, parts, hparts.imp fun _ _ => literal_of_constEncodeArgument, List.nil_append _⟩

end Literals

/-! ## What the generated code writes -/

/-- The writes follow each other, from `offset` on. -/
def Consecutive : Nat → List Write → List UInt8 → Prop
  | _, [], bytes => bytes = []
  | offset, w :: ws, bytes =>
    w.offset = offset ∧ ∃ rest, bytes = w.bytes ++ rest ∧ Consecutive (offset + w.bytes.length) ws rest

theorem consecutive_single (offset : Nat) (bytes : List UInt8) : Consecutive offset [⟨offset, bytes⟩] bytes :=
  ⟨rfl, [], (List.append_nil _).symm, rfl⟩

theorem Consecutive.append : ∀ {ws : List Write} {offset : Nat} {bytes : List UInt8} {ws' : List Write}
    {bytes' : List UInt8}, Consecutive offset ws bytes → Consecutive (offset + bytes.length) ws' bytes' →
      Consecutive offset (ws ++ ws') (bytes ++ bytes')
  | [], offset, bytes, ws', bytes', h, h' => by
    obtain rfl : bytes = [] := h
    exact h'
  | w :: ws, offset, bytes, ws', bytes', h, h' => by
    obtain ⟨hoffset, rest, rfl, hrest⟩ := h
    rw [List.length_append, ← Nat.add_assoc] at h'
    exact ⟨hoffset, rest ++ bytes', List.append_assoc _ _ _, hrest.append h'⟩

theorem Consecutive.overwrite : ∀ {ws : List Write} {offset : Nat} {bytes : List UInt8},
    Consecutive offset ws bytes → ∀ buffer : List UInt8, offset + bytes.length ≤ buffer.length →
      ws.foldl overwrite buffer = buffer.take offset ++ bytes ++ buffer.drop (offset + bytes.length)
  | [], offset, bytes, h, buffer, _ => by
    obtain rfl : bytes = [] := h
    rw [List.append_nil, List.length_nil, Nat.add_zero, List.take_append_drop]
    rfl
  | w :: ws, offset, bytes, h, buffer, hlen => by
    obtain ⟨rfl, rest, rfl, hrest⟩ := h
    rw [List.length_append] at hlen
    have htake : (buffer.take w.offset).length = w.offset := List.length_take_of_le (by omega)
    have hlen' : (Encoding.overwrite buffer w).length = buffer.length := by
      unfold Encoding.overwrite
      rw [List.length_append, List.length_append, htake, List.length_drop]
      omega
    have hfront : (Encoding.overwrite buffer w).take (w.offset + w.bytes.length) =
        buffer.take w.offset ++ w.bytes := by
      unfold Encoding.overwrite
      rw [List.take_left']
      rw [List.length_append, htake]
    have hback : (Encoding.overwrite buffer w).drop (w.offset + w.bytes.length + rest.length) =
        buffer.drop (w.offset + (w.bytes ++ rest).length) := by
      unfold Encoding.overwrite
      rw [← List.drop_drop, List.drop_left' (by rw [List.length_append, htake]), List.drop_drop,
        List.length_append, Nat.add_assoc]
    rw [List.foldl_cons, hrest.overwrite _ (by omega), hfront, hback, List.append_assoc (buffer.take _)]

/-- The code ends behind these bytes, which it has written from `offset` on. -/
def Encodes (w : Writer Nat) (offset : Nat) (bytes : List UInt8) : Prop :=
  w.result = some bytes.length ∧ Consecutive offset w.trace bytes

end Solang.Codegen.Encoding
