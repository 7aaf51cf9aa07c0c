import Solang.Codegen.Encoding.Soroban

/-!
# Structs as Soroban values

`codegen/encoding/soroban_encoding.rs`, `encode_struct` and `decode_struct`: a struct is encoded
to a buffer with a word for each field. `none` is where the compiler stops, or where the code
that it makes does. Which code is made for an argument depends on the expression that stands for
it: on its kind when it is encoded, and on its type when it is decoded.
-/

namespace Solang.Codegen.Soroban.Struct

open Solang.Emit.Soroban (Val)

/-- `Type`, those that an argument can have. The fields stand for the number of the struct. -/
inductive Ty where
  | bool
  | int (ty : IntTy)
  | string
  | address
  | struct (fields : List Ty)

/-- A value in memory; for a string and for an address, a value of the host -/
inductive Value where
  | bool (b : Bool)
  | int (ty : IntTy) (n : BitVec ty.bits)
  | string (v : Val)
  | address (v : Val)
  | struct (members : List Value)

/-- A word of a buffer: a value of the host, or where another buffer is -/
inductive Word where
  | val (v : Val)
  | buffer (words : List Word)

mutual

def Value.ty : Value → Ty
  | .bool _ => .bool
  | .int ty _ => .int ty
  | .string _ => .string
  | .address _ => .address
  | .struct members => .struct (memberTys members)

def memberTys : List Value → List Ty
  | [] => []
  | m :: ms => m.ty :: memberTys ms

end

/-- The kind of the expression that is encoded -/
inductive Item where
  | variable
  | load

def Word.val? : Word → Option Val
  | .val v => some v
  | .buffer _ => none

def Word.buffer? : Word → Option (List Word)
  | .val _ => none
  | .buffer words => some words

/-- Whether the emitter has a pointer for an expression of this type -/
def Ty.isPointer : Ty → Bool
  | .struct _ => true
  | _ => false

section Code

variable {σ : Type} (h : Host σ)

mutual

/-- `soroban_encode_arg` -/
def sorobanEncodeArg (item : Item) : Value → σ → Option (Word × σ)
  | .bool b, s => some (.val (if b then 1 else 0), s)
  | .string v, s =>
    match item with
    | .variable => some (.val v, s)
    -- the length is taken from a literal, and is unreachable for everything else
    | .load => none
  | .int ty n, s => do
    let (v, s) ← Soroban.sorobanEncodeArg h ty n s
    some (.val v, s)
  | .address v, s => some (.val v, s)
  | .struct members, s => do
    let (words, s) ← encodeStruct members s
    some (.buffer words, s)

/-- `encode_struct`: every member is a `Load` for `soroban_encode`, which writes a word for it. -/
def encodeStruct : List Value → σ → Option (List Word × σ)
  | [], s => some ([], s)
  | m :: ms, s => do
    let (word, s) ← sorobanEncodeArg .load m s
    let (words, s) ← encodeStruct ms s
    some (word :: words, s)

end

/-- `decode_i128`: the type is that of the expression. -/
def decodeI128 (argTy : Ty) (arg : Val) (s : σ) : Option Value :=
  match argTy with
  | .int .int128 => do
    let n ← Soroban.decodeI128 h true arg s
    some (.int .int128 n)
  | .int .uint128 => do
    let n ← Soroban.decodeI128 h false arg s
    some (.int .uint128 n)
  | _ => none

/-- `decode_i256`, likewise -/
def decodeI256 (argTy : Ty) (arg : Val) (s : σ) : Option Value :=
  match argTy with
  | .int .int256 => do
    let n ← Soroban.decodeI256 h true arg s
    some (.int .int256 n)
  | .int .uint256 => do
    let n ← Soroban.decodeI256 h false arg s
    some (.int .uint256 n)
  | _ => none

/-- The type of the expression for a word of the buffer, `Uint(64)` -/
def loadedTy : Ty := .int .uint64

mutual

/-- `soroban_decode_arg`, for an expression of the type `argTy` -/
def decodeArgAs (argTy : Ty) (arg : Word) (s : σ) : Ty → Option Value
  | .bool => do
    let v ← arg.val?
    some (.bool (v != 0))
  | .string => do
    let v ← arg.val?
    some (.string v)
  | .address => do
    let v ← arg.val?
    some (.address v)
  | .int ty => do
    let v ← arg.val?
    match ty with
    | .uint128 | .int128 => decodeI128 h argTy v s
    | .uint256 | .int256 => decodeI256 h argTy v s
    | ty => do
      let n ← Soroban.sorobanDecodeArg h ty v s
      some (.int ty n)
  | .struct fields => do
    let words ← arg.buffer?
    let members ← decodeStruct argTy.isPointer words s fields
    some (.struct members)

/-- `decode_struct`: the emitter stops at a `Load` from what is not a pointer. -/
def decodeStruct (isPointer : Bool) (words : List Word) (s : σ) : List Ty → Option (List Value)
  | [] => some []
  | ty :: tys =>
    match isPointer, words with
    | true, word :: words => do
      let member ← decodeArgAs loadedTy word s ty
      let members ← decodeStruct true words s tys
      some (member :: members)
    | _, _ => none

end

/-- `soroban_decode_arg` -/
def sorobanDecodeArg (argTy : Ty) (decodeAs : Option Ty) (arg : Word) (s : σ) : Option Value :=
  decodeArgAs h argTy arg s (decodeAs.getD argTy)

/-- The struct is encoded to a buffer, and is decoded from that buffer to the same members in the
same order. -/
def RoundTrips (members : List Value) (s : σ) : Prop :=
  ∃ words s', sorobanEncodeArg h .variable (.struct members) s = some (.buffer words, s') ∧
    sorobanDecodeArg h (Value.struct members).ty none (.buffer words) s' = some (.struct members)

end Code

/-- The fields that are decoded from a word to what they were -/
def Value.Survives : Value → Prop
  | .bool _ | .address _ => True
  | .int ty n => ty.bits ≤ 64 ∧ FitsWord ty n
  | .string _ => False
  | .struct members => members = []

/-! ## A member of a struct -/

section Members

variable {σ : Type} {h : Host σ}

theorem mem_word_of_bits {ty : IntTy} (hty : ty.bits ≤ 64) :
    ty ∈ [IntTy.uint32, .int32, .uint64, .int64] := by
  cases ty with
  | uint32 | int32 | uint64 | int64 => simp
  | uint128 | int128 | uint256 | int256 => exact absurd hty (by decide)

/-- An integer of one word is decoded without the host. -/
theorem decode_word_state {ty : IntTy} (hty : ty.bits ≤ 64) (v : Val) (s t : σ) :
    Soroban.sorobanDecodeArg h ty v s = Soroban.sorobanDecodeArg h ty v t := by
  cases ty with
  | uint32 | int32 | uint64 | int64 => rfl
  | uint128 | int128 | uint256 | int256 => exact absurd hty (by decide)

theorem tag_of_shifted {k : Nat} {x t : BitVec 64} {v : Val} {s s' : σ} (hk : 8 ≤ k) (hk' : k < 64)
    (ht : t.toNat < 256)
    (henc : (do
      let obj ← add false (x <<< k) t
      some (obj, s)) = some (v, s')) : v.tag = t.toNat := by
  have ht' : t.toNat < 2 ^ k := Nat.lt_of_lt_of_le ht (Nat.pow_le_pow_right Nat.two_pos hk)
  rw [add_shifted false x t hk' ht'] at henc
  cases henc
  exact tag_shifted x t hk hk' ht

theorem tag_of_encoded {ty : IntTy} {n : BitVec ty.bits} {s s' : σ} {v : Val} (hty : ty.bits ≤ 64)
    (henc : Soroban.sorobanEncodeArg h ty n s = some (v, s')) : v.tag = ty.tag := by
  cases ty with
  | uint32 | int32 => exact tag_of_shifted (by omega : 8 ≤ 32) (by omega) (by decide) henc
  | uint64 | int64 => exact tag_of_shifted (by omega : 8 ≤ 8) (by omega) (by decide) henc
  | uint128 | int128 | uint256 | int256 => exact absurd hty (by decide)

/-- A wide integer is not decoded, as a word of the buffer has 64 bits. -/
theorem decode_wide_none {ty : IntTy} (hty : ¬ ty.bits ≤ 64) (arg : Word) (s : σ) :
    decodeArgAs h loadedTy arg s (.int ty) = none := by
  cases ty with
  | uint32 | int32 | uint64 | int64 => exact absurd (by decide) hty
  | uint128 | int128 | uint256 | int256 => cases arg <;> rfl

theorem decode_word {ty : IntTy} (hty : ty.bits ≤ 64) (v : Val) (s : σ) :
    decodeArgAs h loadedTy (.val v) s (.int ty) =
      (Soroban.sorobanDecodeArg h ty v s).map (Value.int ty) := by
  cases ty with
  | uint32 | int32 | uint64 | int64 => rfl
  | uint128 | int128 | uint256 | int256 => exact absurd hty (by decide)

theorem int_survives {ty : IntTy} {n : BitVec ty.bits} {word : Word} {s s' t : σ}
    (henc : sorobanEncodeArg h .load (.int ty n) s = some (word, s'))
    (hdec : decodeArgAs h loadedTy word t (.int ty) = some (.int ty n)) :
    ty.bits ≤ 64 ∧ FitsWord ty n := by
  by_cases hty : ty.bits ≤ 64
  · rw [sorobanEncodeArg] at henc
    obtain ⟨⟨v, s''⟩, hv, hpair⟩ := Option.bind_eq_some_iff.mp henc
    cases hpair
    rw [decode_word hty, decode_word_state hty v t s'] at hdec
    obtain ⟨n', hn, heq⟩ := Option.map_eq_some_iff.mp hdec
    cases heq
    exact ⟨hty, (word_round_trips_iff h ty (mem_word_of_bits hty) n s).mp
      ⟨v, s', hv, tag_of_encoded hty hv, hn⟩⟩
  · rw [decode_wide_none hty] at hdec
    cases hdec

/-- A member that comes back is one of those that survive. -/
theorem survives_of_decoded {m : Value} {word : Word} {s s' t : σ}
    (henc : sorobanEncodeArg h .load m s = some (word, s'))
    (hdec : decodeArgAs h loadedTy word t m.ty = some m) : m.Survives := by
  cases m with
  | bool b => trivial
  | address v => trivial
  | int ty n => exact int_survives henc hdec
  | string v =>
    rw [sorobanEncodeArg] at henc
    cases henc
  | struct members =>
    cases members with
    | nil => rfl
    | cons m ms =>
      cases word with
      | val v =>
        rw [Value.ty, decodeArgAs] at hdec
        cases hdec
      | buffer words =>
        rw [Value.ty, decodeArgAs, memberTys] at hdec
        simp [Word.buffer?, loadedTy, Ty.isPointer, decodeStruct] at hdec

theorem decoded_of_survives {m : Value} (hm : m.Survives) (s : σ) :
    ∃ word s', sorobanEncodeArg h .load m s = some (word, s') ∧
      ∀ t, decodeArgAs h loadedTy word t m.ty = some m := by
  cases m with
  | bool b => exact ⟨_, _, by rw [sorobanEncodeArg], fun t => by cases b <;> rfl⟩
  | address v => exact ⟨_, _, by rw [sorobanEncodeArg], fun t => rfl⟩
  | string v => exact absurd hm id
  | int ty n =>
    rcases hm with ⟨hty, hfits⟩
    rcases (word_round_trips_iff h ty (mem_word_of_bits hty) n s).mpr hfits with ⟨v, s', hv, -, hn⟩
    refine ⟨.val v, s', ?_, fun t => ?_⟩
    · rw [sorobanEncodeArg, hv]
      rfl
    · rw [Value.ty, decode_word hty, decode_word_state hty v t s', hn]
      rfl
  | struct members =>
    cases (show members = [] from hm)
    exact ⟨.buffer [], s, rfl, fun t => rfl⟩

/-! ## The whole struct -/

theorem survive_of_decoded {members : List Value} {words : List Word} {s s' t : σ}
    (henc : encodeStruct h members s = some (words, s'))
    (hdec : decodeStruct h true words t (memberTys members) = some members) :
    ∀ m ∈ members, m.Survives := by
  induction members generalizing words s with
  | nil => simp
  | cons m ms ih =>
    rw [encodeStruct] at henc
    obtain ⟨⟨word, s₁⟩, hword, henc⟩ := Option.bind_eq_some_iff.mp henc
    obtain ⟨⟨words', s₂⟩, hwords, hpair⟩ := Option.bind_eq_some_iff.mp henc
    cases hpair
    rw [memberTys, decodeStruct] at hdec
    obtain ⟨m', hm', hdec⟩ := Option.bind_eq_some_iff.mp hdec
    obtain ⟨ms', hms', heq⟩ := Option.bind_eq_some_iff.mp hdec
    cases heq
    exact List.forall_mem_cons.mpr ⟨survives_of_decoded hword hm', ih hwords hms'⟩

theorem decoded_of_survive {members : List Value} (hall : ∀ m ∈ members, m.Survives) (s : σ) :
    ∃ words s', encodeStruct h members s = some (words, s') ∧
      ∀ t, decodeStruct h true words t (memberTys members) = some members := by
  induction members generalizing s with
  | nil => exact ⟨[], s, rfl, fun t => rfl⟩
  | cons m ms ih =>
    rcases List.forall_mem_cons.mp hall with ⟨hm, hms⟩
    rcases decoded_of_survives (h := h) hm s with ⟨word, s₁, hword, hm'⟩
    rcases ih hms s₁ with ⟨words, s₂, hwords, hms'⟩
    refine ⟨word :: words, s₂, ?_, fun t => ?_⟩
    · rw [encodeStruct, hword]
      show (do
        let (words, s) ← encodeStruct h ms s₁
        some (word :: words, s)) = _
      rw [hwords]
      rfl
    · rw [memberTys, decodeStruct, hm']
      show (do
        let members ← decodeStruct h true words t (memberTys ms)
        some (m :: members)) = _
      rw [hms']
      rfl

theorem encode_struct_eq (members : List Value) (s : σ) (words : List Word) (s' : σ) :
    sorobanEncodeArg h .variable (.struct members) s = some (.buffer words, s') ↔
      encodeStruct h members s = some (words, s') := by
  rw [sorobanEncodeArg]
  rcases encodeStruct h members s with _ | ⟨words', s''⟩
  · simp
  · simp

theorem decode_struct_eq (members : List Value) (words : List Word) (s : σ) :
    sorobanDecodeArg h (Value.struct members).ty none (.buffer words) s = some (.struct members) ↔
      decodeStruct h true words s (memberTys members) = some members := by
  show decodeArgAs h (.struct (memberTys members)) (.buffer words) s (.struct (memberTys members)) = _ ↔ _
  rw [decodeArgAs]
  show (do
    let members ← decodeStruct h true words s (memberTys members)
    some (Value.struct members)) = _ ↔ _
  rcases decodeStruct h true words s (memberTys members) with _ | members'
  · simp
  · simp

/-- A struct is decoded to itself exactly if its fields are booleans, addresses, and integers
of up to 64 bits that fit beside the tag. -/
theorem struct_round_trips_iff (members : List Value) (s : σ) :
    RoundTrips h members s ↔ ∀ m ∈ members, m.Survives := by
  constructor
  · rintro ⟨words, s', henc, hdec⟩
    exact survive_of_decoded ((encode_struct_eq ..).mp henc) ((decode_struct_eq ..).mp hdec)
  · intro hall
    rcases decoded_of_survive hall s with ⟨words, s', henc, hdec⟩
    exact ⟨words, s', (encode_struct_eq ..).mpr henc, (decode_struct_eq ..).mpr (hdec s')⟩

end Members

namespace Sample

open Soroban.Sample (host)

/-- A field of 128 bits is encoded; the code for decoding it is unreachable. -/
theorem wide_field_is_not_decoded :
    ¬ ∀ (members : List Value) s, (∀ m ∈ members, (sorobanEncodeArg host .variable m s).isSome) →
      RoundTrips host members s := by
  intro hall
  rcases hall [.int .int128 5] [] (by decide) with ⟨words, s', henc, hdec⟩
  cases henc
  exact absurd hdec (by simp [sorobanDecodeArg, Value.ty, memberTys, decodeArgAs, decodeStruct, decodeI128,
    Word.buffer?, Word.val?, loadedTy, Ty.isPointer])

end Sample

end Solang.Codegen.Soroban.Struct
