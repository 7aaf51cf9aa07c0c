import Solang.Stdlib.Base58
import Solang.Stdlib.FormatCorrect

/-!
# Formatted strings

`format_string` of `emit/strings.rs`: a first pass over the pieces adds up how much space their texts
may need, a second one writes the texts into a vector of that length and sets its length to what
was written. The text of a piece is what the functions of `stdlib/format.c` write. A result is `none`
where a byte outside the vector would be written.
-/

namespace Solang.Emit.Strings

open Stdlib.Format (hexByte uint2hex uint2bin uint2dec uint128dec uint256dec)
open Stdlib.Base58 (base58EncodeSolanaAddress)

inductive Target where
  | solana
  /-- With this `address_length` -/
  | polkadot (addressLength : Nat)
  deriving DecidableEq

def Target.addressLength : Target → Nat
  | solana => 32
  | polkadot addressLength => addressLength

/-- `FormatArg`, but for the literals, which are a piece of their own -/
inductive FormatArg where
  | default
  | binary
  | hex
  deriving DecidableEq

/-- The widths of integer types -/
structure Width where
  bits : Nat
  pos : 0 < bits
  le : bits ≤ 256
  dvd : 8 ∣ bits

/-- A piece of the format, with the value of its argument -/
inductive Piece (target : Target) where
  | literal (value : List (BitVec 8))
  | bool (value : Bool)
  | address (spec : FormatArg) (value : List (BitVec 8)) (length_eq : value.length = target.addressLength)
  /-- The bytes as they are written in the source; the number that they are is stored. -/
  | bytesN (value : List (BitVec 8))
  | string (value : List (BitVec 8))
  | dynamicBytes (value : List (BitVec 8))
  | uint (width : Width) (spec : FormatArg) (value : BitVec width.bits)
  | int (width : Width) (spec : FormatArg) (value : BitVec width.bits)
  | enum (value : BitVec 8)

/-- `base58_size` -/
def base58Size (length : Nat) : Nat := length * 138 / 100

variable {target : Target}

/-- The address is written in base 58. -/
def isBase58 (target : Target) (spec : FormatArg) : Bool := target = .solana && spec != .hex

/-! ## How much space -/

/-- The length that the first pass adds for a piece -/
def estimate : Piece target → Nat
  | .literal value => value.length
  | .bool _ => 5
  | .address spec _ _ =>
    if isBase58 target spec then base58Size target.addressLength else 2 * target.addressLength
  | .bytesN value => value.length * 2
  | .string value => value.length
  | .dynamicBytes value => value.length + value.length
  | .uint width .hex _ => width.bits / 4 + 2
  | .int width .hex _ => width.bits / 4 + 3
  | .uint width .binary _ => width.bits + 2
  | .int width .binary _ => width.bits + 3
  -- a rough over-estimate of how many decimals are needed
  | .uint width .default _ => width.bits / 2
  | .int width .default _ => width.bits / 2 + 1
  -- an enum has the type `uint8`
  | .enum _ => 8 / 3

/-- The length of the vector, a `uint32_t` -/
def bufferLength (pieces : List (Piece target)) : Nat :=
  pieces.foldl (fun length piece => (length + estimate piece) % 2 ^ 32) 0

/-! ## What is written -/

def ascii (text : List Char) : List (BitVec 8) := text.map fun c => BitVec.ofNat 8 c.toNat

/-- The bytes of an integer in memory -/
def leBytes : Nat → Nat → List (BitVec 8)
  | 0, _ => []
  | n + 1, v => BitVec.ofNat 8 v :: leBytes n (v / 256)

/-- `hex_encode` -/
def hexEncode (input : List (BitVec 8)) : List Char := input.flatMap hexByte

/-- `hex_encode_rev` -/
def hexEncodeRev (input : List (BitVec 8)) : List Char := input.reverse.flatMap hexByte

/-- An unsigned integer under a specifier -/
def formatUint (fuel : Nat) (width : Width) (spec : FormatArg) (value : BitVec width.bits) :
    Option (List Char) :=
  match spec with
  | .hex => uint2hex (leBytes (width.bits / 8) value.toNat) (width.bits / 8)
  | .binary => uint2bin (leBytes (width.bits / 8) value.toNat) (width.bits / 8)
  | .default =>
    if width.bits ≤ 64 then uint2dec (value.setWidth 64)
    else if width.bits ≤ 128 then uint128dec (value.setWidth 128)
    else uint256dec fuel (value.setWidth 256)

/-- A signed integer: a minus and the negated value, if it is negative -/
def formatInt (fuel : Nat) (width : Width) (spec : FormatArg) (value : BitVec width.bits) :
    Option (List Char) :=
  if value.slt 0 then (formatUint fuel width spec (-value)).map ('-' :: ·)
  else formatUint fuel width spec value

/-- Write at an offset of the vector: the vector, and the offset behind what was written -/
def put (buf : List (BitVec 8)) (output : Nat) (text : List (BitVec 8)) : Option (List (BitVec 8) × Nat) :=
  if output + text.length ≤ buf.length then
    some (buf.take output ++ text ++ buf.drop (output + text.length), output + text.length)
  else none

/-- The second pass for a piece. The digits in base 58 are computed in the vector. -/
def writePiece (fuel : Nat) (buf : List (BitVec 8)) (output : Nat) :
    Piece target → Option (List (BitVec 8) × Nat)
  | .literal value => put buf output value
  | .bool value => put buf output (ascii (if value then ['t', 'r', 'u', 'e'] else ['f', 'a', 'l', 's', 'e']))
  | .address spec value _ =>
    if isBase58 target spec then
      let len := base58Size target.addressLength
      if output + len ≤ buf.length then do
        let text ← base58EncodeSolanaAddress value (BitVec.ofNat 32 target.addressLength)
          ((buf.drop output).take len) (BitVec.ofNat 32 len)
        put buf output text
      else none
    else put buf output (ascii (hexEncode value))
  | .bytesN value => put buf output (ascii (hexEncodeRev value.reverse))
  | .string value => put buf output value
  | .dynamicBytes value => put buf output (ascii (hexEncode value))
  | .uint width spec value => do put buf output (ascii (← formatUint fuel width spec value))
  | .int width spec value => do put buf output (ascii (← formatInt fuel width spec value))
  | .enum value => do put buf output (ascii (← uint2dec (value.setWidth 64)))

/-- `format_string`: what the vector holds -/
def formatString (fuel : Nat) (pieces : List (Piece target)) : Option (List (BitVec 8)) := do
  let (buf, output) ← pieces.foldlM (fun (buf, output) piece => writePiece fuel buf output piece)
    (List.replicate (bufferLength pieces) 0, 0)
  return buf.take (output % 2 ^ 32)

end Solang.Emit.Strings

/-!
## What a formatted string holds

The text of a piece is that of its value: numerals in the base of the specifier after the marker of
that base, with a minus before it all if the number is negative. What the functions of
`stdlib/format.c` write is never longer, so that a string is right if each of its pieces is, and if
the length of the vector is enough. An enum is given two bytes, and needs three from the value 100 on.
-/

namespace Solang.Emit.Strings

open Positional
open Fuel (Settles)
open Stdlib.Format (uint2hex uint2bin uint2dec uint128dec uint256dec textOf hexDigits Canonical)
open Stdlib.Base58 (numeral58)

variable {target : Target}

/-! ### The texts -/

def FormatArg.base : FormatArg → Nat
  | default => 10
  | binary => 2
  | hex => 16

def FormatArg.marker : FormatArg → List Char
  | default => []
  | binary => ['0', 'b']
  | hex => ['0', 'x']

def numberText (spec : FormatArg) (n : Nat) : List Char := spec.marker ++ textOf (numeral spec.base n)

def signText (v : Int) : List Char := if v < 0 then ['-'] else []

def hexText (value : List (BitVec 8)) : List Char := value.flatMap fun v => textOf (hexDigits v.toNat)

def pieceText : Piece target → List (BitVec 8)
  | .literal value => value
  | .bool value => ascii (if value then ['t', 'r', 'u', 'e'] else ['f', 'a', 'l', 's', 'e'])
  | .address spec value _ =>
    if isBase58 target spec then
      (numeral58 (base58Size target.addressLength) (Stdlib.Base58.value 256 value)).map Stdlib.Base58.digitChar
    else ascii (hexText value)
  | .bytesN value => ascii (hexText value)
  | .string value => value
  | .dynamicBytes value => ascii (hexText value)
  | .uint _ spec value => ascii (numberText spec value.toNat)
  | .int _ spec value => ascii (signText value.toInt ++ numberText spec value.toInt.natAbs)
  | .enum value => ascii (numberText .default value.toNat)

/-- The functions of `stdlib/format.c` write the numeral of `n`, which has this many bits. -/
def PrintsNumber (bits : Nat) (spec : FormatArg) (n : Nat) : Prop :=
  match spec with
  | .default => bits ≤ 128 ∨ n < 10 ^ 76 ∨ 10 ^ 18 ≤ n / 10 ^ 57 % 10 ^ 19
  | .binary => n ≠ 0
  | .hex => True

def Prints : Piece target → Prop
  | .uint width spec value => PrintsNumber width.bits spec value.toNat
  | .int width spec value => PrintsNumber width.bits spec value.toInt.natAbs
  | _ => True

/-! ### Numbers -/

/-- What is written for a text: it is no longer, and it is the text if the condition holds. -/
structure Written {α : Type} (prints : Prop) (text written : List α) : Prop where
  le : written.length ≤ text.length
  eq_of_length : written.length = text.length → written = text
  eq_iff : written = text ↔ prints

theorem Written.rfl {α : Type} (text : List α) : Written True text text :=
  ⟨le_rfl, fun _ => Eq.refl _, fun _ => trivial, fun _ => Eq.refl _⟩

theorem Written.append {prints : Prop} {text written : List Char} (h : Written prints text written)
    (before : List Char) : Written prints (before ++ text) (before ++ written) := by
  constructor
  · rw [List.length_append, List.length_append]
    exact Nat.add_le_add_left h.le _
  · intro hlen
    rw [List.length_append, List.length_append] at hlen
    rw [h.eq_of_length (Nat.add_left_cancel hlen)]
  · rw [List.append_cancel_left_eq]
    exact h.eq_iff

theorem length_ascii (text : List Char) : (ascii text).length = text.length := List.length_map _

theorem Written.ascii {prints : Prop} {text written : List Char} (h : Written prints text written) :
    Written prints (ascii text) (ascii written) := by
  have heq : (Strings.ascii written).length = (Strings.ascii text).length → written = text := fun hlen =>
    h.eq_of_length (by rwa [length_ascii, length_ascii] at hlen)
  refine ⟨?_, fun hlen => congrArg _ (heq hlen), fun hascii => ?_, fun hprints =>
    congrArg _ (h.eq_iff.mpr hprints)⟩
  · rw [length_ascii, length_ascii]
    exact h.le
  · exact h.eq_iff.mp (heq (congrArg List.length hascii))

theorem length_leBytes (n v : Nat) : (leBytes n v).length = n := by
  induction n generalizing v with
  | zero => rfl
  | succ n ih => exact congrArg Nat.succ (ih _)

theorem value_leBytes (n v : Nat) : Stdlib.Format.value (leBytes n v) = v % 256 ^ n := by
  induction n generalizing v with
  | zero => exact (Nat.mod_one v).symm
  | succ n ih =>
    have hcons : Stdlib.Format.value (leBytes (n + 1) v) =
        v % 256 + 256 * Stdlib.Format.value (leBytes n (v / 256)) := Nat.ofDigits_cons
    have hpow : 256 ^ (n + 1) = 256 * 256 ^ n := Nat.pow_succ'
    rw [hcons, ih, hpow, Nat.mod_mul]

theorem uint2dec_spec (val : BitVec 64) : uint2dec val = some (textOf (numeral 10 val.toNat)) := by
  have hlen : (numeral 10 val.toNat).length ≤ 20 :=
    numeral_length_le (by decide) (by decide) (Nat.lt_trans val.isLt (by decide))
  obtain ⟨buf, hbuf, hdigits⟩ := Stdlib.Format.pushDigits_spec 20 [] val (by simpa using hlen)
  have hcopy : Stdlib.Format.copyOut buf = textOf (numeral 10 val.toNat) := by
    have hlt := (numeral_isNumeral (b := 10) (by decide) val.toNat).lt
    rw [Stdlib.Format.copyOut_eq (by rw [hdigits]; exact hlt), hdigits]
    rfl
  unfold uint2dec
  rw [hbuf, ← hcopy]
  rfl

/-- The numeral of a number in little-endian bytes -/
theorem writeNumber_leBytes {b k : Nat} {top byte : BitVec 8 → List Char} {f : Nat → List Nat}
    (hw : Stdlib.Format.WritesBytes b k top byte f) (base : Char) {bits n : Nat} (h8 : 8 ∣ bits)
    (hpos : 0 < bits) (hn : n < 2 ^ bits) :
    Stdlib.Format.writeNumber base top byte (leBytes (bits / 8) n) (bits / 8) =
      some ('0' :: base :: if n = 0 then top 0 else textOf (numeral b n)) := by
  obtain ⟨bytes, rfl⟩ := h8
  have hbytes : 8 * bytes / 8 = bytes := Nat.mul_div_cancel_left bytes (by decide)
  rw [hbytes]
  have hvalue : Stdlib.Format.value (leBytes bytes n) = n := by
    rw [value_leBytes]
    refine Nat.mod_eq_of_lt ?_
    rwa [Nat.pow_mul] at hn
  have hne : leBytes bytes n ≠ [] := by
    refine List.ne_nil_of_length_pos ?_
    rw [length_leBytes]
    omega
  obtain ⟨text, htext, hcanonical, hzero⟩ := Stdlib.Format.writeNumber_spec hw base hne
  rw [length_leBytes] at htext
  rw [hvalue] at hcanonical hzero
  rw [htext]
  split
  next h0 => rw [hzero h0]
  next h0 => rw [(hcanonical h0).eq_textOf hw.base.1]

/-- The decimal numeral of a number of any width -/
theorem formatUint_default (width : Width) (value : BitVec width.bits) :
    ∃ text, Settles (fun fuel => formatUint fuel width .default value) text ∧
      Written (PrintsNumber width.bits .default value.toNat) (numberText .default value.toNat) text := by
  have hsetWidth : ∀ w, width.bits ≤ w → (value.setWidth w).toNat = value.toNat := fun w hw =>
    BitVec.toNat_setWidth_of_le hw
  unfold formatUint
  by_cases h64 : width.bits ≤ 64
  · refine ⟨numberText .default value.toNat, ?_, ?_⟩
    · simp only [if_pos h64]
      rw [uint2dec_spec, hsetWidth 64 h64]
      exact Fuel.settles_const _
    · have h := Written.rfl (numberText .default value.toNat)
      exact ⟨h.le, h.eq_of_length, fun _ => .inl (by omega), fun _ => Eq.refl _⟩
  simp only [if_neg h64]
  by_cases h128 : width.bits ≤ 128
  · simp only [if_pos h128]
    obtain ⟨text, htext, hcanonical, -⟩ := Stdlib.Format.uint128dec_spec (value.setWidth 128)
    rw [hsetWidth 128 h128] at hcanonical
    have h := Written.rfl (numberText .default value.toNat)
    refine ⟨numberText .default value.toNat, ?_, h.le, h.eq_of_length, fun _ => .inl h128, fun _ => Eq.refl _⟩
    rw [htext, hcanonical.eq_textOf (by decide)]
    exact Fuel.settles_const _
  · simp only [if_neg h128]
    obtain ⟨text, hsettles, -, hcanonical, hle, heq⟩ := Stdlib.Format.uint256dec_spec (value.setWidth 256)
    rw [hsetWidth 256 width.le] at hcanonical hle heq
    have htext : numberText .default value.toNat = textOf (numeral 10 value.toNat) := Eq.refl _
    have hlength := Stdlib.Format.length_textOf (numeral 10 value.toNat)
    rw [← htext] at hlength
    refine ⟨text, hsettles, hlength ▸ hle, fun hlen => ?_, fun h => ?_, fun h => ?_⟩
    · exact (heq (hlen.trans hlength)).eq_textOf (by decide)
    · refine .inr (hcanonical.mp (heq ?_))
      rw [h, hlength]
    · exact (hcanonical.mpr (h.resolve_left h128)).eq_textOf (by decide)

/-- An unsigned number under any specifier -/
theorem formatUint_spec (width : Width) (spec : FormatArg) (value : BitVec width.bits) :
    ∃ text, Settles (fun fuel => formatUint fuel width spec value) text ∧
      Written (PrintsNumber width.bits spec value.toNat) (numberText spec value.toNat) text := by
  cases spec with
  | default => exact formatUint_default width value
  | binary =>
    have htext := writeNumber_leBytes Stdlib.Format.bin_writes 'b' width.dvd width.pos value.isLt
    refine ⟨_, ⟨0, fun _ _ => htext⟩, ?_⟩
    by_cases h0 : value.toNat = 0
    · -- there are no digits
      rw [if_pos h0, h0]
      exact ⟨by decide, fun h => absurd h (by decide), fun h => absurd h (by decide),
        fun h => absurd (Eq.refl 0) h⟩
    · rw [if_neg h0]
      have h := Written.rfl (numberText .binary value.toNat)
      exact ⟨h.le, h.eq_of_length, fun _ => h0, fun _ => Eq.refl _⟩
  | hex =>
    have htext := writeNumber_leBytes Stdlib.Format.hex_writes 'x' width.dvd width.pos value.isLt
    have hzero : (if value.toNat = 0 then Stdlib.Format.hexTop 0 else textOf (numeral 16 value.toNat)) =
        textOf (numeral 16 value.toNat) := by
      split
      next h0 =>
        rw [h0]
        decide
      next => rfl
    rw [hzero] at htext
    exact ⟨_, ⟨0, fun _ _ => htext⟩, Written.rfl _⟩

/-- A signed number: the sign, and the number without it -/
theorem formatInt_spec (width : Width) (spec : FormatArg) (value : BitVec width.bits) :
    ∃ text, Settles (fun fuel => formatInt fuel width spec value) text ∧
      Written (PrintsNumber width.bits spec value.toInt.natAbs)
        (signText value.toInt ++ numberText spec value.toInt.natAbs) text := by
  have hlt := value.isLt
  have htoInt := BitVec.toInt_eq_toNat_cond value
  have hslt : value.slt 0 = decide (value.toInt < 0) := by
    rw [BitVec.slt_eq_decide]
    exact congrArg (fun z => decide (value.toInt < z)) BitVec.toInt_zero
  unfold formatInt
  rw [hslt]
  by_cases hneg : value.toInt < 0
  · have habs : (-value).toNat = value.toInt.natAbs := by
      rw [BitVec.toNat_neg, Nat.mod_eq_of_lt] <;> split at htoInt <;> omega
    obtain ⟨text, hsettles, hwritten⟩ := formatUint_spec width spec (-value)
    rw [habs] at hwritten
    refine ⟨'-' :: text, ?_, ?_⟩
    · simp only [decide_eq_true hneg, if_true]
      exact hsettles.map _
    · unfold signText
      rw [if_pos hneg]
      exact hwritten.append ['-']
  · have habs : value.toNat = value.toInt.natAbs := by
      split at htoInt <;> omega
    obtain ⟨text, hsettles, hwritten⟩ := formatUint_spec width spec value
    rw [habs] at hwritten
    refine ⟨text, ?_, ?_⟩
    · simp only [decide_eq_false hneg]
      exact hsettles
    · unfold signText
      rw [if_neg hneg]
      exact hwritten

/-! ### Writing -/

/-- What is written for a piece, at the end of what is there already -/
def Writes (piece : Piece target) (text : List (BitVec 8)) : Prop :=
  ∀ done k, ∃ m, ∀ fuel ≥ m, writePiece fuel (done ++ List.replicate k 0) done.length piece =
    if text.length ≤ k then
      some (done ++ text ++ List.replicate (k - text.length) 0, done.length + text.length)
    else none

theorem put_spec (done text : List (BitVec 8)) (k : Nat) :
    put (done ++ List.replicate k 0) done.length text =
      if text.length ≤ k then
        some (done ++ text ++ List.replicate (k - text.length) 0, done.length + text.length)
      else none := by
  unfold put
  rw [List.length_append, List.length_replicate]
  by_cases h : text.length ≤ k
  · rw [if_pos h, if_pos (by omega), List.take_left, List.drop_append, List.drop_of_length_le (by omega),
      List.nil_append, Nat.add_sub_cancel_left, List.drop_replicate]
  · rw [if_neg h, if_neg (by omega)]

theorem writes_of_put {piece : Piece target} {text : List (BitVec 8)}
    (h : ∀ fuel buf output, writePiece fuel buf output piece = put buf output text) : Writes piece text :=
  fun done k => ⟨0, fun fuel _ => (h fuel _ _).trans (put_spec done text k)⟩

theorem writes_of_settles {piece : Piece target} {f : Nat → Option (List Char)} {text : List Char}
    (hf : Settles f text)
    (h : ∀ fuel buf output,
      writePiece fuel buf output piece = f fuel >>= fun text => put buf output (ascii text)) :
    Writes piece (ascii text) := by
  intro done k
  obtain ⟨m, hm⟩ := hf
  refine ⟨m, fun fuel hfuel => ?_⟩
  rw [h, hm fuel hfuel]
  exact put_spec done (ascii text) k

theorem hexEncode_eq (value : List (BitVec 8)) : hexEncode value = hexText value := by
  unfold hexEncode hexText
  rw [funext Stdlib.Format.hex_writes.byte]

theorem hexEncodeRev_reverse (value : List (BitVec 8)) : hexEncodeRev value.reverse = hexText value := by
  unfold hexEncodeRev
  rw [List.reverse_reverse]
  exact hexEncode_eq value

variable {spec : FormatArg} {value : List (BitVec 8)}

theorem eq_solana (h : isBase58 target spec) : target = .solana := by
  unfold isBase58 at h
  rw [Bool.and_eq_true, decide_eq_true_eq] at h
  exact h.1

theorem length_pieceText_base58 (hlen : value.length = Target.solana.addressLength)
    (h : isBase58 .solana spec) :
    (pieceText (.address spec value hlen : Piece .solana)).length = 44 := by
  have htext : pieceText (.address spec value hlen : Piece .solana) =
      (numeral58 44 (Stdlib.Base58.value 256 value)).map Stdlib.Base58.digitChar := if_pos h
  rw [htext, List.length_map]
  exact (Stdlib.Base58.encode_spec value 32 44 hlen (by decide)).2

/-- An address on Solana: its digits are computed where they stay. -/
theorem writes_base58 (hlen : value.length = target.addressLength) (h : isBase58 target spec) :
    Writes (.address spec value hlen : Piece target) (pieceText (.address spec value hlen : Piece target)) := by
  obtain rfl := eq_solana h
  have hencode : Stdlib.Base58.base58EncodeSolanaAddress value 32 (List.replicate 44 0) 44 =
      some ((numeral58 44 (Stdlib.Base58.value 256 value)).map Stdlib.Base58.digitChar) :=
    (Stdlib.Base58.encode_spec value 32 44 hlen (by decide)).1
  have htext : pieceText (.address spec value hlen : Piece .solana) =
      (numeral58 44 (Stdlib.Base58.value 256 value)).map Stdlib.Base58.digitChar := if_pos h
  have hlength := length_pieceText_base58 hlen h
  intro done k
  refine ⟨0, fun fuel _ => (if_pos h).trans ?_⟩
  rw [hlength]
  show (if done.length + 44 ≤ (done ++ List.replicate k 0).length then _ else _) = _
  rw [List.length_append, List.length_replicate]
  by_cases hk : 44 ≤ k
  · have hzeros : ((done ++ List.replicate k (0 : BitVec 8)).drop done.length).take 44 =
        List.replicate 44 0 := by
      rw [List.drop_left, List.take_replicate, Nat.min_eq_left hk]
    have hput := put_spec done (pieceText (.address spec value hlen : Piece .solana)) k
    rw [hlength, if_pos hk, htext] at hput
    rw [if_pos hk, if_pos (Nat.add_le_add_left hk _), htext]
    show (Stdlib.Base58.base58EncodeSolanaAddress value 32 (List.take 44 _) 44 >>= _) = _
    rw [hzeros]
    rw [hencode, Option.bind_eq_bind, Option.bind_some]
    exact hput
  · rw [if_neg hk, if_neg (by omega)]

/-- What is written for each piece -/
theorem exists_writes (piece : Piece target) :
    ∃ written, Writes piece written ∧ Written (Prints piece) (pieceText piece) written := by
  cases piece with
  | literal value | string value => exact ⟨value, writes_of_put fun _ _ _ => rfl, Written.rfl _⟩
  | bool value => exact ⟨_, writes_of_put fun _ _ _ => rfl, Written.rfl _⟩
  | address spec value hlen =>
    refine ⟨_, ?_, Written.rfl _⟩
    by_cases h : isBase58 target spec
    · exact writes_base58 hlen h
    · have htext : pieceText (.address spec value hlen : Piece target) = ascii (hexEncode value) := by
        rw [hexEncode_eq]
        exact if_neg h
      rw [htext]
      exact writes_of_put fun _ _ _ => if_neg h
  | bytesN value =>
    have htext : pieceText (.bytesN value : Piece target) = ascii (hexEncodeRev value.reverse) := by
      rw [hexEncodeRev_reverse]
      rfl
    refine ⟨_, ?_, Written.rfl _⟩
    rw [htext]
    exact writes_of_put fun _ _ _ => rfl
  | dynamicBytes value =>
    have htext : pieceText (.dynamicBytes value : Piece target) = ascii (hexEncode value) := by
      rw [hexEncode_eq]
      rfl
    refine ⟨_, ?_, Written.rfl _⟩
    rw [htext]
    exact writes_of_put fun _ _ _ => rfl
  | uint width spec value =>
    obtain ⟨text, hsettles, hwritten⟩ := formatUint_spec width spec value
    exact ⟨ascii text, writes_of_settles hsettles fun _ _ _ => rfl, hwritten.ascii⟩
  | int width spec value =>
    obtain ⟨text, hsettles, hwritten⟩ := formatInt_spec width spec value
    exact ⟨ascii text, writes_of_settles hsettles fun _ _ _ => rfl, hwritten.ascii⟩
  | enum value =>
    have hvalue : (value.setWidth 64).toNat = value.toNat := BitVec.toNat_setWidth_of_le (by decide)
    have htext := uint2dec_spec (value.setWidth 64)
    rw [hvalue] at htext
    exact ⟨_, writes_of_settles (f := fun _ => uint2dec (value.setWidth 64)) ⟨0, fun _ _ => htext⟩
      fun _ _ _ => rfl, Written.rfl _⟩

/-- The second pass -/
theorem writePieces_spec {written : Piece target → List (BitVec 8)} (h : ∀ piece, Writes piece (written piece))
    (pieces : List (Piece target)) (done : List (BitVec 8)) (k : Nat) :
    ∃ m, ∀ fuel ≥ m, pieces.foldlM (fun (buf, output) piece => writePiece fuel buf output piece)
        (done ++ List.replicate k 0, done.length) =
      if (pieces.flatMap written).length ≤ k then
        some (done ++ pieces.flatMap written ++ List.replicate (k - (pieces.flatMap written).length) 0,
          done.length + (pieces.flatMap written).length)
      else none := by
  induction pieces generalizing done k with
  | nil => exact ⟨0, fun fuel _ => by simp⟩
  | cons piece pieces ih =>
    obtain ⟨m, hm⟩ := h piece done k
    obtain ⟨m', hm'⟩ := ih (done ++ written piece) (k - (written piece).length)
    refine ⟨max m m', fun fuel hfuel => ?_⟩
    rw [List.foldlM_cons]
    show (writePiece fuel _ _ piece >>= _) = _
    rw [hm fuel (by omega), List.flatMap_cons, List.length_append]
    by_cases hfits : (written piece).length ≤ k
    · rw [if_pos hfits]
      have hrest := hm' fuel (by omega)
      rw [List.length_append] at hrest
      refine hrest.trans ?_
      by_cases hall : (written piece).length + (pieces.flatMap written).length ≤ k
      · rw [if_pos (by omega), if_pos hall, Nat.sub_sub, Nat.add_assoc, List.append_assoc done]
      · rw [if_neg (by omega), if_neg hall]
    · rw [if_neg hfits, if_neg (by omega)]
      rfl

/-! ### The space -/

/-- The number of digits that there is space for -/
def places : FormatArg → Nat → Nat
  | .default, bits => bits / 2
  | .binary, bits => bits
  | .hex, bits => bits / 4

/-- The bytes that a piece leaves over -/
def spare : Piece target → Nat
  | .bool value => if value then 1 else 0
  | .uint width spec value => places spec width.bits - (numeral spec.base value.toNat).length
  | .int width spec value => places spec width.bits + 1 -
      ((signText value.toInt).length + (numeral spec.base value.toInt.natAbs).length)
  | .enum value => 2 - (numeral 10 value.toNat).length
  | _ => 0

/-- The bytes that a piece is short of -/
def short : Piece target → Nat
  | .enum value => if 100 ≤ value.toNat then 1 else 0
  | _ => 0

theorem numeral_length_le_places (width : Width) (spec : FormatArg) {n : Nat} (h : n < 2 ^ width.bits) :
    (numeral spec.base n).length ≤ places spec width.bits := by
  obtain ⟨bytes, hbytes⟩ := width.dvd
  have hpos := width.pos
  cases spec with
  | default =>
    refine numeral_length_le (by decide) (show 0 < width.bits / 2 by omega) (Nat.lt_of_lt_of_le h ?_)
    calc 2 ^ width.bits = 4 ^ (width.bits / 2) := by
          rw [show 4 = 2 ^ 2 by rfl, ← Nat.pow_mul]
          congr 1
          omega
      _ ≤ 10 ^ (width.bits / 2) := Nat.pow_le_pow_left (by decide) _
  | binary => exact numeral_length_le (by decide) hpos h
  | hex =>
    refine numeral_length_le (by decide) (show 0 < width.bits / 4 by omega) (Nat.lt_of_lt_of_eq h ?_)
    show 2 ^ width.bits = 16 ^ (width.bits / 4)
    rw [show 16 = 2 ^ 4 by rfl, ← Nat.pow_mul]
    congr 1
    omega

theorem length_hexText (value : List (BitVec 8)) : (hexText value).length = value.length * 2 := by
  unfold hexText
  simp [List.length_flatMap, Stdlib.Format.length_textOf, hexDigits]

theorem length_numberText (spec : FormatArg) (n : Nat) :
    (numberText spec n).length = spec.marker.length + (numeral spec.base n).length := by
  unfold numberText
  rw [List.length_append, Stdlib.Format.length_textOf]

theorem length_enumText : ∀ value : BitVec 8,
    (numeral 10 value.toNat).length + (2 - (numeral 10 value.toNat).length) =
      2 + if 100 ≤ value.toNat then 1 else 0 := by
  decide +kernel

theorem natAbs_toInt_lt {w : Nat} (value : BitVec w) : value.toInt.natAbs < 2 ^ w ∨ w = 0 := by
  have hlt := value.isLt
  have htoInt := BitVec.toInt_eq_toNat_cond value
  split at htoInt <;> omega

theorem estimate_number (width : Width) (spec : FormatArg) (value : BitVec width.bits) :
    estimate (.uint width spec value : Piece target) = spec.marker.length + places spec width.bits ∧
    estimate (.int width spec value : Piece target) = spec.marker.length + places spec width.bits + 1 := by
  cases spec <;> simp only [estimate, FormatArg.marker, places, List.length_cons, List.length_nil] <;> omega

theorem length_pieceText (piece : Piece target) :
    (pieceText piece).length + spare piece = estimate piece + short piece := by
  cases piece with
  | literal value => rfl
  | bool value => cases value <;> rfl
  | address spec value hlen =>
    by_cases h : isBase58 target spec
    · obtain rfl := eq_solana h
      exact (length_pieceText_base58 hlen h).trans (if_pos h).symm
    · have htext : pieceText (.address spec value hlen : Piece target) = ascii (hexText value) := if_neg h
      have hestimate : estimate (.address spec value hlen : Piece target) = 2 * target.addressLength := if_neg h
      rw [htext, hestimate, length_ascii, length_hexText, hlen, Nat.mul_comm]
      rfl
  | bytesN value => exact (length_ascii _).trans (length_hexText value)
  | string value => rfl
  | dynamicBytes value =>
    refine ((length_ascii _).trans (length_hexText value)).trans ?_
    exact Nat.mul_two _
  | uint width spec value =>
    have hle := numeral_length_le_places width spec value.isLt
    rw [(estimate_number width spec value).1]
    show (ascii _).length + (places spec width.bits - _) = _ + 0
    rw [length_ascii, length_numberText]
    omega
  | int width spec value =>
    have hlt := (natAbs_toInt_lt value).resolve_right width.pos.ne'
    have hle := numeral_length_le_places width spec hlt
    have hsign : (signText value.toInt).length ≤ 1 := by
      unfold signText
      split <;> decide
    rw [(estimate_number width spec value).2]
    show (ascii _).length + (places spec width.bits + 1 - _) = _ + 0
    rw [length_ascii, List.length_append, length_numberText]
    omega
  | enum value =>
    have hlength : (pieceText (.enum value : Piece target)).length = (numeral 10 value.toNat).length :=
      (length_ascii _).trans ((length_numberText .default value.toNat).trans (Nat.zero_add _))
    rw [hlength]
    exact length_enumText value

/-! ### The whole string -/

/-- The texts fit into the vector, nothing is written outside of it, and it holds the texts. -/
def FormatsRight (pieces : List (Piece target)) : Prop :=
  (pieces.flatMap pieceText).length ≤ bufferLength pieces ∧
    Settles (fun fuel => formatString fuel pieces) (pieces.flatMap pieceText)

theorem bufferLength_eq (pieces : List (Piece target)) :
    bufferLength pieces = (pieces.map estimate).sum % 2 ^ 32 := by
  have hfold : ∀ length : Nat,
      pieces.foldl (fun length piece => (length + estimate piece) % 2 ^ 32) (length % 2 ^ 32) =
        (length + (pieces.map estimate).sum) % 2 ^ 32 := by
    induction pieces with
    | nil => exact fun length => rfl
    | cons piece pieces ih =>
      intro length
      rw [List.foldl_cons, Nat.mod_add_mod, ih, List.map_cons, List.sum_cons, Nat.add_assoc]
  have h := hfold 0
  rwa [Nat.zero_mod, Nat.zero_add] at h

theorem formatString_spec {written : Piece target → List (BitVec 8)} (h : ∀ piece, Writes piece (written piece))
    (pieces : List (Piece target)) :
    ∃ m, ∀ fuel ≥ m, formatString fuel pieces =
      if (pieces.flatMap written).length ≤ bufferLength pieces then some (pieces.flatMap written)
      else none := by
  have hlt : bufferLength pieces < 2 ^ 32 := by
    rw [bufferLength_eq]
    exact Nat.mod_lt _ (by decide)
  obtain ⟨m, hm⟩ := writePieces_spec h pieces [] (bufferLength pieces)
  refine ⟨m, fun fuel hfuel => ?_⟩
  unfold formatString
  refine (congrArg (· >>= _) (hm fuel hfuel)).trans ?_
  by_cases hfits : (pieces.flatMap written).length ≤ bufferLength pieces
  · rw [if_pos hfits, if_pos hfits, List.nil_append, List.length_nil, Nat.zero_add]
    show some (List.take (_ % _) _) = _
    rw [Nat.mod_eq_of_lt (by omega), List.take_left]
  · rw [if_neg hfits, if_neg hfits]
    rfl

/-- What is written for the pieces is their texts if it has the length of their texts. -/
theorem eq_of_length_flatMap {written : Piece target → List (BitVec 8)}
    (h : ∀ piece, Written (Prints piece) (pieceText piece) (written piece)) {pieces : List (Piece target)}
    (hlen : (pieces.flatMap written).length = (pieces.flatMap pieceText).length) :
    ∀ piece ∈ pieces, written piece = pieceText piece := by
  have hle : ∀ l : List (Piece target), (l.flatMap written).length ≤ (l.flatMap pieceText).length := by
    intro l
    induction l with
    | nil => exact le_rfl
    | cons piece l ih =>
      rw [List.flatMap_cons, List.flatMap_cons, List.length_append, List.length_append]
      exact Nat.add_le_add (h piece).le ih
  induction pieces with
  | nil => nofun
  | cons piece pieces ih =>
    rw [List.flatMap_cons, List.flatMap_cons, List.length_append, List.length_append] at hlen
    have hpiece := (h piece).le
    have hpieces := hle pieces
    refine List.forall_mem_cons.mpr ⟨(h piece).eq_of_length (by omega), ih (by omega)⟩

theorem sum_length_pieceText (pieces : List (Piece target)) :
    (pieces.flatMap pieceText).length + (pieces.map spare).sum =
      (pieces.map estimate).sum + (pieces.map short).sum := by
  induction pieces with
  | nil => rfl
  | cons piece pieces ih =>
    have hpiece := length_pieceText piece
    rw [List.flatMap_cons, List.length_append]
    simp only [List.map_cons, List.sum_cons]
    omega

/-- A string is right if each piece is printed right, and if the pieces leave over what the enums and
the sum of the lengths, which is a `uint32_t`, are short of. -/
theorem formatString_right_iff (pieces : List (Piece target)) :
    FormatsRight pieces ↔ (∀ piece ∈ pieces, Prints piece) ∧
      (pieces.map short).sum + 2 ^ 32 * ((pieces.map estimate).sum / 2 ^ 32) ≤ (pieces.map spare).sum := by
  choose written hwrites hwritten using @exists_writes target
  obtain ⟨m, hm⟩ := formatString_spec hwrites pieces
  have hsum := sum_length_pieceText pieces
  have hfits : (pieces.flatMap pieceText).length ≤ bufferLength pieces ↔
      (pieces.map short).sum + 2 ^ 32 * ((pieces.map estimate).sum / 2 ^ 32) ≤ (pieces.map spare).sum := by
    rw [bufferLength_eq]
    omega
  rw [← hfits]
  constructor
  · rintro ⟨hle, n, hn⟩
    refine ⟨fun piece hpiece => ?_, hle⟩
    have hrun := (hm (max m n) (le_max_left m n)).symm.trans (hn (max m n) (le_max_right m n))
    split at hrun
    · have hlength := congrArg List.length (Option.some.inj hrun)
      exact (hwritten piece).eq_iff.mp (eq_of_length_flatMap hwritten hlength piece hpiece)
    · cases hrun
  · rintro ⟨hprints, hle⟩
    have htexts : pieces.flatMap written = pieces.flatMap pieceText :=
      List.flatMap_congr fun piece hpiece => (hwritten piece).eq_iff.mpr (hprints piece hpiece)
    refine ⟨hle, m, fun fuel hfuel => ?_⟩
    show formatString fuel pieces = _
    rw [hm fuel hfuel, htexts, if_pos hle]

/-- The value 100 of an enum has three digits, and there are two bytes for it. -/
theorem formatString_enum_overflows :
    (∀ fuel, formatString fuel [(.enum 100 : Piece .solana)] = none) ∧
      ¬ FormatsRight [(.enum 100 : Piece .solana)] := by
  refine ⟨fun fuel => ?_, fun h => absurd h.1 (by decide)⟩
  have htext := uint2dec_spec 100
  have hpiece : writePiece fuel [0, 0] 0 (.enum 100 : Piece .solana) = none := by
    show (uint2dec 100 >>= _) = _
    rw [htext]
    decide
  unfold formatString
  show (writePiece fuel [0, 0] 0 (.enum 100 : Piece .solana) >>= _) >>= _ = _
  rw [hpiece]
  rfl

end Solang.Emit.Strings
