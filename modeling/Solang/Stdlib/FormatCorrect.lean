import Solang.Lib.Positional
import Solang.Stdlib.BigIntDiv
import Solang.Stdlib.Format

/-!
# The numerals that are written

A text is the numeral of a number when it is read back as the number, with no zero that could be
left out. `uint2hex` and `uint128dec` write numerals. `uint2bin` writes no digit for zero. In
`uint256dec` the digits from the place `10 ^ 76` on are put next to the others without the zeros in
between.
-/

namespace Solang.Stdlib.Format

open Positional

/-! ## Texts -/

def digitChar (d : Nat) : Char := Char.ofNat (if 9 < d then d + 'a'.toNat - 10 else '0'.toNat + d)

def digitValue (c : Char) : Option Nat :=
  if '0' ≤ c ∧ c ≤ '9' then some (c.toNat - '0'.toNat)
  else if 'a' ≤ c ∧ c ≤ 'f' then some (c.toNat - 'a'.toNat + 10)
  else none

/-- The number that a text stands for in the base `b` -/
def parse (b : Nat) (text : List Char) : Option Nat :=
  text.foldlM (fun n c => do
    let d ← digitValue c
    if d < b then some (d + b * n) else none) 0

/-- The canonical numeral of a number -/
structure Canonical (b n : Nat) (text : List Char) : Prop where
  ne_nil : text ≠ []
  no_leading_zero : text.head? = some '0' → text = ['0']
  parses : parse b text = some n

/-- The text of digits that are given from the lowest -/
def textOf (digits : List Nat) : List Char := digits.reverse.map digitChar

theorem digitValue_digitChar : ∀ d < 16, digitValue (digitChar d) = some d := by decide

section Texts

variable {b n : Nat} {digits : List Nat}

theorem textOf_append (low high : List Nat) : textOf (low ++ high) = textOf high ++ textOf low := by
  unfold textOf
  rw [List.reverse_append, List.map_append]

theorem length_textOf (digits : List Nat) : (textOf digits).length = digits.length := by
  unfold textOf
  rw [List.length_map, List.length_reverse]

theorem parse_textOf (hb : b ≤ 16) (h : ∀ d ∈ digits, d < b) :
    parse b (textOf digits) = some (Nat.ofDigits b digits) := by
  induction digits with
  | nil => rfl
  | cons d digits ih =>
    have hd : d < b := h d List.mem_cons_self
    have htext : textOf (d :: digits) = textOf digits ++ [digitChar d] := textOf_append [d] digits
    have ih' := ih fun e he => h e (List.mem_cons_of_mem d he)
    unfold parse at ih' ⊢
    rw [htext, List.foldlM_append, ih', Nat.ofDigits_cons]
    simp [digitValue_digitChar d (Nat.lt_of_lt_of_le hd hb), hd]

theorem digitChar_eq_zero {d : Nat} (hd : d < 16) (h : digitChar d = '0') : d = 0 := by
  have hvalue := digitValue_digitChar d hd
  rw [h] at hvalue
  exact (Option.some.inj hvalue).symm

/-- Digits without a leading zero are written as a numeral. -/
theorem canonical_textOf (hb : b ≤ 16) (h : IsNumeral b n digits) : Canonical b n (textOf digits) := by
  constructor
  · unfold textOf
    simpa using h.ne_nil
  · intro hhead
    have hlast : (digits.getLast?).map digitChar = some '0' := by
      rw [← hhead]
      unfold textOf
      rw [List.head?_map, List.head?_reverse]
    obtain ⟨d, hd, hzero⟩ := Option.map_eq_some_iff.mp hlast
    have hlt : d < 16 := Nat.lt_of_lt_of_le (h.lt d (List.mem_of_getLast? hd)) hb
    rw [digitChar_eq_zero hlt hzero] at hd
    rw [h.highest hd]
    rfl
  · rw [parse_textOf hb h.lt, h.value]

theorem eq_digitChar {c : Char} {d : Nat} (h : digitValue c = some d) : c = digitChar d := by
  have hchar : ∀ k, k = c.toNat → c = Char.ofNat k := fun k hk => by rw [hk, Char.ofNat_toNat]
  unfold digitValue at h
  split at h
  next hdigit =>
    obtain rfl := Option.some.inj h
    have hlow : '0'.toNat ≤ c.toNat := hdigit.1
    have hhigh : c.toNat ≤ '9'.toNat := hdigit.2
    have h0 : '0'.toNat = 48 := rfl
    have h9 : '9'.toNat = 57 := rfl
    unfold digitChar
    rw [if_neg (by omega)]
    exact hchar _ (by omega)
  next =>
    split at h
    next hletter =>
      obtain rfl := Option.some.inj h
      have hlow : 'a'.toNat ≤ c.toNat := hletter.1
      unfold digitChar
      rw [if_pos (by omega)]
      exact hchar _ (by omega)
    next => cases h

/-- What is read is a text of digits. -/
theorem exists_textOf {text : List Char} (h : parse b text = some n) :
    ∃ digits, text = textOf digits ∧ (∀ d ∈ digits, d < b) ∧ Nat.ofDigits b digits = n := by
  induction text using List.reverseRecOn generalizing n with
  | nil =>
    cases h
    exact ⟨[], rfl, nofun, rfl⟩
  | append_singleton text c ih =>
    unfold parse at h
    rw [List.foldlM_append] at h
    obtain ⟨m, hm, hlast⟩ := Option.bind_eq_some_iff.mp h
    obtain ⟨digits, rfl, hlt, hvalue⟩ := ih hm
    simp only [List.foldlM_cons, List.foldlM_nil, Option.bind_eq_bind, Option.bind_eq_some_iff] at hlast
    obtain ⟨k, ⟨d, hd, hk⟩, hn⟩ := hlast
    split at hk
    next hdb =>
      obtain rfl := Option.some.inj hk
      obtain rfl := Option.some.inj hn
      refine ⟨d :: digits, ?_, ?_, ?_⟩
      · rw [eq_digitChar hd]
        exact (textOf_append [d] digits).symm
      · simpa using ⟨hdb, hlt⟩
      · rw [Nat.ofDigits_cons, hvalue]
    next => cases hk

/-- There is one canonical numeral. -/
theorem Canonical.eq_textOf {text : List Char} (hb : 1 < b) (h : Canonical b n text) :
    text = textOf (numeral b n) := by
  obtain ⟨digits, rfl, hlt, hvalue⟩ := exists_textOf h.parses
  refine congrArg textOf (IsNumeral.eq_numeral hb ⟨?_, hlt, fun hlast => ?_, hvalue⟩)
  · rintro rfl
    exact h.ne_nil rfl
  · have hhead : (textOf digits).head? = some '0' := by
      unfold textOf
      rw [List.head?_map, List.head?_reverse, hlast]
      rfl
    have hone := congrArg List.length (h.no_leading_zero hhead)
    obtain ⟨d, rfl⟩ := List.length_eq_one_iff.mp (show digits.length = 1 by simpa [textOf] using hone)
    cases hlast
    rfl

end Texts

/-! ## Hexadecimal and binary -/

/-- The number of a little-endian input -/
def value (input : List (BitVec 8)) : Nat := Nat.ofDigits 256 (input.map BitVec.toNat)

section Bytes

variable {input : List (BitVec 8)} {byte top : BitVec 8 → List Char} {f : Nat → List Nat}

theorem value_take_succ {length : Nat} (h : length < input.length) :
    value (input.take (length + 1)) = value (input.take length) + 256 ^ length * input[length].toNat := by
  unfold value
  rw [List.take_succ_eq_append_getElem h, List.map_append, Nat.ofDigits_append, List.length_map,
    List.length_take_of_le (Nat.le_of_lt h)]
  simp

/-- The bytes that are left out are zero. -/
theorem countBytes_spec (input : List (BitVec 8)) (length : Nat) (hle : length + 1 ≤ input.length) :
    ∃ count, ∃ h : count < input.length, countBytes input (length + 1) = some (count + 1) ∧
      value (input.take (length + 1)) = value (input.take (count + 1)) ∧ (count = 0 ∨ input[count] ≠ 0) := by
  induction length with
  | zero => exact ⟨0, hle, rfl, rfl, .inl rfl⟩
  | succ length ih =>
    unfold countBytes
    rw [List.getElem?_eq_getElem hle]
    by_cases hv : input[length + 1] = 0
    · obtain ⟨count, h, hcount, hvalue, hne⟩ := ih (Nat.le_of_succ_le hle)
      refine ⟨count, h, ?_, ?_, hne⟩
      · simpa [hv] using hcount
      · rw [value_take_succ hle, hv, ← hvalue]
        rfl
    · refine ⟨length + 1, hle, ?_, rfl, .inr hv⟩
      simpa using fun hzero => absurd hzero hv

theorem writeBytes_spec (hbyte : ∀ v, byte v = textOf (f v.toNat)) {length : Nat} (hle : length ≤ input.length) :
    writeBytes byte input length = some (textOf (((input.take length).map BitVec.toNat).flatMap f)) := by
  induction length with
  | zero => rfl
  | succ length ih =>
    unfold writeBytes
    rw [List.getElem?_eq_getElem hle, ih (Nat.le_of_succ_le hle), List.take_succ_eq_append_getElem hle,
      List.map_append, List.flatMap_append, textOf_append]
    simp [hbyte]

/-- A byte has `k` digits `f` in the base `b`, and the first one is written without leading zeros. -/
structure WritesBytes (b k : Nat) (top byte : BitVec 8 → List Char) (f : Nat → List Nat) : Prop where
  base : 1 < b ∧ b ≤ 16 ∧ b ^ k = 256
  length : ∀ d, (f d).length = k
  lt : ∀ d, ∀ e ∈ f d, e < b
  value : ∀ d < 256, Nat.ofDigits b (f d) = d
  byte : ∀ v, byte v = textOf (f v.toNat)
  top : ∀ v, v ≠ 0 → top v = textOf (numeral b v.toNat)

theorem value_eq_zero_of_top {count : Nat} (h : count < input.length) (hzero : input[count] = 0)
    (hcount : count = 0 ∨ input[count] ≠ 0) : count = 0 ∧ value (input.take (count + 1)) = 0 := by
  have hcount0 : count = 0 := hcount.resolve_right fun hne => hne hzero
  subst hcount0
  refine ⟨rfl, ?_⟩
  rw [value_take_succ h, hzero]
  rfl

/-- The text after the prefix -/
theorem writeNumber_spec {b k : Nat} (hw : WritesBytes b k top byte f) (base : Char) (hne : input ≠ []) :
    ∃ text, writeNumber base top byte input input.length = some ('0' :: base :: text) ∧
      (value input ≠ 0 → Canonical b (value input) text) ∧ (value input = 0 → text = top 0) := by
  obtain ⟨hb, hb16, hpow⟩ := hw.base
  obtain ⟨length, hlength⟩ := Nat.exists_eq_add_one_of_ne_zero (List.length_pos_iff.mpr hne).ne'
  obtain ⟨count, h, hcount, hvalue, htop⟩ := countBytes_spec input length (by omega)
  rw [← hlength, List.take_length] at hvalue
  have hbytes : ∀ d ∈ (input.take count).map BitVec.toNat, d < 256 := by
    intro d hd
    obtain ⟨v, -, rfl⟩ := List.mem_map.mp hd
    exact v.isLt
  refine ⟨top input[count] ++ textOf (((input.take count).map BitVec.toNat).flatMap f), ?_, ?_, ?_⟩
  · unfold writeNumber
    rw [hlength, hcount]
    simp [List.getElem?_eq_getElem h, writeBytes_spec hw.byte (Nat.le_of_lt h)]
  · intro hnz
    have hv : input[count] ≠ 0 := fun hzero => hnz (hvalue.trans (value_eq_zero_of_top h hzero htop).2)
    have hlen : (((input.take count).map BitVec.toNat).flatMap f).length = k * count := by
      simp only [List.length_flatMap, hw.length, List.map_const', List.sum_replicate_nat, List.length_map,
        List.length_take_of_le (Nat.le_of_lt h), Nat.mul_comm]
    have hnum := (numeral_isNumeral hb input[count].toNat).append
      (fun h0 => hv (BitVec.eq_of_toNat_eq h0)) (((input.take count).map BitVec.toNat).flatMap f) fun d hd => by
        obtain ⟨e, -, hd⟩ := List.mem_flatMap.mp hd
        exact hw.lt e d hd
    rw [ofDigits_flatMap (k := k) (fun d _ => hw.length d) (fun d hd => hw.value d (hbytes d hd)), hlen,
      Nat.pow_mul, hpow] at hnum
    rw [hvalue, value_take_succ h, hw.top _ hv, ← textOf_append]
    exact canonical_textOf hb16 hnum
  · intro hzero
    have hv : input[count] = 0 := by
      rw [hvalue, value_take_succ h] at hzero
      have hmul := (Nat.add_eq_zero_iff.mp hzero).2
      have hpos : 256 ^ count ≠ 0 := Nat.pos_iff_ne_zero.mp (Nat.pow_pos (by decide))
      exact BitVec.eq_of_toNat_eq ((Nat.mul_eq_zero.mp hmul).resolve_left hpos)
    obtain ⟨hcount0, -⟩ := value_eq_zero_of_top h hv htop
    subst hcount0
    rw [hv]
    simp [textOf]

end Bytes

def hexDigits (d : Nat) : List Nat := [d % 16, d / 16 % 16]

def binDigits (d : Nat) : List Nat := (List.range 8).map fun i => d / 2 ^ i % 2

theorem highBit_iff : ∀ v : BitVec 8, v &&& 0x80 ≠ 0 ↔ v.toNat / 2 ^ 7 % 2 = 1 := by decide +kernel

/-- The highest `i` bits of a byte -/
theorem writeBits_eq {i : Nat} (hi : i ≤ 8) (v : BitVec 8) :
    writeBits i v = textOf ((List.range i).map fun j => v.toNat / 2 ^ (8 - i + j) % 2) := by
  induction i generalizing v with
  | zero => rfl
  | succ i ih =>
    have hlow : (List.range i).map (fun j => (v <<< 1).toNat / 2 ^ (8 - i + j) % 2) =
        (List.range i).map fun j => v.toNat / 2 ^ (8 - (i + 1) + j) % 2 := by
      refine List.map_congr_left fun j hj => ?_
      have hj : j < i := List.mem_range.mp hj
      obtain ⟨e, he⟩ : ∃ e, 8 - (i + 1) + j = e := ⟨_, rfl⟩
      rw [show 8 - i + j = e + 1 by omega, he, ← Nat.toNat_testBit, ← Nat.toNat_testBit, BitVec.testBit_toNat,
        BitVec.testBit_toNat, BitVec.getLsbD_shiftLeft]
      simp [show e + 1 < 8 by omega]
    rw [writeBits, ih (by omega), hlow, List.range_succ, List.map_append, textOf_append, List.map_singleton,
      show 8 - (i + 1) + i = 7 by omega]
    simp only [highBit_iff]
    rcases Nat.mod_two_eq_zero_or_one (v.toNat / 2 ^ 7) with h | h <;> rw [h] <;> rfl

theorem hex_writes : WritesBytes 16 2 hexTop hexByte hexDigits where
  base := by decide
  length _ := rfl
  lt d e he := by
    simp only [hexDigits, List.mem_cons, List.not_mem_nil, or_false] at he
    omega
  value d hd := by
    simp only [hexDigits, Nat.ofDigits_cons, Nat.ofDigits_nil]
    omega
  byte := by decide +kernel
  top := by decide +kernel

theorem bin_writes : WritesBytes 2 8 binTop (writeBits 8) binDigits where
  base := by decide
  length _ := rfl
  lt d e he := by
    obtain ⟨i, -, rfl⟩ := List.mem_map.mp he
    exact Nat.mod_lt _ (by decide)
  value d hd := by
    simp only [binDigits, List.range, List.range.loop, List.map_cons, List.map_nil, Nat.ofDigits_cons, Nat.ofDigits_nil]
    omega
  byte v := by
    rw [writeBits_eq (Nat.le_refl 8), binDigits]
    simp only [Nat.sub_self, Nat.zero_add]
  top := by decide +kernel

/-- Nothing is written after the prefix for zero. -/
theorem uint2bin_zero : uint2bin [0] 1 = some ['0', 'b'] ∧ ¬ Canonical 2 (value [0]) [] :=
  ⟨by decide, fun h => h.ne_nil rfl⟩

theorem uint2hex_uint2bin_numerals (input : List (BitVec 8)) (hne : input ≠ []) :
    (∃ text, uint2hex input input.length = some ('0' :: 'x' :: text) ∧ Canonical 16 (value input) text) ∧
    (∃ text, uint2bin input input.length = some ('0' :: 'b' :: text) ∧
      (Canonical 2 (value input) text ↔ value input ≠ 0)) := by
  constructor
  · obtain ⟨text, htext, hcanonical, hzero⟩ := writeNumber_spec hex_writes 'x' hne
    refine ⟨text, htext, ?_⟩
    by_cases h0 : value input = 0
    · rw [h0, hzero h0]
      have hnum : IsNumeral 16 0 [0] := numeral_isNumeral (by decide) 0
      exact canonical_textOf (by decide) hnum
    · exact hcanonical h0
  · obtain ⟨text, htext, hcanonical, hzero⟩ := writeNumber_spec bin_writes 'b' hne
    refine ⟨text, htext, fun h h0 => h.ne_nil ?_, hcanonical⟩
    rw [hzero h0]
    decide

theorem uint2hex_uint2bin_numerals_ten :
    (∃ text, uint2hex [0x10, 0] 2 = some ('0' :: 'x' :: text) ∧ Canonical 16 (value [0x10, 0]) text) ∧
    (∃ text, uint2bin [0x10, 0] 2 = some ('0' :: 'b' :: text) ∧
      (Canonical 2 (value [0x10, 0]) text ↔ value [0x10, 0] ≠ 0)) :=
  uint2hex_uint2bin_numerals [0x10, 0] (by decide)

/-! ## Decimal -/

/-- The digits in a buffer -/
def digitsOf (buf : List (BitVec 8)) : List Nat := buf.map BitVec.toNat

theorem length_digitsOf (buf : List (BitVec 8)) : (digitsOf buf).length = buf.length := List.length_map _

section Buffer

variable {size len : Nat} {buf : List (BitVec 8)}

theorem push_spec {digit : BitVec 8} (h : buf.length < size) : push size buf digit = some (buf ++ [digit]) := by
  unfold push
  rw [if_pos h]

theorem pushDigits_spec (size : Nat) (buf : List (BitVec 8)) (val : BitVec 64) (h : buf.length + (numeral 10 val.toNat).length ≤ size) :
    ∃ buf', pushDigits size buf val = some buf' ∧ digitsOf buf' = digitsOf buf ++ numeral 10 val.toNat := by
  induction hn : val.toNat using Nat.strong_induction_on generalizing buf val with
  | _ n ih =>
    subst hn
    have hten : (10 : BitVec 64).toNat = 10 := rfl
    have hdiv : (val / 10).toNat = val.toNat / 10 := by rw [BitVec.toNat_udiv, hten]
    have hmod : ((val % 10).setWidth 8).toNat = val.toNat % 10 := by
      rw [BitVec.toNat_setWidth, BitVec.toNat_umod, hten]
      omega
    rw [numeral_step (by decide)] at h ⊢
    have hpush : push size buf ((val % 10).setWidth 8) = some (buf ++ [(val % 10).setWidth 8]) := by
      refine push_spec ?_
      rw [List.length_cons] at h
      omega
    have hdigits : digitsOf (buf ++ [(val % 10).setWidth 8]) = digitsOf buf ++ [val.toNat % 10] := by
      unfold digitsOf
      rw [List.map_append, List.map_singleton, hmod]
    unfold pushDigits
    rw [hpush]
    by_cases hzero : val / 10 = 0
    · have h0 : val.toNat / 10 = 0 := by rw [← hdiv, hzero]; rfl
      refine ⟨buf ++ [(val % 10).setWidth 8], if_pos hzero, ?_⟩
      rw [if_pos h0, hdigits]
    · have h0 : val.toNat / 10 ≠ 0 := fun h0 => hzero (BitVec.eq_of_toNat_eq (by rw [hdiv, h0]; rfl))
      rw [if_neg h0] at h ⊢
      obtain ⟨buf', hbuf', heq⟩ := ih (val / 10).toNat (by omega) (buf ++ [(val % 10).setWidth 8])
        (val / 10) (by
          rw [hdiv, List.length_append, List.length_singleton]
          rw [List.length_cons] at h
          omega) rfl
      refine ⟨buf', ?_, ?_⟩
      · show (if val / 10 = 0 then _ else _) = _
        rw [if_neg hzero]
        exact hbuf'
      · rw [heq, hdigits, hdiv, List.append_assoc]
        rfl

theorem pad_spec (buf : List (BitVec 8)) (h : len ≤ size) :
    ∃ buf', pad size len buf = some buf' ∧ digitsOf buf' = digitsOf buf ++ List.replicate (len - buf.length) 0 := by
  have hpushes : ∀ n, buf.length + n ≤ size ∨ n = 0 →
      (List.range n).foldlM (fun buf _ => push size buf 0) buf = some (buf ++ List.replicate n 0) := by
    intro n
    induction n with
    | zero => simp
    | succ n ih =>
      intro hn
      rw [List.range_succ, List.foldlM_append, ih (.inl (by omega))]
      have hpush : push size (buf ++ List.replicate n 0) 0 = some (buf ++ List.replicate n 0 ++ [0]) := by
        refine push_spec ?_
        rw [List.length_append, List.length_replicate]
        omega
      rw [List.replicate_succ', ← List.append_assoc]
      simpa using hpush
  refine ⟨buf ++ List.replicate (len - buf.length) 0, hpushes _ (by omega), ?_⟩
  unfold digitsOf
  rw [List.map_append, List.map_replicate]
  rfl

theorem copyOut_eq (h : ∀ d ∈ digitsOf buf, d < 10) : copyOut buf = textOf (digitsOf buf) := by
  unfold copyOut textOf digitsOf
  rw [← List.map_reverse, List.map_map]
  refine List.map_congr_left fun v hv => ?_
  have hlt : v.toNat < 10 := h v.toNat (List.mem_map.mpr ⟨v, List.mem_reverse.mp hv, rfl⟩)
  simp only [Function.comp_apply, digitChar]
  rw [if_neg (by omega), Nat.add_comm]

end Buffer

/-! ### Groups of 19 digits -/

/-- The buffer has the numeral of `n`, of at most `len` digits. -/
structure Written (n len : Nat) (buf : List (BitVec 8)) : Prop where
  numeral : IsNumeral 10 n (digitsOf buf)
  length : buf.length ≤ len

theorem Written.canonical {n len : Nat} {buf : List (BitVec 8)} (h : Written n len buf) :
    Canonical 10 n (copyOut buf) ∧ (copyOut buf).length ≤ len := by
  rw [copyOut_eq h.numeral.lt]
  refine ⟨canonical_textOf (by decide) h.numeral, ?_⟩
  rw [length_textOf, length_digitsOf]
  exact h.length

theorem toNat_divisor_128 : (divisor : BitVec 128).toNat = 10 ^ 19 := by decide

theorem toNat_divisor_256 : (divisor : BitVec 256).toNat = 10 ^ 19 := by decide

section Groups

variable {n len k size : Nat} {buf : List (BitVec 8)} {val : BitVec 64}

/-- A group above those that are in the buffer -/
theorem pad_pushDigits_spec (hle : buf.length ≤ len) (hval : (numeral 10 val.toNat).length ≤ k)
    (hsize : len + k ≤ size) :
    ∃ buf', (pad size len buf >>= fun buf => pushDigits size buf val) = some buf' ∧
      digitsOf buf' = digitsOf buf ++ List.replicate (len - buf.length) 0 ++ numeral 10 val.toNat := by
  obtain ⟨padded, hpad, hpadded⟩ := pad_spec buf (show len ≤ size by omega)
  have hlen : padded.length = len := by
    rw [← length_digitsOf, hpadded, List.length_append, List.length_replicate, length_digitsOf]
    omega
  obtain ⟨buf', hbuf', heq⟩ := pushDigits_spec size padded val (by omega)
  refine ⟨buf', ?_, ?_⟩
  · rw [hpad]
    exact hbuf'
  · rw [heq, hpadded]

theorem Written.nextGroup (h : Written n len buf) (val : BitVec 64) (k : Nat) (hval : (Positional.numeral 10 val.toNat).length ≤ k)
    (hsize : len + k ≤ 40) :
    ∃ buf', nextGroup len buf val = some buf' ∧ Written (n + 10 ^ len * val.toNat) (len + k) buf' := by
  unfold Format.nextGroup
  by_cases hzero : val = 0
  · refine ⟨buf, if_pos hzero, ?_, Nat.le_add_right_of_le h.length⟩
    rw [hzero]
    exact h.numeral
  · obtain ⟨buf', hbuf', hdigits⟩ := pad_pushDigits_spec h.length hval hsize
    have hlen : (digitsOf buf ++ List.replicate (len - buf.length) 0).length = len := by
      rw [List.length_append, List.length_replicate, length_digitsOf, Nat.add_sub_cancel' h.length]
    refine ⟨buf', (if_neg hzero).trans hbuf', ?_, ?_⟩
    · have hne : val.toNat ≠ 0 := fun h0 => hzero (BitVec.eq_of_toNat_eq h0)
      have happend := (numeral_isNumeral (b := 10) (by decide) val.toNat).append hne
        (digitsOf buf ++ List.replicate (len - buf.length) 0) fun d hd => by
          rcases List.mem_append.mp hd with hd | hd
          · exact h.numeral.lt d hd
          · rw [List.eq_of_mem_replicate hd]
            decide
      rw [ofDigits_append_zeros, h.numeral.value, hlen] at happend
      rw [hdigits]
      exact happend
    · rw [← length_digitsOf, hdigits, List.length_append, hlen]
      omega

theorem first_written (size k : Nat) (val : BitVec 64) (hval : (Positional.numeral 10 val.toNat).length ≤ k) (hsize : k ≤ size) :
    ∃ buf, pushDigits size [] val = some buf ∧ Written val.toNat k buf := by
  obtain ⟨buf, hbuf, hdigits⟩ := pushDigits_spec size [] val (by
    rw [List.length_nil]
    omega)
  refine ⟨buf, hbuf, ?_, ?_⟩
  · rw [hdigits]
    exact numeral_isNumeral (by decide) _
  · rw [← length_digitsOf, hdigits]
    exact hval

/-- The remainders have 19 digits. -/
theorem remainder_group {w : Nat} (q : BitVec w) (hw : (divisor : BitVec w).toNat = 10 ^ 19) :
    ((q % divisor).setWidth 64).toNat = q.toNat % 10 ^ 19 := by
  rw [BitVec.toNat_setWidth, BitVec.toNat_umod, hw]
  refine Nat.mod_eq_of_lt (Nat.lt_trans (Nat.mod_lt _ (by decide)) (by decide))

theorem numeral_remainder_length (m : Nat) : (Positional.numeral 10 (m % 10 ^ 19)).length ≤ 19 :=
  numeral_length_le (by decide) (by decide) (Nat.mod_lt _ (by decide))

theorem uint128dec_spec (val128 : BitVec 128) :
    ∃ text, uint128dec val128 = some text ∧ Canonical 10 val128.toNat text ∧ text.length ≤ 39 := by
  have hdivmod : ∀ q : BitVec 128, BigInt.udivmod128 q divisor = some ⟨q % divisor, q / divisor⟩ :=
    fun q => (BigInt.udivmod128_returns q divisor).eq_some (by decide)
  have hlt := val128.isLt
  have hq : (val128 / divisor).toNat = val128.toNat / 10 ^ 19 := by
    rw [BitVec.toNat_udiv, toNat_divisor_128]
  have hq2 : ((val128 / divisor / divisor).setWidth 64).toNat = val128.toNat / 10 ^ 19 / 10 ^ 19 := by
    rw [BitVec.toNat_setWidth, BitVec.toNat_udiv, hq, toNat_divisor_128]
    omega
  have hr1 := remainder_group val128 toNat_divisor_128
  have hr2 := remainder_group (val128 / divisor) toNat_divisor_128
  rw [hq] at hr2
  obtain ⟨buf1, hbuf1, hw1⟩ := first_written 40 19 ((val128 % divisor).setWidth 64)
    (by rw [hr1]; exact numeral_remainder_length _) (by decide)
  obtain ⟨buf2, hbuf2, hw2⟩ := hw1.nextGroup ((val128 / divisor % divisor).setWidth 64) 19
    (by rw [hr2]; exact numeral_remainder_length _) (by decide)
  obtain ⟨buf3, hbuf3, hw3⟩ := hw2.nextGroup ((val128 / divisor / divisor).setWidth 64) 1
    (by rw [hq2]; exact numeral_length_le (by decide) (by decide) (by omega)) (by decide)
  have hsum : val128.toNat = val128.toNat % 10 ^ 19 + 10 ^ 19 * (val128.toNat / 10 ^ 19 % 10 ^ 19) +
      10 ^ (19 + 19) * (val128.toNat / 10 ^ 19 / 10 ^ 19) := by omega
  rw [hr1, hr2, hq2, ← hsum] at hw3
  refine ⟨copyOut buf3, ?_, hw3.canonical⟩
  unfold uint128dec
  rw [hdivmod val128]
  show (pushDigits 40 [] _ >>= _) = _
  rw [hbuf1]
  show (BigInt.udivmod128 _ _ >>= _) = _
  rw [hdivmod]
  show (Format.nextGroup 19 _ _ >>= _) = _
  rw [hbuf2]
  show (Format.nextGroup 38 _ _ >>= _) = _
  rw [hbuf3]
  rfl

/-- The digits below the place `10 ^ k` are in the buffer, and the rest of the number is `q`. -/
structure Low (n k : Nat) (q : BitVec 256) (buf : List (BitVec 8)) : Prop where
  eq : Nat.ofDigits 10 (digitsOf buf) + 10 ^ k * q.toNat = n
  lt : ∀ d ∈ digitsOf buf, d < 10
  length : buf.length ≤ k
  /-- The zeros above the last group are missing. -/
  last : k = 0 ∨ ∃ j, k = j + 19 ∧ buf.length = j + (Positional.numeral 10 (n / 10 ^ j % 10 ^ 19)).length

theorem Low.quotient {q : BitVec 256} (h : Low n k q buf) : n / 10 ^ k = q.toNat := by
  have hlow : Nat.ofDigits 10 (digitsOf buf) < 10 ^ k := by
    refine Nat.lt_of_lt_of_le (Nat.ofDigits_lt_base_pow_length (by decide) h.lt) ?_
    rw [length_digitsOf]
    exact Nat.pow_le_pow_right (by decide) h.length
  rw [← h.eq, Nat.add_mul_div_left _ _ (Nat.pow_pos (by decide)), Nat.div_eq_of_lt hlow, Nat.zero_add]

/-- An iteration: the number is complete, or `q` is what is left of it. -/
theorem Low.step {q : BitVec 256} (h : Low n k q buf) (hq : q ≠ 0 ∨ k = 0) (hk : k + 19 ≤ 80) :
    ∃ buf', (pad 80 k buf >>= fun buf => pushDigits 80 buf ((q % divisor).setWidth 64)) = some buf' ∧
      Low n (k + 19) (q / divisor) buf' ∧ (q / divisor = 0 → Written n (k + 19) buf') := by
  have hr := remainder_group q toNat_divisor_256
  have hdiv : (q / divisor).toNat = q.toNat / 10 ^ 19 := by
    rw [BitVec.toNat_udiv, toNat_divisor_256]
  have hrlen := numeral_remainder_length q.toNat
  rw [← hr] at hrlen
  obtain ⟨buf', hbuf', hdigits⟩ := pad_pushDigits_spec h.length hrlen hk
  rw [hr] at hdigits hrlen
  have hlow : (digitsOf buf ++ List.replicate (k - buf.length) 0).length = k := by
    rw [List.length_append, List.length_replicate, length_digitsOf, Nat.add_sub_cancel' h.length]
  have hlt : ∀ d ∈ digitsOf buf ++ List.replicate (k - buf.length) 0, d < 10 := by
    intro d hd
    rcases List.mem_append.mp hd with hd | hd
    · exact h.lt d hd
    · rw [List.eq_of_mem_replicate hd]
      decide
  have hnum := numeral_isNumeral (b := 10) (by decide) (q.toNat % 10 ^ 19)
  have hlength : buf'.length = k + (Positional.numeral 10 (q.toNat % 10 ^ 19)).length := by
    rw [← length_digitsOf, hdigits, List.length_append, hlow]
  refine ⟨buf', hbuf', ⟨?_, ?_, by omega, .inr ⟨k, rfl, ?_⟩⟩, fun hzero => ⟨?_, by omega⟩⟩
  · rw [hdigits, Nat.ofDigits_append, ofDigits_append_zeros, hlow, hnum.value, hdiv, ← h.eq, Nat.pow_add,
      Nat.mul_assoc, Nat.add_assoc, ← Nat.mul_add, Nat.mod_add_div]
  · rw [hdigits]
    intro d hd
    exact (List.mem_append.mp hd).elim (hlt d) (hnum.lt d)
  · rw [h.quotient, hlength]
  · have hsmall : q.toNat % 10 ^ 19 = q.toNat := by
      rw [hzero] at hdiv
      have h0 : q.toNat / 10 ^ 19 = 0 := hdiv.symm
      exact Nat.mod_eq_of_lt ((Nat.div_eq_zero_iff.mp h0).resolve_left (by decide))
    rw [hdigits]
    rw [hsmall] at hnum ⊢
    by_cases hne : q = 0
    · -- the number is zero
      have hk0 : k = 0 := hq.resolve_left fun hq => hq hne
      have hbuf : buf = [] := List.eq_nil_of_length_eq_zero (by have := h.length; omega)
      have hn : n = q.toNat := by
        rw [← h.eq, hk0, hbuf]
        show 0 + _ = _
        rw [Nat.pow_zero, Nat.one_mul, Nat.zero_add]
      rw [hk0, hbuf, hn]
      exact hnum
    · have happend := hnum.append (fun h0 => hne (BitVec.eq_of_toNat_eq h0)) _ hlt
      rw [ofDigits_append_zeros, hlow, h.eq] at happend
      exact happend

theorem groups_spec {q : BitVec 256} (m : Nat) (h : Low n k q buf) (hq : q ≠ 0 ∨ k = 0 ∧ 0 < m)
    (hk : k + 19 * m ≤ 80) :
    ∃ q' buf', Fuel.Settles (fun fuel => groups fuel (List.range' k m 19) q buf) (q', buf') ∧
      (q' = 0 ∧ Written n (k + 19 * m) buf' ∨ q' ≠ 0 ∧ Low n (k + 19 * m) q' buf') := by
  induction m generalizing k q buf with
  | zero => exact ⟨q, buf, Fuel.settles_const _, .inr ⟨hq.resolve_right fun h => absurd h.2 (by decide), h⟩⟩
  | succ m ih =>
    obtain ⟨buf', hbuf', hnext, hdone⟩ := h.step (hq.imp_right And.left) (by omega)
    have hdivmod : Fuel.Settles (fun fuel => BigInt.udivmod256 fuel q divisor) (some ⟨q % divisor, q / divisor⟩) := by
      obtain ⟨o, ho, hreturns⟩ := BigInt.udivmodWide_returns (fun _ => BigInt.bits256_eq_log2) q divisor
      rwa [hreturns.eq_some (by decide)] at ho
    -- the iteration with the result of the division
    have hiter : ∀ x, Fuel.Settles (fun fuel => if q / divisor = 0 then some (q / divisor, buf')
        else groups fuel (List.range' (k + 19) m 19) (q / divisor) buf') x →
        Fuel.Settles (fun fuel => groups fuel (List.range' k (m + 1) 19) q buf) x := by
      intro x hx
      refine (hdivmod.bind (g := fun fuel o => o >>= fun d =>
        pad 80 k buf >>= fun buf => pushDigits 80 buf (d.remainder.setWidth 64) >>= fun buf =>
          if d.quotient = 0 then some (d.quotient, buf)
          else groups fuel (List.range' (k + 19) m 19) d.quotient buf) ?_)
      show Fuel.Settles (fun fuel => pad 80 k buf >>= fun buf => pushDigits 80 buf _ >>= _) x
      simp only [← bind_assoc, hbuf']
      exact hx
    by_cases hzero : q / divisor = 0
    · refine ⟨q / divisor, buf', hiter _ ?_, .inl ⟨hzero, (hdone hzero).numeral, ?_⟩⟩
      · simp only [if_pos hzero]
        exact Fuel.settles_const _
      · have := (hdone hzero).length
        omega
    · obtain ⟨q', buf'', hsettles, hresult⟩ := ih hnext (.inl hzero) (by omega)
      refine ⟨q', buf'', hiter _ ?_, ?_⟩
      · simp only [if_neg hzero]
        exact hsettles
      · rw [show k + 19 * (m + 1) = k + 19 + 19 * m by omega]
        exact hresult

end Groups

/-- The digits that are missing in the buffer are digits of the number. -/
theorem Low.numeral_length {n k : Nat} {q : BitVec 256} {buf : List (BitVec 8)} (h : Low n k q buf)
    (hq : q ≠ 0) : (numeral 10 n).length = k + (numeral 10 q.toNat).length := by
  have hnum := numeral_isNumeral (b := 10) (by decide) q.toNat
  have hlow : (digitsOf buf ++ List.replicate (k - buf.length) 0).length = k := by
    rw [List.length_append, List.length_replicate, length_digitsOf, Nat.add_sub_cancel' h.length]
  have happend := hnum.append (fun h0 => hq (BitVec.eq_of_toNat_eq h0))
    (digitsOf buf ++ List.replicate (k - buf.length) 0) (by
      intro d hd
      rcases List.mem_append.mp hd with hd | hd
      · exact h.lt d hd
      · rw [List.eq_of_mem_replicate hd]
        decide)
  rw [ofDigits_append_zeros, hlow, h.eq] at happend
  rw [← happend.eq_numeral (by decide), List.length_append, hlow]

/-- The digits above the place `10 ^ 76` -/
theorem Low.pushDigits {n : Nat} {q : BitVec 256} {buf : List (BitVec 8)} (h : Low n 76 q buf) (hq : q ≠ 0)
    (hn : n < 2 ^ 256) :
    ∃ buf', Format.pushDigits 80 buf (q.setWidth 64) = some buf' ∧ (q.setWidth 64 : BitVec 64) ≠ 0 ∧
      (copyOut buf').length ≤ 78 ∧ (Canonical 10 n (copyOut buf') ↔ 10 ^ 18 ≤ n / 10 ^ 57 % 10 ^ 19) ∧
      (copyOut buf').length ≤ (numeral 10 n).length ∧
      ((copyOut buf').length = (numeral 10 n).length → Canonical 10 n (copyOut buf')) := by
  have hq0 : q.toNat ≠ 0 := fun h0 => hq (BitVec.eq_of_toNat_eq h0)
  have hlen := h.length
  have hq12 : q.toNat < 12 := by
    have := h.eq
    omega
  have hval : (q.setWidth 64 : BitVec 64).toNat = q.toNat := by
    rw [BitVec.toNat_setWidth]
    omega
  have hqlen : (numeral 10 q.toNat).length ≤ 2 := numeral_length_le (by decide) (by decide) (by omega)
  obtain ⟨buf', hbuf', hdigits⟩ := pushDigits_spec 80 buf (q.setWidth 64) (by
    rw [hval]
    omega)
  rw [hval] at hdigits
  have hnum := numeral_isNumeral (b := 10) (by decide) q.toNat
  have hlt : ∀ d ∈ digitsOf buf', d < 10 := by
    rw [hdigits]
    intro d hd
    exact (List.mem_append.mp hd).elim (h.lt d) (hnum.lt d)
  have hlength : (copyOut buf').length = buf.length + (numeral 10 q.toNat).length := by
    rw [copyOut_eq hlt, length_textOf, hdigits, List.length_append, length_digitsOf]
  -- the number that is printed has `q` above the digits that are there
  have hprinted : Nat.ofDigits 10 (digitsOf buf') = Nat.ofDigits 10 (digitsOf buf) + 10 ^ buf.length * q.toNat := by
    rw [hdigits, Nat.ofDigits_append, length_digitsOf, hnum.value]
  have hcanonical : buf.length = 76 → Canonical 10 n (copyOut buf') := by
    intro hfull
    have happend := hnum.append hq0 _ h.lt
    rw [length_digitsOf, hfull, h.eq, ← hdigits] at happend
    rw [copyOut_eq hlt]
    exact canonical_textOf (by decide) happend
  refine ⟨buf', hbuf', fun h0 => hq0 ?_, by omega, ⟨?_, fun hlarge => hcanonical ?_⟩, ?_,
    fun heq => hcanonical ?_⟩
  · rw [← hval, h0]
    rfl
  · intro hcanonical
    have hparse := hcanonical.parses
    rw [copyOut_eq hlt, parse_textOf (by decide) hlt, hprinted, ← h.eq] at hparse
    have hpow : 10 ^ buf.length * q.toNat = 10 ^ 76 * q.toNat := Nat.add_left_cancel (Option.some.inj hparse)
    have hfull : buf.length = 76 :=
      Nat.pow_right_injective (show 2 ≤ 10 by decide) (Nat.eq_of_mul_eq_mul_right (Nat.pos_of_ne_zero hq0) hpow)
    by_contra hsmall
    have := numeral_length_le (b := 10) (k := 18) (by decide) (by decide) (Nat.not_le.mp hsmall)
    obtain ⟨j, hj, hlast⟩ := h.last.resolve_left (by decide)
    have hj57 : j = 57 := by omega
    rw [hj57] at hlast
    omega
  · have hle := le_numeral_length (b := 10) (by decide) hlarge
    obtain ⟨j, hj, hlast⟩ := h.last.resolve_left (by decide)
    have hj57 : j = 57 := by omega
    rw [hj57] at hlast
    omega
  · have := h.numeral_length hq
    omega
  · have := h.numeral_length hq
    omega

theorem uint256dec_spec (val256 : BitVec 256) :
    ∃ text, Fuel.Settles (fun fuel => uint256dec fuel val256) text ∧ text.length ≤ 78 ∧
      (Canonical 10 val256.toNat text ↔
        val256.toNat < 10 ^ 76 ∨ 10 ^ 18 ≤ val256.toNat / 10 ^ 57 % 10 ^ 19) ∧
      text.length ≤ (numeral 10 val256.toNat).length ∧
      (text.length = (numeral 10 val256.toNat).length → Canonical 10 val256.toNat text) := by
  have hstart : Low val256.toNat 0 val256 [] :=
    ⟨by simp [digitsOf], by simp [digitsOf], le_rfl, .inl rfl⟩
  obtain ⟨q, buf, ⟨m, hm⟩, hresult⟩ := groups_spec 4 hstart (.inr ⟨rfl, by decide⟩) (by decide)
  have hgroups : ∀ fuel ≥ m, groups fuel [0, 19, 38, 57] val256 [] = some (q, buf) := hm
  rcases hresult with ⟨hzero, hwritten⟩ | ⟨hne, hlow⟩
  · have hlt : val256.toNat < 10 ^ 76 := by
      refine Nat.lt_of_lt_of_le ?_ (Nat.pow_le_pow_right (by decide) hwritten.length)
      rw [← hwritten.numeral.value, ← length_digitsOf]
      exact Nat.ofDigits_lt_base_pow_length (by decide) hwritten.numeral.lt
    obtain ⟨hcanonical, hlen⟩ := hwritten.canonical
    have heq := congrArg List.length (hcanonical.eq_textOf (by decide))
    rw [length_textOf] at heq
    refine ⟨copyOut buf, ⟨m, fun fuel hfuel => ?_⟩, by omega, ⟨fun _ => .inl hlt, fun _ => hcanonical⟩, heq.le,
      fun _ => hcanonical⟩
    dsimp only
    unfold uint256dec
    rw [hgroups fuel hfuel, hzero]
    rfl
  · obtain ⟨buf', hbuf', hval, hlen, hcanonical, hshorter⟩ := hlow.pushDigits hne val256.isLt
    refine ⟨copyOut buf', ⟨m, fun fuel hfuel => ?_⟩, hlen, hcanonical.trans ?_, hshorter⟩
    · dsimp only
      unfold uint256dec
      rw [hgroups fuel hfuel]
      refine (if_neg hval).trans ?_
      rw [hbuf']
      rfl
    · refine (or_iff_right ?_).symm
      have heq := hlow.eq
      have hq0 : 0 < q.toNat := Nat.pos_of_ne_zero fun h0 => hne (BitVec.eq_of_toNat_eq h0)
      omega

/-- `10 ^ 76` is written without eighteen of its zeros. -/
theorem uint256dec_loses_zeros :
    ∃ text, Fuel.Settles (fun fuel => uint256dec fuel (BitVec.ofNat 256 (10 ^ 76))) text ∧
      ¬ Canonical 10 (10 ^ 76) text := by
  obtain ⟨text, htext, -, hcanonical, -⟩ := uint256dec_spec (BitVec.ofNat 256 (10 ^ 76))
  have hval : (BitVec.ofNat 256 (10 ^ 76)).toNat = 10 ^ 76 := by decide +kernel
  rw [hval] at hcanonical
  exact ⟨text, htext, fun h => absurd (hcanonical.mp h) (by decide +kernel)⟩

theorem uint128dec_uint256dec_numerals (val128 : BitVec 128) (val256 : BitVec 256) :
    (∃ text, uint128dec val128 = some text ∧ Canonical 10 val128.toNat text ∧ text.length ≤ 39) ∧
    (∃ text, Fuel.Settles (fun fuel => uint256dec fuel val256) text ∧ text.length ≤ 78 ∧
      (Canonical 10 val256.toNat text ↔
        val256.toNat < 10 ^ 76 ∨ 10 ^ 18 ≤ val256.toNat / 10 ^ 57 % 10 ^ 19)) := by
  obtain ⟨text, htext, hlen, hcanonical, -⟩ := uint256dec_spec val256
  exact ⟨uint128dec_spec val128, text, htext, hlen, hcanonical⟩

end Solang.Stdlib.Format
