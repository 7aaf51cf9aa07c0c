import Solang.Parser.LexerLoops
import Solang.Sema.Strings

/-!
# Number literals

`bigint_to_expression` of `sema/expression/integers.rs`, and `number_literal`,
`rational_number_literal` and `hex_number_literal` of `sema/expression/literals.rs`. The texts are
those of the parse tree, where the grammar has removed the underscores of decimal literals. A
result is `none` where the source panics, and an error is the diagnostic that is reported.
-/

namespace Solang.Sema.Literals

open Solang.Parser (Loc isAsciiDigit isAsciiHexdigit)
open Strings (toDigit)

/-- The types that literals are resolved to, and all that are no integers as `other`. A user type is
given by the type that it stands for. -/
inductive Ty where
  | int (bits : Nat)
  | uint (bits : Nat)
  | bytes (n : Nat)
  | address (payable : Bool)
  | value
  | unresolved
  | ref (ty : Ty)
  | storageRef (ty : Ty)
  | userType (ty : Ty)
  | other (no : Nat)
  deriving DecidableEq, Repr

def Ty.isInteger : Ty → Bool
  | .int _ => true
  | .uint _ => true
  | .value => true
  | .bytes n => n = 1
  | .ref ty => ty.isInteger
  | .storageRef ty => ty.isInteger
  | .userType ty => ty.isInteger
  | _ => false

inductive Target where
  | solana
  | polkadot
  | evm
  | soroban
  deriving DecidableEq, Repr

def Target.display : Target → String
  | .solana => "Solana"
  | .polkadot => "Polkadot"
  | .evm => "EVM"
  | .soroban => "Soroban"

/-- Names of types, and the hash function of a library -/
structure Namespace where
  target : Target
  typeName : Ty → String
  keccak256 : List UInt8 → List UInt8

inductive ResolveTo where
  | unknown
  | integer
  | discard
  | type (ty : Ty)
  deriving DecidableEq, Repr

inductive Expression where
  | numberLiteral (loc : Loc) (ty : Ty) (value : Int)
  | rationalNumberLiteral (loc : Loc) (value : Rat)

/-! ## Integers -/

/-- A negative number may be one larger than a positive one. -/
def bitsOf (n : Int) : Nat := if n < 0 then (n + 1).natAbs.size else n.natAbs.size

/-- The smallest type; hex literals with an odd length have as many bits as the number. -/
def intSize (bits : Nat) (hexStrLen : Option Nat) : Nat :=
  (match hexStrLen with
    | some v => if v % 2 = 0 then v * 4 else bits
    | none => if bits < 7 then 8 else (bits + 7) / 8 * 8) % 2 ^ 16

def bigintToExpression (loc : Loc) (n : Int) (ns : Namespace) (resolveTo : ResolveTo) (hexStrLen : Option Nat) :
    Except Strings.Diagnostic Expression :=
  let untyped : Except Strings.Diagnostic Expression :=
    let bits := bitsOf n
    if n < 0 then
      if bits > 255 then .error ⟨loc, toString n ++ " is too large"⟩
      else .ok (.numberLiteral loc (.int (intSize bits hexStrLen)) n)
    else if bits > 256 then .error ⟨loc, toString n ++ " is too large"⟩
    else .ok (.numberLiteral loc (.uint (intSize bits hexStrLen)) n)
  match resolveTo with
  | .type ty =>
    if ty = .unresolved then untyped
    else if ty.isInteger ∨ (ty matches .bytes _) ∧ n = 0 then .ok (.numberLiteral loc ty n)
    else .error ⟨loc, "expected '" ++ ns.typeName ty ++ "', found integer"⟩
  | _ => untyped

/-! ## Decimal numbers -/

/-- The number of these digits -/
def decimal (digits : Text) : Nat := digits.foldl (fun n ch => 10 * n + (ch.toNat - 48)) 0

def parseNat (text : Text) : Option Nat :=
  if text ≠ [] ∧ text.all isAsciiDigit then some (decimal text) else none

/-- `BigInt::from_str`, for texts without a plus sign or underscores -/
def parseBigInt : Text → Option Int
  | '-' :: text => (parseNat text).map fun n => -n
  | text => (parseNat text).map fun n => n

/-- `u8::from_str`, for texts without a plus sign -/
def parseU8 (text : Text) : Option Nat := (parseNat text).filter (· < 2 ^ 8)

/-- The number that is multiplied by the unit -/
def numberLiteral (loc : Loc) (integer exp : Text) (ns : Namespace) (unit : Int) (resolveTo : ResolveTo) :
    Option (Except Strings.Diagnostic Expression) :=
  if integer.head? = some '0' ∧ integer.size > 1 then
    some (.error ⟨loc, "leading zeros not permitted, can be confused with octal"⟩)
  else do
    let integer ← parseBigInt integer
    let tooLarge : Strings.Diagnostic := ⟨loc, "exponent '" ++ String.ofList exp ++ "' too large"⟩
    match exp with
    | [] => some (bigintToExpression loc (integer * unit) ns resolveTo none)
    | '-' :: absExp =>
      match parseU8 absExp with
      | some e =>
        let res := mkRat integer (10 ^ e)
        if res.isInt then some (bigintToExpression loc (res.num * unit) ns resolveTo none)
        else some (.ok (.rationalNumberLiteral loc res))
      | none => some (.error tooLarge)
    | exp =>
      match parseU8 exp with
      | some e => some (bigintToExpression loc (integer * 10 ^ e * unit) ns resolveTo none)
      | none => some (.error tooLarge)

/-- The digits of the integer and of the fraction as one number. Zeros at the start of the fraction
are skipped where there is no integer. -/
def parseDigits (integer fraction : Text) : Option Int :=
  if integer = [] ∨ integer = ['0'] then
    match fraction.findIdx? (· ≠ '0') with
    | some zeroIndex => (Text.drop zeroIndex fraction).bind parseBigInt
    | none => some 0
  else parseBigInt (integer ++ fraction)

def rationalNumberLiteral (loc : Loc) (integer fraction exp : Text) (unit : Int) (ns : Namespace)
    (resolveTo : ResolveTo) : Option (Except Strings.Diagnostic Expression) :=
  if (['-', '0'].isPrefixOf integer ∧ integer.size > 2) ∨ (integer.head? = some '0' ∧ integer.size > 1) then
    some (.error ⟨loc, "leading zeros not permitted, can be confused with octal"⟩)
  else
    let len := fraction.size % 2 ^ 32
    let expNegative := exp.head? = some '-'
    let denominator := 10 ^ len
    let finish (n : Rat) : Except Strings.Diagnostic Expression :=
      let res := n * unit
      if res.isInt then bigintToExpression loc res.num ns resolveTo none
      else .ok (.rationalNumberLiteral loc res)
    if exp = [] then do
      let n ← parseDigits integer fraction
      some (finish (mkRat n denominator))
    else
      match parseU8 (if expNegative then exp.tail else exp) with
      | none => some (.error ⟨loc, "exponent '" ++ String.ofList exp ++ "' too large"⟩)
      | some e => do
        let expResult := 10 ^ e
        let n ← parseDigits integer fraction
        if expNegative then some (finish (mkRat n (denominator * expResult)))
        else some (finish (mkRat (n * expResult) denominator))

/-! ## Hexadecimal numbers -/

/-- `char::to_ascii_lowercase` for hex digits -/
def lowercase (ch : Char) : Char := if 65 ≤ ch.toNat ∧ ch.toNat ≤ 70 then Char.ofNat (ch.toNat + 32) else ch

def uppercase (ch : Char) : Char := if 97 ≤ ch.toNat ∧ ch.toNat ≤ 102 then Char.ofNat (ch.toNat - 32) else ch

/-- A digit of an address: the nibble of the hash at its place says whether it is a capital. -/
def checksumDigit (hash : List UInt8) (i : Nat) (ch : Char) : Char :=
  let byte := hash.getD (i / 2) 0
  let nibble := if i % 2 ≠ 0 then byte else byte >>> 4
  if nibble &&& 8 ≠ 0 then uppercase ch else ch

/-- `to_hexstr_eip55`, for a text of hex digits behind `0x` -/
def toHexstrEip55 (ns : Namespace) (src : Text) : Text :=
  let address := (List.drop 2 src).map lowercase
  let hash := ns.keccak256 (address.map fun ch => UInt8.ofNat ch.toNat)
  '0' :: 'x' :: address.mapIdx (checksumDigit hash)

/-- `BigInt::from_str_radix` in base 16 -/
def parseHex (text : Text) : Option Nat :=
  if text = [] then none else text.foldlM (fun n ch => (toDigit ch).map fun v => 16 * n + v) 0

/-- The part of `hex_number_literal` for numbers that are no addresses -/
def hexNumber (loc : Loc) (n : Text) (ns : Namespace) (resolveTo : ResolveTo) :
    Option (Except Strings.Diagnostic Expression) := do
  let s := (List.drop 2 n).filter (· ≠ '_')
  let val ← parseHex s
  match resolveTo with
  | .type (.bytes length) =>
    let expectedLength := length * 2
    if val ≠ 0 ∧ s.length ≠ expectedLength then
      some (.error ⟨loc, "hex literal " ++ String.ofList n ++ " must be " ++ toString expectedLength ++
        " digits for type 'bytes" ++ toString length ++ "'"⟩)
    else some (.ok (.numberLiteral loc (.bytes length) val))
  | _ => some (bigintToExpression loc val ns resolveTo (some s.length))

def hexNumberLiteral (loc : Loc) (n : Text) (ns : Namespace) (resolveTo : ResolveTo) :
    Option (Except Strings.Diagnostic Expression) :=
  if ['0', 'x'].isPrefixOf n ∧ '_' ∉ n ∧ n.size = 42 then
    let address := toHexstrEip55 ns n
    if ns.target = .evm then
      if address = n then do
        let value ← parseHex (List.drop 2 address)
        some (.ok (.numberLiteral loc (.address false) value))
      else
        some (.error ⟨loc, "address literal has incorrect checksum, expected '" ++ String.ofList address ++ "'"⟩)
    else if address = n then
      some (.error ⟨loc, "ethereum address literal '" ++ String.ofList n ++ "' not supported on target " ++
        ns.target.display⟩)
    else hexNumber loc n ns resolveTo
  else hexNumber loc n ns resolveTo

end Solang.Sema.Literals

/-!
## What decimal literals denote

The value of a literal by its digits, and for which literals the expression has that value.
-/

namespace Solang.Sema.Literals

open Solang.Parser (Loc isAsciiDigit isDigitOrSeparator)

/-! ### Literals and their values -/

/-- A literal by the texts of its token. The first text of a literal such as `.5` is empty. -/
inductive NumberText where
  | number (integer exp : Text)
  | rational (integer fraction exp : Text)

/-- Digits with underscores between or behind them -/
def IsNumber (text : Text) : Prop :=
  ∃ d rest, text = d :: rest ∧ isAsciiDigit d = true ∧ ∀ ch ∈ rest, isDigitOrSeparator ch = true

def IsExponent (exp : Text) : Prop :=
  ∃ e : Text, (exp = e ∨ exp = '-' :: e) ∧ ∀ ch ∈ e, isDigitOrSeparator ch = true

/-- The grammar removes the underscores. -/
def strip (text : Text) : Text := text.filter (· ≠ '_')

def exponentOf : Text → Int
  | '-' :: e => -(decimal e)
  | e => decimal e

/-- `integer.fraction * 10 ^ exp * unit` for texts without underscores, where `digits` is the number
of digits of the fraction -/
def scaled (integer fraction exp : Text) (digits : Nat) (unit : Int) : ℚ :=
  decimal (integer ++ fraction) / 10 ^ digits * 10 ^ exponentOf exp * unit

def Expression.number : Expression → ℚ
  | .numberLiteral _ _ value => value
  | .rationalNumberLiteral _ value => value

def Expression.IsInteger : Expression → Prop
  | .numberLiteral .. => True
  | .rationalNumberLiteral .. => False

/-- If the literal resolves without an error then to this number, and to an integer if it is one. -/
def Denotes (q : ℚ) (r : Option (Except Strings.Diagnostic Expression)) : Prop :=
  ∃ r', r = some r' ∧ ∀ e, r' = .ok e → e.number = q ∧ (e.IsInteger ↔ q.isInt = true)

namespace NumberText

def WellFormed : NumberText → Prop
  | number integer exp => IsNumber integer ∧ IsExponent exp
  | rational integer fraction exp => (integer = [] ∨ IsNumber integer) ∧ IsNumber fraction ∧ IsExponent exp

def value (unit : Int) : NumberText → ℚ
  | number integer exp => scaled (strip integer) [] (strip exp) 0 unit
  | rational integer fraction exp => scaled (strip integer) (strip fraction) (strip exp) (strip fraction).length unit

def resolve (loc : Loc) (ns : Namespace) (unit : Int) (resolveTo : ResolveTo) :
    NumberText → Option (Except Strings.Diagnostic Expression)
  | number integer exp => numberLiteral loc (strip integer) (strip exp) ns unit resolveTo
  | rational integer fraction exp =>
    rationalNumberLiteral loc (strip integer) (strip fraction) (strip exp) unit ns resolveTo

end NumberText

/-! ### Digits -/

section

variable {text p q : Text}

theorem decimal_concat (ch : Char) : decimal (p ++ [ch]) = 10 * decimal p + (ch.toNat - 48) := by
  simp [decimal]

theorem decimal_append (p q : Text) : decimal (p ++ q) = decimal p * 10 ^ q.length + decimal q := by
  induction q using List.reverseRecOn with
  | nil => simp [decimal]
  | append_singleton q ch ih =>
    rw [← List.append_assoc, decimal_concat, ih, decimal_concat, List.length_append, Nat.pow_add]
    simp only [List.length_singleton, Nat.pow_one]
    ring

theorem decimal_zeros (h : ∀ ch ∈ p, ch = '0') : decimal p = 0 := by
  induction p using List.reverseRecOn with
  | nil => rfl
  | append_singleton p ch ih =>
    rw [decimal_concat, ih fun c hc => h c (List.mem_append_left _ hc), h ch (by simp)]
    rfl

theorem parseNat_digits (hne : text ≠ []) (h : ∀ ch ∈ text, isAsciiDigit ch = true) :
    parseNat text = some (decimal text) := by
  unfold parseNat
  rw [if_pos ⟨hne, List.all_eq_true.mpr h⟩]

theorem parseBigInt_digits (hne : text ≠ []) (h : ∀ ch ∈ text, isAsciiDigit ch = true) :
    parseBigInt text = some (decimal text : ℤ) := by
  unfold parseBigInt
  split
  · exact absurd (h '-' List.mem_cons_self) (by decide)
  · rw [parseNat_digits hne h]
    rfl

/-- What is left behind the zeros at the start -/
theorem drop_zeros {i : Nat} (h : text.findIdx? (· ≠ '0') = some i) :
    ∃ rest, Text.drop i text = some rest ∧ rest ≠ [] ∧ (∀ ch ∈ rest, ch ∈ text) ∧ decimal rest = decimal text := by
  induction text generalizing i with
  | nil => cases h
  | cons ch text ih =>
    rw [List.findIdx?_cons] at h
    split at h
    · obtain rfl : 0 = i := Option.some.inj h
      exact ⟨ch :: text, rfl, List.cons_ne_nil _ _, fun _ h => h, rfl⟩
    · rename_i hch
      obtain rfl : ch = '0' := by simpa using hch
      obtain ⟨j, hj, rfl⟩ := Option.map_eq_some_iff.mp h
      obtain ⟨rest, hdrop, hne, hmem, hval⟩ := ih hj
      exact ⟨rest, hdrop, hne, fun c hc => List.mem_cons_of_mem _ (hmem c hc), hval⟩

/-- The digits as one number. Where there is no integer zeros at the start are skipped. -/
theorem parseDigits_spec {integer fraction : Text} (hne : fraction ≠ [])
    (hi : ∀ ch ∈ integer, isAsciiDigit ch = true) (hf : ∀ ch ∈ fraction, isAsciiDigit ch = true) :
    parseDigits integer fraction = some (decimal (integer ++ fraction) : ℤ) := by
  unfold parseDigits
  split
  · rename_i hzero
    have hint : decimal integer = 0 := by rcases hzero with rfl | rfl <;> rfl
    rw [decimal_append, hint, Nat.zero_mul, Nat.zero_add]
    cases hidx : fraction.findIdx? (· ≠ '0') with
    | some i =>
      obtain ⟨rest, hdrop, hrest, hmem, hval⟩ := drop_zeros hidx
      simp only [hdrop, Option.bind_some]
      rw [parseBigInt_digits hrest fun ch hch => hf ch (hmem ch hch), hval]
    | none =>
      rw [decimal_zeros fun ch hch => by simpa using List.findIdx?_eq_none_iff.mp hidx ch hch]
      rfl
  · refine parseBigInt_digits (List.append_ne_nil_of_right_ne_nil _ hne) fun ch hch => ?_
    exact (List.mem_append.mp hch).elim (hi ch) (hf ch)

end

/-! ### Results -/

section

variable {q : ℚ} {loc : Loc} {ns : Namespace} {resolveTo : ResolveTo}

theorem isInt_intCast (n : Int) : (n : ℚ).isInt = true := by
  simp [Rat.isInt]

theorem num_of_isInt (h : q.isInt = true) : (q.num : ℚ) = q := by
  refine Rat.coe_int_num_of_den_eq_one ?_
  simpa [Rat.isInt] using h

theorem denotes_error (d : Strings.Diagnostic) : Denotes q (some (.error d)) :=
  ⟨_, rfl, fun _ h => by cases h⟩

theorem bigintToExpression_ok {n : Int} {len : Option Nat} {e : Expression}
    (h : bigintToExpression loc n ns resolveTo len = .ok e) : ∃ ty, e = .numberLiteral loc ty n := by
  unfold bigintToExpression at h
  grind

theorem denotes_bigint {n : Int} (hq : q = n) :
    Denotes q (some (bigintToExpression loc n ns resolveTo none)) := by
  refine ⟨_, rfl, fun e he => ?_⟩
  obtain ⟨ty, rfl⟩ := bigintToExpression_ok he
  exact ⟨hq.symm, fun _ => hq ▸ isInt_intCast n, fun _ => trivial⟩

theorem denotes_rational_iff {r : ℚ} (hr : r.isInt = false) :
    Denotes q (some (.ok (.rationalNumberLiteral loc r))) ↔ r = q := by
  constructor
  · rintro ⟨r', hr', h⟩
    exact (h _ (Option.some.inj hr').symm).1
  · rintro rfl
    refine ⟨_, rfl, fun e he => ?_⟩
    cases he
    exact ⟨rfl, fun h => h.elim, fun h => by rw [hr] at h; cases h⟩

theorem parseU8_some {text : Text} {e : Nat} (h : parseU8 text = some e) : e = decimal text := by
  unfold parseU8 parseNat at h
  split at h
  · exact (Option.mem_filter_iff.mp h).1 |> Option.some.inj |> Eq.symm
  · cases h

theorem mkRat_pow (n : Int) (e : Nat) : mkRat n (10 ^ e) = (n : ℚ) / 10 ^ e := by
  rw [Rat.mkRat_eq_div]
  norm_cast

theorem isInt_div_pow_iff (n : Int) (e : Nat) : ((n : ℚ) / 10 ^ e).isInt = true ↔ (10 : Int) ^ e ∣ n := by
  have hpow : (10 : ℚ) ^ e ≠ 0 := pow_ne_zero e (by norm_num)
  constructor
  · intro h
    refine ⟨((n : ℚ) / 10 ^ e).num, ?_⟩
    have hnum := num_of_isInt h
    rw [eq_div_iff hpow] at hnum
    rw [Int.mul_comm]
    exact_mod_cast hnum.symm
  · rintro ⟨k, rfl⟩
    push_cast
    rw [mul_div_cancel_left₀ _ hpow]
    exact isInt_intCast k

/-! ### Literals without a fraction -/

/-- A literal that is reported because of its first digit -/
def LeadingZero (integer : Text) : Prop := integer.head? = some '0' ∧ integer.size > 1

/-- With a negative exponent the number is an integer, or there is no unit to multiply with. -/
def KeepsUnit (integer exp : Text) (unit : Int) : Prop :=
  ∀ absExp e, exp = '-' :: absExp → parseU8 absExp = some e → ¬ LeadingZero integer →
    (10 : Int) ^ e ∣ decimal integer ∨ unit = 1

variable {e integer exp fraction : Text} {unit : Int}

theorem not_minus {absExp : Text} (h : ∀ ch ∈ e, isAsciiDigit ch = true) : e ≠ '-' :: absExp := by
  rintro rfl
  exact absurd (h '-' List.mem_cons_self) (by decide)

theorem exponentOf_digits (h : ∀ ch ∈ e, isAsciiDigit ch = true) : exponentOf e = decimal e := by
  unfold exponentOf
  split
  · exact absurd rfl (not_minus h)
  · rfl

theorem denotes_number_iff (hne : integer ≠ []) (hi : ∀ ch ∈ integer, isAsciiDigit ch = true)
    (hexp : exp = e ∨ exp = '-' :: e) (he : ∀ ch ∈ e, isAsciiDigit ch = true) :
    Denotes (scaled integer [] exp 0 unit) (numberLiteral loc integer exp ns unit resolveTo) ↔
      KeepsUnit integer exp unit := by
  unfold numberLiteral
  by_cases hlead : LeadingZero integer
  · rw [if_pos (show integer.head? = some '0' ∧ integer.size > 1 from hlead)]
    exact ⟨fun _ _ _ _ _ h => absurd hlead h, fun _ => denotes_error _⟩
  rw [if_neg (show ¬(integer.head? = some '0' ∧ integer.size > 1) from hlead), parseBigInt_digits hne hi]
  simp only [Option.bind_eq_bind, Option.bind_some]
  unfold scaled
  rw [List.append_nil, pow_zero, div_one]
  rcases hexp with rfl | rfl
  · have hkeeps : KeepsUnit integer exp unit := fun absExp _ h => absurd h (not_minus he)
    refine ⟨fun _ => hkeeps, fun _ => ?_⟩
    rw [exponentOf_digits he, zpow_natCast]
    split
    · refine denotes_bigint ?_
      simp [decimal]
    · exact absurd rfl (not_minus he)
    · split
      · rename_i k hk
        rw [← parseU8_some hk]
        refine denotes_bigint ?_
        push_cast
        rfl
      · exact denotes_error _
  · simp only []
    cases hk : parseU8 e with
    | none =>
      refine ⟨fun _ absExp k h hk' => ?_, fun _ => denotes_error _⟩
      rw [(List.cons.inj h).2, hk'] at hk
      cases hk
    | some k =>
      have hvalue : (decimal integer : ℚ) * 10 ^ exponentOf ('-' :: e) * unit =
          ((decimal integer : ℤ) : ℚ) / 10 ^ k * unit := by
        rw [parseU8_some hk]
        simp only [exponentOf, zpow_neg, zpow_natCast, Int.cast_natCast]
        rw [div_eq_mul_inv]
      have hkeeps : KeepsUnit integer ('-' :: e) unit ↔ (10 : Int) ^ k ∣ decimal integer ∨ unit = 1 := by
        constructor
        · exact fun h => h e k rfl hk hlead
        · rintro h absExp k' habs hk' -
          rw [← (List.cons.inj habs).2, hk] at hk'
          obtain rfl := Option.some.inj hk'
          exact h
      rw [hkeeps, hvalue]
      simp only [mkRat_pow]
      split
      · rename_i hint
        refine ⟨fun _ => Or.inl ((isInt_div_pow_iff _ _).mp hint), fun _ => denotes_bigint ?_⟩
        rw [Int.cast_mul, num_of_isInt hint]
      · rename_i hint
        have hfalse := Bool.eq_false_iff.mpr hint
        have hne0 : ((decimal integer : ℤ) : ℚ) / 10 ^ k ≠ 0 := fun h0 => hint (by rw [h0]; rfl)
        rw [denotes_rational_iff hfalse]
        constructor
        · intro h
          refine Or.inr ?_
          have h1 : (unit : ℚ) = 1 := by
            refine mul_left_cancel₀ hne0 ?_
            rw [← h, mul_one]
          exact_mod_cast h1
        · rintro (h | rfl)
          · exact absurd ((isInt_div_pow_iff _ _).mpr h) hint
          · rw [Int.cast_one, mul_one]

/-! ### Literals with a fraction -/

/-- The exponent as it is parsed -/
def parsedExponent (exp : Text) : Option Nat :=
  if exp = [] then some 0 else parseU8 (if exp.head? = some '-' then exp.tail else exp)

/-- The expression for a number -/
def settle (loc : Loc) (ns : Namespace) (resolveTo : ResolveTo) (q : ℚ) : Except Strings.Diagnostic Expression :=
  if q.isInt then bigintToExpression loc q.num ns resolveTo none else .ok (.rationalNumberLiteral loc q)

/-- The number is an integer, and there is none of the type or this one is too large. -/
def Refused (loc : Loc) (ns : Namespace) (resolveTo : ResolveTo) (q : ℚ) : Prop :=
  q.isInt = true ∧ ∀ e, bigintToExpression loc q.num ns resolveTo none ≠ .ok e

theorem size_digits {text : Text} (h : ∀ ch ∈ text, isAsciiDigit ch = true) : text.size = text.length := by
  induction text with
  | nil => rfl
  | cons ch text ih =>
    rw [Text.size_cons, Parser.utf8Size_digit (h ch List.mem_cons_self), ih fun c hc => h c (List.mem_cons_of_mem _ hc),
      List.length_cons, Nat.add_comm]

theorem mkRat_eq (n : Int) (d : Nat) : mkRat n d = (n : ℚ) / d := Rat.mkRat_eq_div n d

theorem rationalNumberLiteral_eq (hne : fraction ≠ []) (hi : ∀ ch ∈ integer, isAsciiDigit ch = true)
    (hf : ∀ ch ∈ fraction, isAsciiDigit ch = true) (hexp : exp = e ∨ exp = '-' :: e)
    (he : ∀ ch ∈ e, isAsciiDigit ch = true) :
    ∃ r, rationalNumberLiteral loc integer fraction exp unit ns resolveTo = some r ∧
      ((∃ d, r = .error d ∧ (LeadingZero integer ∨ parsedExponent exp = none)) ∨
        r = settle loc ns resolveTo (scaled integer fraction exp (fraction.length % 2 ^ 32) unit) ∧
          ¬ LeadingZero integer ∧ parsedExponent exp ≠ none) := by
  have hminus : ¬(['-', '0'].isPrefixOf integer = true ∧ integer.size > 2) := by
    rintro ⟨h, -⟩
    obtain ⟨t, rfl⟩ := List.isPrefixOf_iff_prefix.mp h
    exact absurd (hi '-' (by simp)) (by decide)
  unfold rationalNumberLiteral
  by_cases hlead : LeadingZero integer
  · exact ⟨_, if_pos (Or.inr hlead), Or.inl ⟨_, rfl, Or.inl hlead⟩⟩
  rw [if_neg (show ¬(_ ∨ (integer.head? = some '0' ∧ integer.size > 1)) from not_or.mpr ⟨hminus, hlead⟩)]
  rw [parseDigits_spec hne hi hf, size_digits hf]
  simp only [Option.bind_eq_bind, Option.bind_some]
  generalize hd : fraction.length % 2 ^ 32 = d
  by_cases hnil : exp = []
  · have hparsed : parsedExponent exp = some 0 := if_pos hnil
    rw [if_pos hnil]
    refine ⟨_, rfl, Or.inr ⟨?_, hlead, by rw [hparsed]; exact Option.some_ne_none 0⟩⟩
    refine congrArg (settle loc ns resolveTo) ?_
    rw [mkRat_eq, hnil]
    simp [scaled, exponentOf, decimal]
  · have hparsed : parsedExponent exp = parseU8 (if exp.head? = some '-' then exp.tail else exp) := if_neg hnil
    rw [if_neg hnil, hparsed]
    cases hk : parseU8 (if exp.head? = some '-' then exp.tail else exp) with
    | none => exact ⟨_, rfl, Or.inl ⟨_, rfl, Or.inr rfl⟩⟩
    | some k =>
      rcases hexp with rfl | rfl
      · have hhead : ¬(exp.head? = some '-') := by
          intro h
          obtain ⟨rest, hrest⟩ := List.head?_eq_some_iff.mp h
          exact not_minus he hrest
        rw [if_neg hhead] at hk
        simp only [if_neg hhead]
        refine ⟨_, rfl, Or.inr ⟨?_, hlead, Option.some_ne_none k⟩⟩
        refine congrArg (settle loc ns resolveTo) ?_
        rw [mkRat_eq]
        unfold scaled
        rw [exponentOf_digits he, ← parseU8_some hk, zpow_natCast]
        push_cast
        ring
      · simp only [List.head?_cons, if_true, List.tail_cons] at hk ⊢
        refine ⟨_, rfl, Or.inr ⟨?_, hlead, Option.some_ne_none k⟩⟩
        refine congrArg (settle loc ns resolveTo) ?_
        rw [mkRat_eq]
        unfold scaled
        simp only [exponentOf]
        rw [← parseU8_some hk, zpow_neg, zpow_natCast]
        push_cast
        rw [div_mul_eq_div_div, div_eq_mul_inv _ ((10 : ℚ) ^ k)]

theorem denotes_settle (q : ℚ) : Denotes q (some (settle loc ns resolveTo q)) := by
  unfold settle
  split
  · rename_i h
    exact denotes_bigint (num_of_isInt h).symm
  · rename_i h
    exact (denotes_rational_iff (Bool.eq_false_iff.mpr h)).mpr rfl

/-- Another number than that of the literal has to be refused. -/
theorem denotes_settle_iff {r : ℚ} (hne : r ≠ q) :
    Denotes q (some (settle loc ns resolveTo r)) ↔ Refused loc ns resolveTo r := by
  unfold settle Refused
  split
  · rename_i h
    constructor
    · rintro ⟨r', hr', hall⟩
      refine ⟨h, fun e he => ?_⟩
      have hnum := (hall e ((Option.some.inj hr').symm.trans he)).1
      obtain ⟨ty, rfl⟩ := bigintToExpression_ok he
      exact hne ((num_of_isInt h).symm.trans hnum)
    · rintro ⟨-, hrefused⟩
      exact ⟨_, rfl, fun e he => absurd he (hrefused e)⟩
  · rename_i h
    rw [denotes_rational_iff (Bool.eq_false_iff.mpr h)]
    exact ⟨fun h => absurd h hne, fun h' => absurd h'.1 h⟩

/-- The length of the fraction does not wrap around, or it makes no difference. -/
def KeepsFraction (loc : Loc) (ns : Namespace) (resolveTo : ResolveTo) (integer fraction exp : Text) (unit : Int) :
    Prop :=
  ¬ LeadingZero integer → parsedExponent exp ≠ none → fraction.length < 2 ^ 32 ∨
    decimal (integer ++ fraction) = 0 ∨ unit = 0 ∨
      Refused loc ns resolveTo (scaled integer fraction exp (fraction.length % 2 ^ 32) unit)

theorem scaled_inj {d d' : Nat} (hn : decimal (integer ++ fraction) ≠ 0) (hu : unit ≠ 0)
    (h : scaled integer fraction exp d unit = scaled integer fraction exp d' unit) : d = d' := by
  have h10 : (10 : ℚ) ≠ 0 := by norm_num
  have hu' : (unit : ℚ) ≠ 0 := Int.cast_ne_zero.mpr hu
  have hn' : (decimal (integer ++ fraction) : ℚ) ≠ 0 := Nat.cast_ne_zero.mpr hn
  have hcancel := mul_right_cancel₀ (zpow_ne_zero _ h10) (mul_right_cancel₀ hu' h)
  rw [div_eq_div_iff (pow_ne_zero _ h10) (pow_ne_zero _ h10)] at hcancel
  have hpow := mul_left_cancel₀ hn' hcancel
  exact (Nat.pow_right_injective (le_refl 2 |>.trans (by decide : 2 ≤ 10)) (by exact_mod_cast hpow)).symm

theorem denotes_rationalNumber_iff (hne : fraction ≠ [])
    (hi : ∀ ch ∈ integer, isAsciiDigit ch = true) (hf : ∀ ch ∈ fraction, isAsciiDigit ch = true)
    (hexp : exp = e ∨ exp = '-' :: e) (he : ∀ ch ∈ e, isAsciiDigit ch = true) :
    Denotes (scaled integer fraction exp fraction.length unit)
      (rationalNumberLiteral loc integer fraction exp unit ns resolveTo) ↔
        KeepsFraction loc ns resolveTo integer fraction exp unit := by
  obtain ⟨r, hr, ⟨d, rfl, herr⟩ | ⟨rfl, hlead, hparsed⟩⟩ :=
    @rationalNumberLiteral_eq loc ns resolveTo _ _ _ _ unit hne hi hf hexp he
  · rw [hr]
    exact ⟨fun _ hlead hparsed => (herr.elim hlead hparsed).elim, fun _ => denotes_error d⟩
  · rw [hr]
    by_cases heq : scaled integer fraction exp (fraction.length % 2 ^ 32) unit =
        scaled integer fraction exp fraction.length unit
    · refine ⟨fun _ _ _ => ?_, fun _ => heq ▸ denotes_settle _⟩
      by_cases hn : decimal (integer ++ fraction) = 0
      · exact Or.inr (Or.inl hn)
      by_cases hu : unit = 0
      · exact Or.inr (Or.inr (Or.inl hu))
      have hlen := scaled_inj hn hu heq
      exact Or.inl (by omega)
    · rw [denotes_settle_iff heq]
      constructor
      · exact fun h _ _ => Or.inr (Or.inr (Or.inr h))
      · intro h
        rcases h hlead hparsed with h | h | h | h
        · exact absurd (by rw [Nat.mod_eq_of_lt h]) heq
        · exact absurd (by simp [scaled, h]) heq
        · exact absurd (by simp [scaled, h]) heq
        · exact h

end

/-! ### Literals as the lexer has them -/

theorem isAsciiDigit_of_strip {text : Text} (h : ∀ ch ∈ text, isDigitOrSeparator ch = true) :
    ∀ ch ∈ strip text, isAsciiDigit ch = true := by
  intro ch hch
  obtain ⟨hmem, hne⟩ := List.mem_filter.mp hch
  have hsep := h ch hmem
  simp only [isDigitOrSeparator, Bool.or_eq_true, decide_eq_true_eq] at hsep
  exact hsep.resolve_right (of_decide_eq_true hne)

theorem strip_number {text : Text} (h : IsNumber text) :
    strip text ≠ [] ∧ ∀ ch ∈ strip text, isAsciiDigit ch = true := by
  obtain ⟨d, rest, rfl, hd, hrest⟩ := h
  have hne : d ≠ '_' := by rintro rfl; exact absurd hd (by decide)
  have hcons : strip (d :: rest) = d :: strip rest := List.filter_cons_of_pos (decide_eq_true hne)
  rw [hcons]
  refine ⟨List.cons_ne_nil _ _, fun ch hch => ?_⟩
  rcases List.mem_cons.mp hch with rfl | hch
  · exact hd
  · exact isAsciiDigit_of_strip hrest ch hch

theorem strip_exponent {exp : Text} (h : IsExponent exp) :
    ∃ e : Text, (strip exp = e ∨ strip exp = '-' :: e) ∧ ∀ ch ∈ e, isAsciiDigit ch = true := by
  obtain ⟨e, hexp, he⟩ := h
  refine ⟨strip e, ?_, isAsciiDigit_of_strip he⟩
  rcases hexp with rfl | rfl
  · exact Or.inl rfl
  · exact Or.inr (List.filter_cons_of_pos (by decide))

/-- The unit is not dropped, and the fraction is not too long. -/
def NumberText.Kept (loc : Loc) (ns : Namespace) (unit : Int) (resolveTo : ResolveTo) : NumberText → Prop
  | number integer exp => KeepsUnit (strip integer) (strip exp) unit
  | rational integer fraction exp =>
    KeepsFraction loc ns resolveTo (strip integer) (strip fraction) (strip exp) unit

theorem literal_denotes_iff (lit : NumberText) (h : lit.WellFormed) (loc : Loc) (ns : Namespace) (unit : Int)
    (resolveTo : ResolveTo) :
    Denotes (lit.value unit) (lit.resolve loc ns unit resolveTo) ↔ lit.Kept loc ns unit resolveTo := by
  cases lit with
  | number integer exp =>
    obtain ⟨hint, hexp⟩ := h
    obtain ⟨hne, hi⟩ := strip_number hint
    obtain ⟨e, hexp, he⟩ := strip_exponent hexp
    exact denotes_number_iff hne hi hexp he
  | rational integer fraction exp =>
    obtain ⟨hint, hfrac, hexp⟩ := h
    obtain ⟨hne, hf⟩ := strip_number hfrac
    obtain ⟨e, hexp, he⟩ := strip_exponent hexp
    have hi : ∀ ch ∈ strip integer, isAsciiDigit ch = true := by
      rcases hint with rfl | hint
      · exact fun ch hch => absurd hch List.not_mem_nil
      · exact (strip_number hint).2
    exact denotes_rationalNumber_iff hne hi hf hexp he

namespace Sample

def ns : Namespace := ⟨.solana, fun _ => "", fun _ => []⟩

def loc : Loc := ⟨0, 0⟩

/-- `1_0e-1 minutes` -/
def tenTenths : NumberText := .number ['1', '_', '0'] ['-', '1']

theorem literal_denotes_tenTenths : Denotes (tenTenths.value 60) (tenTenths.resolve loc ns 60 .unknown) := by
  refine (literal_denotes_iff tenTenths ?_ loc ns 60 .unknown).mpr ?_
  · exact ⟨⟨'1', ['_', '0'], rfl, rfl, List.forall_mem_cons.mpr ⟨rfl, List.forall_mem_singleton.mpr rfl⟩⟩,
      ⟨['1'], Or.inr rfl, List.forall_mem_singleton.mpr rfl⟩⟩
  · intro absExp e hexp he _
    obtain rfl := (List.cons.inj hexp).2
    obtain rfl : 1 = e := Option.some.inj ((by decide : parseU8 ['1'] = some 1).symm.trans he)
    exact Or.inl ⟨1, rfl⟩

/-- `1e-1 minutes` are six seconds, and not a tenth. -/
theorem unit_is_dropped :
    NumberText.WellFormed (.number ['1'] ['-', '1']) ∧
      ¬ Denotes (NumberText.value 60 (.number ['1'] ['-', '1']))
        (NumberText.resolve loc ns 60 .unknown (.number ['1'] ['-', '1'])) := by
  refine ⟨⟨⟨'1', [], rfl, rfl, List.forall_mem_nil _⟩, ⟨['1'], Or.inr rfl, List.forall_mem_singleton.mpr rfl⟩⟩, ?_⟩
  have hresolve : NumberText.resolve loc ns 60 .unknown (.number ['1'] ['-', '1']) =
      some (.ok (.rationalNumberLiteral loc (mkRat 1 10))) := rfl
  have hvalue : NumberText.value 60 (.number ['1'] ['-', '1']) = 6 := by
    simp only [NumberText.value, scaled]
    have h1 : decimal (strip ['1'] ++ []) = 1 := by decide
    have h2 : exponentOf (strip ['-', '1']) = -1 := by decide
    rw [h1, h2]
    norm_num
  rw [hresolve, hvalue, denotes_rational_iff (by decide)]
  decide

end Sample

end Solang.Sema.Literals
