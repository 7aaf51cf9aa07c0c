import Solang.Sema.NumberLiterals

/-!
# The types of integer literals

Which type `bigint_to_expression` gives to a number when there is no target type, and how many
bytes the type of a hex literal has.
-/

namespace Solang.Sema.Literals

open Solang.Parser (Loc isHexdigitOrSeparator)

/-- The types of integers that the number is in the range of -/
def Fits : Ty → Int → Prop
  | .uint w, n => 8 ∣ w ∧ 8 ≤ w ∧ w ≤ 256 ∧ 0 ≤ n ∧ n < 2 ^ w
  | .int w, n => 8 ∣ w ∧ 8 ≤ w ∧ w ≤ 256 ∧ -2 ^ (w - 1) ≤ n ∧ n < 2 ^ (w - 1)
  | _, _ => False

def Ty.width : Ty → Nat
  | .uint w => w
  | .int w => w
  | _ => 0

/-- There is no target type. -/
def Untyped (resolveTo : ResolveTo) : Prop := ∀ ty, resolveTo = .type ty → ty = .unresolved

/-- The number has a fitting type, the smallest one for decimals, or there is none. -/
def FittingType (n : Int) (hexStrLen : Option Nat) : Except Strings.Diagnostic Expression → Prop
  | .error _ => ∀ ty, ¬ Fits ty n
  | .ok (.numberLiteral _ ty value) =>
    value = n ∧ Fits ty n ∧ (hexStrLen = none → ∀ ty', Fits ty' n → ty.width ≤ ty'.width)
  | .ok (.rationalNumberLiteral ..) => False

/-- For decimals: the number is not in the lower half of the range of an `int` of twice as many
values. For hex digits: their number makes a width that the value is in the range of, or it is odd
and the width of the value by itself is one. -/
def TypeFits (n : Int) : Option Nat → Prop
  | none => ∀ k, 0 < k → k < 32 → n < -2 ^ (8 * k) ∨ -2 ^ (8 * k - 1) ≤ n
  | some len => n < -2 ^ 255 ∨ 2 ^ 256 ≤ n ∨
    if len % 2 = 0 then 8 ≤ len * 4 % 2 ^ 16 ∧ len * 4 % 2 ^ 16 ≤ 256 ∧
      -2 ^ (len * 4 % 2 ^ 16 - 1) ≤ n ∧ n < 2 ^ (len * 4 % 2 ^ 16)
    else 0 < n ∧ 8 ∣ n.natAbs.size

/-! ## Bits -/

section

variable {n : Int} {k : Nat}

theorem bitsOf_le_of_neg (h : n < 0) : bitsOf n ≤ k ↔ -2 ^ k ≤ n := by
  unfold bitsOf
  rw [if_pos h, Nat.size_le]
  have hcast : ((2 ^ k : Nat) : Int) = 2 ^ k := by push_cast; rfl
  omega

theorem bitsOf_le_of_nonneg (h : 0 ≤ n) : bitsOf n ≤ k ↔ n < 2 ^ k := by
  unfold bitsOf
  rw [if_neg (by omega), Nat.size_le]
  have hcast : ((2 ^ k : Nat) : Int) = 2 ^ k := by push_cast; rfl
  omega

/-- The widths of an `int` for a negative number have more bits than it. -/
theorem fits_int_iff_of_neg (h : n < 0) {w : Nat} :
    Fits (.int w) n ↔ 8 ∣ w ∧ 8 ≤ w ∧ w ≤ 256 ∧ bitsOf n < w := by
  have hpos : (0 : Int) < 2 ^ (w - 1) := pow_pos (by decide) _
  have hbits := bitsOf_le_of_neg (k := w - 1) h
  unfold Fits
  constructor
  · rintro ⟨h8, hle, hle', hlow, -⟩
    have := hbits.mpr hlow
    exact ⟨h8, hle, hle', by omega⟩
  · rintro ⟨h8, hle, hle', hlt⟩
    exact ⟨h8, hle, hle', hbits.mp (by omega), by omega⟩

theorem fits_uint_iff_of_nonneg (h : 0 ≤ n) {w : Nat} :
    Fits (.uint w) n ↔ 8 ∣ w ∧ 8 ≤ w ∧ w ≤ 256 ∧ bitsOf n ≤ w := by
  unfold Fits
  rw [bitsOf_le_of_nonneg h]
  exact ⟨fun ⟨h8, hle, hle', _, hlt⟩ => ⟨h8, hle, hle', hlt⟩, fun ⟨h8, hle, hle', hlt⟩ => ⟨h8, hle, hle', h, hlt⟩⟩

theorem not_fits_uint_of_neg (h : n < 0) {w : Nat} : ¬ Fits (.uint w) n := fun hfits => by
  have := hfits.2.2.2.1
  omega

theorem fits_width {ty : Ty} (h : Fits ty n) : 8 ∣ ty.width ∧ 8 ≤ ty.width ∧ ty.width ≤ 256 := by
  cases ty with
  | uint w | int w => exact ⟨h.1, h.2.1, h.2.2.1⟩
  | _ => exact h.elim

/-- Any fitting type has at least as many bits as the number, and more for a negative one. -/
theorem bitsOf_le_width {ty : Ty} (h : Fits ty n) : bitsOf n + (if n < 0 then 1 else 0) ≤ ty.width := by
  by_cases hn : n < 0
  · rw [if_pos hn]
    cases ty with
    | uint w => exact absurd h (not_fits_uint_of_neg hn)
    | int w => exact ((fits_int_iff_of_neg hn).mp h).2.2.2
    | _ => exact h.elim
  · rw [if_neg hn]
    cases ty with
    | uint w => exact ((fits_uint_iff_of_nonneg (by omega)).mp h).2.2.2
    | int w =>
      obtain ⟨-, hle, -, -, hlt⟩ := h
      have := (bitsOf_le_of_nonneg (n := n) (by omega)).mpr hlt
      show bitsOf n + 0 ≤ w
      omega
    | _ => exact h.elim

end

/-! ## The type that is given -/

section

variable {loc : Loc} {n : Int} {ns : Namespace} {resolveTo : ResolveTo} {len : Option Nat}

theorem bigintToExpression_untyped (h : Untyped resolveTo) : bigintToExpression loc n ns resolveTo len =
    if n < 0 then
      if bitsOf n > 255 then .error ⟨loc, toString n ++ " is too large"⟩
      else .ok (.numberLiteral loc (.int (intSize (bitsOf n) len)) n)
    else if bitsOf n > 256 then .error ⟨loc, toString n ++ " is too large"⟩
    else .ok (.numberLiteral loc (.uint (intSize (bitsOf n) len)) n) := by
  cases resolveTo with
  | type ty =>
    rw [h ty rfl]
    rfl
  | _ => rfl

/-- What the condition says for a negative number with a type, by its bits -/
theorem typeFits_iff_of_neg (hn : n < 0) (hbits : bitsOf n ≤ 255) : TypeFits n len ↔
    match len with
    | none => bitsOf n = 0 ∨ ¬ 8 ∣ bitsOf n
    | some len => len % 2 = 0 ∧ 8 ≤ len * 4 % 2 ^ 16 ∧ len * 4 % 2 ^ 16 ≤ 256 ∧ bitsOf n < len * 4 % 2 ^ 16 := by
  have hle : ∀ k, -2 ^ k ≤ n ↔ bitsOf n ≤ k := fun k => (bitsOf_le_of_neg hn).symm
  have hlt : ∀ k, n < -2 ^ k ↔ k < bitsOf n := fun k => by rw [← not_le, hle, not_le]
  cases len with
  | none =>
    simp only [TypeFits, hle, hlt]
    constructor
    · intro h
      by_contra hdvd
      obtain ⟨k, hk⟩ := not_not.mp fun h => hdvd (Or.inr h)
      have := h k (by omega) (by omega)
      omega
    · intro h k hk hk'
      omega
  | some len =>
    have hpos : (0 : Int) < 2 ^ 256 := pow_pos (by decide) _
    have hpos' : (0 : Int) < 2 ^ (len * 4 % 2 ^ 16) := pow_pos (by decide) _
    simp only [TypeFits, hlt 255]
    by_cases h2 : len % 2 = 0
    · rw [if_pos h2, hle (len * 4 % 2 ^ 16 - 1)]
      constructor
      · rintro (h | h | ⟨h8, h256, hb, -⟩)
        · omega
        · omega
        · exact ⟨h2, h8, h256, by omega⟩
      · rintro ⟨-, h8, h256, hb⟩
        exact Or.inr (Or.inr ⟨h8, h256, by omega, by omega⟩)
    · rw [if_neg h2]
      exact ⟨fun h => by omega, fun h => absurd h.1 h2⟩

theorem typeFits_iff_of_nonneg (hn : 0 ≤ n) (hbits : bitsOf n ≤ 256) : TypeFits n len ↔
    match len with
    | none => True
    | some len =>
      if len % 2 = 0 then 8 ≤ len * 4 % 2 ^ 16 ∧ len * 4 % 2 ^ 16 ≤ 256 ∧ bitsOf n ≤ len * 4 % 2 ^ 16
      else 0 < bitsOf n ∧ 8 ∣ bitsOf n := by
  have hlt : ∀ k, n < 2 ^ k ↔ bitsOf n ≤ k := fun k => (bitsOf_le_of_nonneg hn).symm
  have hneg : ∀ k, (-2 ^ k : Int) ≤ 0 := fun k => by
    have : (0 : Int) < 2 ^ k := pow_pos (by decide) _
    omega
  cases len with
  | none => exact ⟨fun _ => trivial, fun _ k _ _ => Or.inr ((hneg _).trans hn)⟩
  | some len =>
    have h256 : ¬(2 ^ 256 ≤ n) := not_le.mpr ((hlt 256).mpr hbits)
    have hlow : ¬(n < -2 ^ 255) := not_lt.mpr ((hneg 255).trans hn)
    have hsize : n.natAbs.size = bitsOf n := (if_neg (not_lt.mpr hn)).symm
    have hzero : 0 < n ↔ 0 < bitsOf n := by
      have h0 := hlt 0
      rw [pow_zero] at h0
      omega
    simp only [TypeFits, h256, hlow, false_or, hlt, hsize, hzero, (hneg _).trans hn, true_and]

theorem intSize_none {bits : Nat} (h : bits ≤ 256) :
    8 ∣ intSize bits none ∧ 8 ≤ intSize bits none ∧ intSize bits none ≤ 256 ∧ bits ≤ intSize bits none ∧
      ∀ w, 8 ∣ w → 8 ≤ w → bits ≤ w → intSize bits none ≤ w := by
  simp only [intSize]
  by_cases h7 : bits < 7
  · rw [if_pos h7]
    exact ⟨by decide, by decide, by decide, by omega, fun w _ hw _ => hw⟩
  · have hmod : (bits + 7) / 8 * 8 % 2 ^ 16 = (bits + 7) / 8 * 8 := Nat.mod_eq_of_lt (by omega)
    rw [if_neg h7, hmod]
    exact ⟨⟨_, Nat.mul_comm _ _⟩, by omega, by omega, by omega, fun w _ _ _ => by omega⟩

theorem intSize_some {bits v : Nat} (h : bits ≤ 256) :
    intSize bits (some v) = if v % 2 = 0 then v * 4 % 2 ^ 16 else bits := by
  simp only [intSize]
  by_cases h2 : v % 2 = 0
  · rw [if_pos h2, if_pos h2]
  · rw [if_neg h2, if_neg h2, Nat.mod_eq_of_lt (by omega)]

theorem fittingType_ok_iff {ty : Ty} : FittingType n len (.ok (.numberLiteral loc ty n)) ↔
    Fits ty n ∧ (len = none → ∀ ty', Fits ty' n → ty.width ≤ ty'.width) := by
  simp [FittingType]

theorem fittingType_iff (h : Untyped resolveTo) :
    FittingType n len (bigintToExpression loc n ns resolveTo len) ↔ TypeFits n len := by
  rw [bigintToExpression_untyped h]
  by_cases hn : n < 0
  · rw [if_pos hn]
    by_cases hbits : bitsOf n > 255
    · rw [if_pos hbits]
      have hnone : ∀ ty, ¬ Fits ty n := fun ty hty => by
        have hb := bitsOf_le_width hty
        have hw := (fits_width hty).2.2
        rw [if_pos hn] at hb
        omega
      refine ⟨fun _ => ?_, fun _ => hnone⟩
      cases len with
      | none => exact fun k _ hk => Or.inl (not_le.mp fun hle => by have := (bitsOf_le_of_neg hn).mpr hle; omega)
      | some len => exact Or.inl (not_le.mp fun hle => by have := (bitsOf_le_of_neg hn).mpr hle; omega)
    · rw [if_neg hbits, fittingType_ok_iff, typeFits_iff_of_neg hn (by omega), fits_int_iff_of_neg hn]
      cases len with
      | none =>
        obtain ⟨h8, hle, hle', hb, hmin⟩ := @intSize_none (bitsOf n) (by omega)
        constructor
        · rintro ⟨⟨-, -, -, hlt⟩, -⟩
          by_contra hdvd
          have := hmin (bitsOf n) (by omega) (by omega) (le_refl _)
          omega
        · intro hdvd
          refine ⟨⟨h8, hle, hle', by omega⟩, fun _ ty hty => ?_⟩
          have hw := fits_width hty
          have hbits' := bitsOf_le_width hty
          exact hmin ty.width hw.1 hw.2.1 (by omega)
      | some v =>
        rw [intSize_some (by omega)]
        by_cases h2 : v % 2 = 0
        · simp only [if_pos h2, reduceCtorEq, false_implies, and_true]
          exact ⟨fun ⟨_, h8, h256, hlt⟩ => ⟨h2, h8, h256, hlt⟩, fun ⟨_, h8, h256, hlt⟩ => ⟨by omega, h8, h256, hlt⟩⟩
        · simp only [if_neg h2]
          exact ⟨fun h => absurd h.1.2.2.2 (lt_irrefl _), fun h => absurd h.1 h2⟩
  · have hn' : 0 ≤ n := not_lt.mp hn
    rw [if_neg hn]
    by_cases hbits : bitsOf n > 256
    · rw [if_pos hbits]
      have hnone : ∀ ty, ¬ Fits ty n := fun ty hty => by
        have hb := bitsOf_le_width hty
        have hw := (fits_width hty).2.2
        omega
      refine ⟨fun _ => ?_, fun _ => hnone⟩
      cases len with
      | none =>
        refine fun k _ _ => Or.inr (le_trans ?_ hn')
        have : (0 : Int) < 2 ^ (8 * k - 1) := pow_pos (by decide) _
        omega
      | some v =>
        refine Or.inr (Or.inl (not_lt.mp fun hlt => ?_))
        have := (bitsOf_le_of_nonneg hn').mpr hlt
        omega
    · rw [if_neg hbits, fittingType_ok_iff, typeFits_iff_of_nonneg hn' (by omega), fits_uint_iff_of_nonneg hn']
      cases len with
      | none =>
        obtain ⟨h8, hle, hle', hb, hmin⟩ := @intSize_none (bitsOf n) (by omega)
        refine ⟨fun _ => trivial, fun _ => ⟨⟨h8, hle, hle', hb⟩, fun _ ty hty => ?_⟩⟩
        have hw := fits_width hty
        have hbits' := bitsOf_le_width hty
        exact hmin ty.width hw.1 hw.2.1 (by omega)
      | some v =>
        rw [intSize_some (by omega)]
        by_cases h2 : v % 2 = 0
        · simp only [if_pos h2, reduceCtorEq, false_implies, and_true]
          exact ⟨fun ⟨_, h8, h256, hle⟩ => ⟨h8, h256, hle⟩, fun ⟨h8, h256, hle⟩ => ⟨by omega, h8, h256, hle⟩⟩
        · simp only [if_neg h2, reduceCtorEq, false_implies, and_true]
          exact ⟨fun ⟨h8, hle, _, _⟩ => ⟨by omega, h8⟩, fun ⟨hpos, h8⟩ => ⟨h8, Nat.le_of_dvd hpos h8, by omega, le_refl _⟩⟩

end

/-! ## Hex literals of a size -/

/-- The text of a hex literal: `0x`, a digit, and digits with underscores -/
def IsHexNumber (text : Text) : Prop :=
  ∃ body : Text, text = '0' :: 'x' :: body ∧ ∀ ch ∈ body, isHexdigitOrSeparator ch = true

def hexDigits (text : Text) : Text := (List.drop 2 text).filter (· ≠ '_')

/-- The number of bytes of a type. Addresses are given on one target only. -/
def Ty.byteLength : Ty → Nat
  | .uint w => w / 8
  | .int w => w / 8
  | .bytes n => n
  | .address _ => 20
  | _ => 0

/-- As many digits as a target `bytesN` has, or no target and up to the digits of 32 bytes, such as the
40 of an address -/
def Sized (resolveTo : ResolveTo) (digits : Nat) : Prop :=
  (∃ k, resolveTo = .type (.bytes k) ∧ digits = 2 * k) ∨ (Untyped resolveTo ∧ digits % 2 = 0 ∧ digits ≤ 64)

section

variable {loc : Loc} {ns : Namespace} {resolveTo : ResolveTo} {text : Text} {ty : Ty} {value : Int}

theorem hexNumber_sized (hsized : Sized resolveTo (hexDigits text).length)
    (h : hexNumber loc text ns resolveTo = some (.ok (.numberLiteral loc ty value))) :
    ty.byteLength = (hexDigits text).length / 2 := by
  obtain ⟨val, hval, h⟩ := Option.bind_eq_some_iff.mp h
  rcases hsized with ⟨k, rfl, hk⟩ | ⟨hun, h2, h64⟩
  · simp only [hexDigits] at hk ⊢
    simp only at h
    split at h
    · cases h
    · cases h
      show k = _
      omega
  · have hbig : bigintToExpression loc val ns resolveTo (some (hexDigits text).length) =
        .ok (.numberLiteral loc ty value) := by
      cases resolveTo with
      | type ty' =>
        obtain rfl := hun ty' rfl
        exact Option.some.inj h
      | _ => exact Option.some.inj h
    rw [bigintToExpression_untyped hun, if_neg (by omega)] at hbig
    split at hbig
    · cases hbig
    · cases hbig
      rw [intSize_some (by omega), if_pos h2]
      show _ / 8 = _
      omega

theorem size_hexSeparated {body : Text} (h : ∀ ch ∈ body, isHexdigitOrSeparator ch = true) :
    body.size = body.length := by
  induction body with
  | nil => rfl
  | cons ch body ih =>
    rw [Text.size_cons, Parser.utf8Size_hexSeparated (h ch List.mem_cons_self),
      ih fun c hc => h c (List.mem_cons_of_mem _ hc), List.length_cons, Nat.add_comm]

theorem hexNumberLiteral_sized (htext : IsHexNumber text) (hsized : Sized resolveTo (hexDigits text).length)
    (h : hexNumberLiteral loc text ns resolveTo = some (.ok (.numberLiteral loc ty value))) :
    ty.byteLength = (hexDigits text).length / 2 := by
  unfold hexNumberLiteral at h
  split at h
  · rename_i haddress
    obtain ⟨-, hsep, hsize⟩ := haddress
    obtain ⟨body, rfl, hbody⟩ := htext
    have hdigits : hexDigits ('0' :: 'x' :: body) = body :=
      List.filter_eq_self.mpr fun ch hch => decide_eq_true fun h => hsep (h ▸ List.mem_of_mem_drop hch)
    simp only [Text.size_cons, size_hexSeparated hbody] at hsize
    have hlen : body.length = 40 := by
      have h0 : '0'.utf8Size = 1 := by decide
      have hx : 'x'.utf8Size = 1 := by decide
      omega
    simp only at h
    split at h
    · split at h
      · obtain ⟨v, -, hv⟩ := Option.bind_eq_some_iff.mp h
        cases hv
        rw [hdigits, hlen]
        rfl
      · cases h
    · split at h
      · cases h
      · exact hexNumber_sized hsized h
  · exact hexNumber_sized hsized h

end

/-- Without a target type a number gets a fitting type exactly under the condition, and the type of
a hex literal of a size has as many bytes as are written. -/
theorem literal_type_iff (loc : Loc) (n : Int) (ns : Namespace) (resolveTo : ResolveTo) (hexStrLen : Option Nat)
    (h : Untyped resolveTo) :
    (FittingType n hexStrLen (bigintToExpression loc n ns resolveTo hexStrLen) ↔ TypeFits n hexStrLen) ∧
      ∀ text target ty value, IsHexNumber text → Sized target (hexDigits text).length →
        hexNumberLiteral loc text ns target = some (.ok (.numberLiteral loc ty value)) →
          ty.byteLength = (hexDigits text).length / 2 :=
  ⟨fittingType_iff h, fun _ _ _ _ htext hsized heq => hexNumberLiteral_sized htext hsized heq⟩

namespace Sample

def someNs : Namespace := ⟨.solana, fun _ => "", fun _ => []⟩

theorem literal_type_iff_minus_one :
    FittingType (-1) none (bigintToExpression ⟨0, 0⟩ (-1) someNs .unknown none) :=
  (literal_type_iff ⟨0, 0⟩ (-1) someNs .unknown none fun _ h => by cases h).1.mpr fun k _ _ => Or.inr (by
    have : (0 : Int) < 2 ^ (8 * k - 1) := pow_pos (by decide) _
    omega)

/-- The number is given the type `int8`. -/
theorem minus_129_is_int8 :
    bigintToExpression ⟨0, 0⟩ (-129) someNs .unknown none = .ok (.numberLiteral ⟨0, 0⟩ (.int 8) (-129)) ∧
      ¬ FittingType (-129) none (bigintToExpression ⟨0, 0⟩ (-129) someNs .unknown none) := by
  have hbits : bitsOf (-129) = 8 := by
    have h8 := (bitsOf_le_of_neg (n := -129) (k := 8) (by decide)).mpr (by decide)
    have h7 := mt (bitsOf_le_of_neg (n := -129) (k := 7) (by decide)).mp (by decide)
    omega
  have hty : bigintToExpression ⟨0, 0⟩ (-129) someNs .unknown none = .ok (.numberLiteral ⟨0, 0⟩ (.int 8) (-129)) := by
    rw [bigintToExpression_untyped (fun _ h => by cases h), hbits]
    rfl
  refine ⟨hty, ?_⟩
  rw [hty]
  rintro ⟨-, ⟨-, -, -, hlow, -⟩, -⟩
  exact absurd hlow (by decide)

end Sample

end Solang.Sema.Literals
