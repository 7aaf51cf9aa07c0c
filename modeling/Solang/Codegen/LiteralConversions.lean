import Solang.Codegen.ConversionsSound

/-!
# Conversions of number literals

A literal converts to an integer type when the bits of its magnitude are fewer than those of the type. There is no
implicit conversion to an address, and an explicit one keeps a negative number as it is. The code generator changes
the type and not the value, which is what the value is converted to at run time.
-/

namespace Solang.Conversions

variable {ns : Namespace} {source target : Ty} {value : Int} {n w : Nat}

/-! ## Ranges -/

/-- The integers and addresses -/
def Ty.IsNumber : Ty → Prop
  | .uint _ => True
  | .int _ => True
  | .address _ => True
  | _ => False

/-- The values of a type -/
def InRange (ns : Namespace) (ty : Ty) (value : Int) : Prop :=
  if ty.isSigned then -2 ^ (ty.bits ns - 1) ≤ value ∧ value < 2 ^ (ty.bits ns - 1)
  else 0 ≤ value ∧ value < 2 ^ ty.bits ns

/-- The magnitude leaves the top bit of the type, and an integer without a sign is not negative. -/
def Inside (ns : Namespace) (ty : Ty) (value : Int) : Prop :=
  ty.isInteger = true ∧ value.natAbs < 2 ^ (ty.bits ns - 1) ∧ (ty.isSigned = false → 0 ≤ value)

/-- What a literal can be after an explicit conversion: negative for an address, where it is the two's complement -/
def Representable (ns : Namespace) (ty : Ty) (value : Int) : Prop :=
  if ty.isInteger then InRange ns ty value else value.natAbs < 2 ^ ty.bits ns

theorem natAbs_lt_iff (hw : 0 < w) : ¬ w ≤ bitLength value ↔ value.natAbs < 2 ^ (w - 1) := by
  unfold bitLength
  rw [Nat.not_le, ← Nat.size_le]
  omega

theorem Inside.inRange (hpos : 0 < target.bits ns) (h : Inside ns target value) : InRange ns target value := by
  obtain ⟨_, hlt, hsign⟩ := h
  have hcast : ((2 ^ (target.bits ns - 1) : Nat) : Int) = 2 ^ (target.bits ns - 1) := Int.natCast_pow 2 _
  unfold InRange
  split
  · omega
  · rename_i hunsigned
    have hnonneg := hsign (Bool.eq_false_iff.mpr hunsigned)
    have hdouble : (2 : Int) ^ target.bits ns = 2 * 2 ^ (target.bits ns - 1) := by
      rw [← pow_succ', Nat.sub_add_cancel hpos]
    omega

/-! ## Negative literals -/

theorem pow_256 (k : Nat) : (256 : Int) ^ k = 2 ^ (8 * k) := by
  rw [pow_mul]
  rfl

theorem neg_le_signed_bytes (value : Int) : -(256 : Int) ^ (bitLength (value + 1) / 8 + 1) ≤ value := by
  have hsize : (value + 1).natAbs < 2 ^ (8 * (bitLength (value + 1) / 8 + 1)) := by
    rw [← Nat.size_le]
    unfold bitLength
    omega
  have hcast : ((2 ^ (8 * (bitLength (value + 1) / 8 + 1)) : Nat) : Int) =
    2 ^ (8 * (bitLength (value + 1) / 8 + 1)) := Int.natCast_pow 2 _
  rw [pow_256]
  omega

section Bytes

open Codegen.Encoding (littleEndian toLittleEndian length_toLittleEndian littleEndian_toLittleEndian
  littleEndian_takeD_zero littleEndian_takeD_ones)

theorem littleEndian_signed_bytes (count : Nat) (value : Int) :
    (littleEndian (toLittleEndian count (value % 256 ^ count).toNat) : Int) = value % 256 ^ count := by
  have hpos : (0 : Int) < 256 ^ count := pow_pos (by decide) count
  have hcast : ((256 ^ count : Nat) : Int) = 256 ^ count := Int.natCast_pow 256 count
  rw [littleEndian_toLittleEndian, Int.natCast_emod, Int.toNat_of_nonneg (Int.emod_nonneg _ hpos.ne'), hcast,
    Int.emod_emod]

/-- The bytes of a negative literal, resized, are those of the integer modulo the width. -/
theorem reencode_eq (hv : value < 0) (hw : 8 ∣ w) : reencode value w = value % 2 ^ w := by
  obtain ⟨k, rfl⟩ := hw
  have hbytes := littleEndian_signed_bytes (bitLength (value + 1) / 8 + 1) value
  have hlow := neg_le_signed_bytes value
  unfold reencode toSignedBytesLe
  simp only [if_pos hv, Nat.mul_div_cancel_left k (by decide : 0 < 8)]
  generalize hcount : bitLength (value + 1) / 8 + 1 = count at hbytes hlow
  have hlen := length_toLittleEndian count (value % 256 ^ count).toNat
  generalize toLittleEndian count (value % 256 ^ count).toNat = bytes at hbytes hlen ⊢
  rw [← pow_256]
  by_cases hle : count ≤ k
  · -- padded with ones
    have hones := littleEndian_takeD_ones (hlen.trans_le hle)
    have hwide : (256 : Int) ^ count ≤ 256 ^ k := pow_le_pow_right₀ (by decide) hle
    have hcast : ((256 ^ count : Nat) : Int) = 256 ^ count := Int.natCast_pow 256 count
    have hcast' : ((256 ^ k : Nat) : Int) = 256 ^ k := Int.natCast_pow 256 k
    have hmod : value % 256 ^ count = value + 256 ^ count := by
      rw [← Int.add_emod_right, Int.emod_eq_of_lt (by omega) (by omega)]
    have hmod' : value % 256 ^ k = value + 256 ^ k := by
      rw [← Int.add_emod_right, Int.emod_eq_of_lt (by omega) (by omega)]
    rw [hlen] at hones
    rw [hmod']
    rw [hmod] at hbytes
    omega
  · -- cut
    have hdvd : (256 : Int) ^ k ∣ 256 ^ count := pow_dvd_pow 256 (by omega)
    have hcast : ((256 ^ k : Nat) : Int) = 256 ^ k := Int.natCast_pow 256 k
    rw [List.takeD_eq_take _ (by omega), ← List.takeD_eq_take 0 (by omega), littleEndian_takeD_zero, Int.natCast_emod,
      hbytes, hcast, Int.emod_emod_of_dvd _ hdvd]

end Bytes

/-! ## Casts -/

theorem castLiteral_implicit {expr : CastExpr} (htarget : target.Valid ns) (hnumber : target.IsNumber)
    (h : castLiteral ns true source value target = .ok expr) : (source = target ∧ expr = .operand) ∨
      (target.isInteger = true ∧ expr = .numberLiteral target value ∧ InRange ns target value) := by
  have hpos := htarget.bits_pos
  by_cases heq : source = target
  · have hcode : castLiteral ns true source value target = .ok .operand := if_pos heq
    exact .inl ⟨heq, (Except.ok.inj (hcode.symm.trans h)).symm⟩
  · unfold castLiteral at h
    rw [if_neg heq] at h
    right
    cases hprimitive : source.isPrimitive with
    | false =>
      -- An enum is not converted implicitly.
      cases source with
      | enum no =>
        cases target with
        | uint w | int w => cases h
        | address payable => cases h
        | _ => exact hnumber.elim
      | _ => cases hprimitive
    | true =>
      cases target with
      | uint w =>
        rw [hprimitive] at h
        dsimp only at h
        split at h
        · cases h
        · split at h
          · cases h
          · rename_i hsign hbits
            have hinside : Inside ns (.uint w) value := ⟨rfl, (natAbs_lt_iff hpos).mp hbits, fun _ => by omega⟩
            exact ⟨rfl, (Except.ok.inj h).symm, hinside.inRange hpos⟩
      | int w =>
        rw [hprimitive] at h
        dsimp only at h
        split at h
        · cases h
        · rename_i hbits
          have hinside : Inside ns (.int w) value := ⟨rfl, (natAbs_lt_iff hpos).mp hbits, fun h => nomatch h⟩
          exact ⟨rfl, (Except.ok.inj h).symm, hinside.inRange hpos⟩
      | address payable =>
        rw [hprimitive] at h
        cases h
      | _ => exact hnumber.elim

theorem castLiteral_inside (implicit : Bool) (htarget : target.Valid ns) (hnumber : target.IsNumber)
    (hne : source ≠ target) (hprimitive : source.isPrimitive = true) (h : Inside ns target value) :
    castLiteral ns implicit source value target = .ok (.numberLiteral target value) := by
  have hpos := htarget.bits_pos
  obtain ⟨hinteger, hlt, hsign⟩ := h
  unfold castLiteral
  rw [if_neg hne, hprimitive]
  cases target with
  | uint w =>
    have hnonneg := hsign rfl
    exact (if_neg (by omega)).trans (if_neg ((natAbs_lt_iff hpos).mpr hlt))
  | int w => exact if_neg ((natAbs_lt_iff hpos).mpr hlt)
  | address payable => cases hinteger
  | _ => exact hnumber.elim

theorem castLiteral_explicit {expr : CastExpr} (htarget : target.Valid ns) (hnumber : target.IsNumber)
    (hprimitive : source.isPrimitive = true) (h : castLiteral ns false source value target = .ok expr) :
    (source = target ∧ expr = .operand) ∨ ∃ number, expr = .numberLiteral target number ∧
      number ≡ value [ZMOD 2 ^ target.bits ns] ∧ Representable ns target number := by
  have hpos := htarget.bits_pos
  by_cases heq : source = target
  · have hcode : castLiteral ns false source value target = .ok .operand := if_pos heq
    exact .inl ⟨heq, (Except.ok.inj (hcode.symm.trans h)).symm⟩
  · unfold castLiteral at h
    rw [if_neg heq, hprimitive] at h
    right
    cases target with
    | uint w =>
      dsimp only at h
      split at h
      · rename_i hneg
        have hmod := reencode_eq hneg htarget.2
        have hpow : (0 : Int) < 2 ^ w := by positivity
        refine ⟨_, (ok_of_explicitly h).symm, ?_, ?_⟩
        · rw [hmod]
          exact Int.mod_modEq value _
        · rw [hmod]
          exact ⟨Int.emod_nonneg _ hpow.ne', Int.emod_lt_of_pos _ hpow⟩
      · split at h
        · cases h
        · rename_i hsign hbits
          have hinside : Inside ns (.uint w) value := ⟨rfl, (natAbs_lt_iff hpos).mp hbits, fun _ => by omega⟩
          exact ⟨value, (Except.ok.inj h).symm, rfl, hinside.inRange hpos⟩
    | int w =>
      dsimp only at h
      split at h
      · cases h
      · rename_i hbits
        have hinside : Inside ns (.int w) value := ⟨rfl, (natAbs_lt_iff hpos).mp hbits, fun h => nomatch h⟩
        exact ⟨value, (Except.ok.inj h).symm, rfl, hinside.inRange hpos⟩
    | address payable =>
      dsimp only at h
      rw [if_neg Bool.false_ne_true] at h
      split at h
      · cases h
      · rename_i hbits
        have hlt : value.natAbs < 2 ^ (ns.addressLength * 8) := Nat.size_le.mp (Nat.not_lt.mp hbits)
        exact ⟨value, (Except.ok.inj h).symm, rfl, hlt⟩
    | _ => exact hnumber.elim

/-! ## Literals at run time -/

/-- The pattern of a literal -/
def pattern (ns : Namespace) (ty : Ty) (value : Int) : Nat := (value % 2 ^ ty.bits ns).toNat

theorem pattern_lt (ty : Ty) (value : Int) : pattern ns ty value < 2 ^ ty.bits ns := by
  have hpow : (0 : Int) < 2 ^ ty.bits ns := by positivity
  have hlt := Int.emod_lt_of_pos value hpow
  have hnonneg := Int.emod_nonneg value hpow.ne'
  have hcast : ((2 ^ ty.bits ns : Nat) : Int) = 2 ^ ty.bits ns := Int.natCast_pow 2 _
  unfold pattern
  omega

/-- A pattern of a value of the type stands for it. -/
theorem read_pattern {ty : Ty} (hpos : 0 < ty.bits ns) (h : InRange ns ty value) :
    ty.read ns (pattern ns ty value) = value := by
  have hdouble : (2 : Int) ^ ty.bits ns = 2 * 2 ^ (ty.bits ns - 1) := by
    rw [← pow_succ', Nat.sub_add_cancel hpos]
  have hhalf : ((2 ^ (ty.bits ns - 1) : Nat) : Int) = 2 ^ (ty.bits ns - 1) := Int.natCast_pow 2 _
  have hpow : (0 : Int) < 2 ^ (ty.bits ns - 1) := by positivity
  unfold InRange at h
  unfold Ty.read pattern
  cases hsigned : ty.isSigned with
  | false =>
    rw [hsigned] at h
    rw [if_neg fun h => Bool.false_ne_true h.1, Int.emod_eq_of_lt h.1 h.2]
    exact Int.toNat_of_nonneg h.1
  | true =>
    rw [if_pos hsigned] at h
    by_cases hneg : value < 0
    · have hmod : value % 2 ^ ty.bits ns = value + 2 ^ ty.bits ns := by
        rw [← Int.add_emod_right, Int.emod_eq_of_lt (by omega) (by omega)]
      rw [hmod, if_pos ⟨rfl, by omega⟩]
      omega
    · rw [Int.emod_eq_of_lt (by omega) (by omega), if_neg (by omega)]
      omega

/-- The literal that the code generator makes is the meaning of the conversion. -/
theorem eval_castLiteralCodegen (hsource : source.Valid ns) (htarget : target.Valid ns) (hnumber : target.IsNumber)
    (hprimitive : source.isPrimitive = true) (hne : source ≠ target) (h : InRange ns source value) :
    (castLiteralCodegen ns source value target).eval ns source (pattern ns source value) =
      .value (converted ns source target (pattern ns source value)) := by
  have hmeaning : converted ns source target (pattern ns source value) = (value % 2 ^ target.bits ns).toNat := by
    rw [converted_eq_read, read_pattern hsource.bits_pos h]
    rintro n m _ rfl
    exact hnumber
  rw [hmeaning]
  unfold castLiteralCodegen
  rw [if_neg hne, hprimitive]
  cases target with
  | uint w =>
    show Outcome.value ((if value < 0 then reencode value w else value) % 2 ^ w).toNat = _
    split
    · rename_i hneg
      rw [reencode_eq hneg htarget.2, Int.emod_emod]
      rfl
    · rfl
  | int w => rfl
  | address payable => rfl
  | _ => exact hnumber.elim

/-- Literals in sema, implicitly and explicitly, and in the code generator -/
theorem literals_convert {expr expr' : CastExpr} (hsource : source.Valid ns) (htarget : target.Valid ns)
    (hnumber : target.IsNumber) :
    (castLiteral ns true source value target = .ok expr → (source = target ∧ expr = .operand) ∨
      (target.isInteger = true ∧ expr = .numberLiteral target value ∧ InRange ns target value)) ∧
    (source ≠ target → source.isPrimitive = true → Inside ns target value →
      castLiteral ns true source value target = .ok (.numberLiteral target value)) ∧
    (source.isPrimitive = true → castLiteral ns false source value target = .ok expr →
      (source = target ∧ expr = .operand) ∨ ∃ number, expr = .numberLiteral target number ∧
        number ≡ value [ZMOD 2 ^ target.bits ns] ∧ Representable ns target number) ∧
    (InRange ns source value → castTypes ns none false source target = .ok expr' →
      CodegenExact ns source target (pattern ns source value) →
        (castLiteralCodegen ns source value target).eval ns source (pattern ns source value) =
          (castCodegen ns source target).eval ns source (pattern ns source value)) := by
  refine ⟨castLiteral_implicit htarget hnumber,
    fun hne hprimitive h => castLiteral_inside true htarget hnumber hne hprimitive h,
    castLiteral_explicit htarget hnumber, fun hrange haccepted hexact => ?_⟩
  rw [(castCodegen_iff hsource htarget (pattern_lt source value) haccepted).mpr hexact]
  by_cases heq : source = target
  · have hcode : castLiteralCodegen ns source value target = .operand := if_pos heq
    rw [hcode, ← heq, converted_self (pattern_lt source value)]
    rfl
  · cases hprimitive : source.isPrimitive with
    | true => exact eval_castLiteralCodegen hsource htarget hnumber hprimitive heq hrange
    | false =>
      -- A literal of an enum is converted as any other expression.
      have hcode : castLiteralCodegen ns source value target = castCodegen ns source target := by
        unfold castLiteralCodegen
        rw [if_neg heq, hprimitive]
      rw [hcode, (castCodegen_iff hsource htarget (pattern_lt source value) haccepted).mpr hexact]

namespace Sample

/-- `int16` of `-5`, and `uint8` of it -/
theorem literals_convert_negative :
    castLiteral evm true (.int 8) (-5) (.int 16) = .ok (.numberLiteral (.int 16) (-5)) :=
  (@literals_convert evm (.int 8) (.int 16) (-5) .operand .operand ⟨by decide, by decide⟩ ⟨by decide, by decide⟩
    trivial).2.1 (by decide) rfl ⟨rfl, by decide, fun h => nomatch h⟩

/-- Zero is an address, and not converted to one implicitly. -/
theorem zero_is_no_address : ¬ ∀ (ns : Namespace) (source target : Ty) (value : Int), source.Valid ns →
    target.Valid ns → target.IsNumber → InRange ns source value →
      ((∃ expr, castLiteral ns true source value target = .ok expr) ↔ InRange ns target value) := by
  intro hall
  have h := (hall evm (.uint 8) (.address false) 0 ⟨by decide, by decide⟩ (by decide : 0 < 20) trivial
    ⟨by decide, by decide⟩).mpr ⟨by decide, by decide⟩
  obtain ⟨expr, hexpr⟩ := h
  cases hexpr

end Sample

end Solang.Conversions
