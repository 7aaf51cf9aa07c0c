import Solang.Stdlib.BigIntDiv

/-!
# Signed wide division

The unsigned division of the absolute values. The least value is its own negation, and its absolute
value as an unsigned number.
-/

namespace Solang.Stdlib.BigInt

section Signed

variable {w : Nat}

theorem isNegative_eq_msb (hw : 8 ≤ w) (x : BitVec w) : isNegative x = x.msb := by
  have hlt : x.toNat / 2 ^ (w - 8) < 2 ^ 8 := by
    refine (Nat.div_lt_iff_lt_mul (Nat.two_pow_pos _)).mpr ?_
    rw [← Nat.pow_add, Nat.add_sub_cancel' hw]
    exact x.isLt
  have hpow : 2 ^ (w - 1) = 128 * 2 ^ (w - 8) := by
    rw [show w - 1 = 7 + (w - 8) by omega, Nat.pow_add]
  unfold isNegative
  rw [BitVec.toNat_setWidth, toNat_shiftRight, Nat.mod_eq_of_lt hlt, BitVec.msb_eq_decide, hpow]
  exact decide_eq_decide.mpr (Nat.le_div_iff_mul_le (Nat.two_pow_pos _))

theorem absolute_eq_zero {x : BitVec w} : absolute x = 0 ↔ x = 0 := by
  unfold absolute
  split
  · exact BitVec.neg_eq_zero_iff
  · exact Iff.rfl

variable {dividend divisor : BitVec w} {d : DivMod w}

/-- The signs are those of the signed operations. -/
theorem Divides.signed (hw : 8 ≤ w) (h : Divides (absolute dividend) (absolute divisor) d) :
    d.signed dividend divisor = ⟨dividend.srem divisor, dividend.sdiv divisor⟩ := by
  rw [h.eq_div]
  unfold DivMod.signed absolute
  rw [isNegative_eq_msb hw, isNegative_eq_msb hw, BitVec.srem_eq, BitVec.sdiv_eq]
  cases dividend.msb <;> cases divisor.msb <;> rfl

/-- Division of two's complement numbers, truncated towards zero -/
structure SignedDivides (dividend divisor : BitVec w) (d : DivMod w) : Prop where
  quotient : d.quotient = BitVec.ofInt w (dividend.toInt.tdiv divisor.toInt)
  nonneg : 0 ≤ dividend.toInt → 0 ≤ d.remainder.toInt
  nonpos : dividend.toInt ≤ 0 → d.remainder.toInt ≤ 0
  lt : d.remainder.toInt.natAbs < divisor.toInt.natAbs
  eq : dividend = d.quotient * divisor + d.remainder

theorem signedDivides (hd : divisor ≠ 0) :
    SignedDivides dividend divisor ⟨dividend.srem divisor, dividend.sdiv divisor⟩ := by
  have hne : divisor.toInt ≠ 0 := by
    rw [← BitVec.toInt_zero (w := w)]
    exact fun h0 => hd (BitVec.toInt_inj.mp h0)
  have hquot : dividend.sdiv divisor = BitVec.ofInt w (dividend.toInt.tdiv divisor.toInt) := by
    refine BitVec.toInt_inj.mp ?_
    rw [BitVec.toInt_sdiv, BitVec.toInt_ofInt]
  have hrem : dividend.srem divisor = BitVec.ofInt w (dividend.toInt.tmod divisor.toInt) := by
    rw [← BitVec.toInt_srem, BitVec.ofInt_toInt]
  constructor
  · exact hquot
  · intro h
    rw [BitVec.toInt_srem]
    exact Int.tmod_nonneg _ h
  · intro h
    rw [BitVec.toInt_srem]
    have := Int.tmod_nonneg divisor.toInt (Int.neg_nonneg_of_nonpos h)
    rw [Int.neg_tmod] at this
    omega
  · rw [BitVec.toInt_srem, Int.natAbs_tmod]
    exact Nat.mod_lt _ (Int.natAbs_pos.mpr hne)
  · calc dividend = BitVec.ofInt w (dividend.toInt.tdiv divisor.toInt * divisor.toInt
            + dividend.toInt.tmod divisor.toInt) := by
          rw [Int.add_comm, Int.tmod_add_tdiv_mul, BitVec.ofInt_toInt]
      _ = dividend.sdiv divisor * divisor + dividend.srem divisor := by
          rw [BitVec.ofInt_add, BitVec.ofInt_mul, BitVec.ofInt_toInt, hquot, hrem]

/-- What the signed divisions return, from what the unsigned ones do -/
theorem Returns.signed {o : Option (DivMod w)} (hw : 8 ≤ w) (hd : divisor ≠ 0)
    (h : Returns (absolute dividend) (absolute divisor) o) :
    ∃ d, o.map (·.signed dividend divisor) = some d ∧ SignedDivides dividend divisor d := by
  cases o with
  | none => exact absurd (absolute_eq_zero.mp (h.none_iff.mp rfl)) hd
  | some d =>
    refine ⟨d.signed dividend divisor, rfl, ?_⟩
    rw [(h.divides d rfl).signed hw]
    exact signedDivides hd

theorem sdivmodWide_signed {bits : BitVec w → Nat} (hbits : ∀ v : BitVec w, v ≠ 0 → bits v = v.toNat.log2)
    (hw : 8 ≤ w) (hd : divisor ≠ 0) :
    ∃ d, Fuel.Settles (fun fuel => (udivmodWide bits fuel (absolute dividend) (absolute divisor)).map
      (·.map (·.signed dividend divisor))) (some d) ∧ SignedDivides dividend divisor d := by
  obtain ⟨o, ⟨n, hn⟩, ho⟩ := udivmodWide_returns hbits (absolute dividend) (absolute divisor)
  obtain ⟨d, hmap, hsigned⟩ := ho.signed hw hd
  refine ⟨d, ⟨n, fun fuel hfuel => ?_⟩, hsigned⟩
  dsimp only at hn ⊢
  rw [hn fuel hfuel, Option.map_some, hmap]

end Signed

/-- The signed divisions, of every dividend by every divisor but zero -/
theorem sdivmod_correct :
    (∀ dividend divisor : BitVec 128, divisor ≠ 0 →
      ∃ d, sdivmod128 dividend divisor = some d ∧ SignedDivides dividend divisor d) ∧
    (∀ dividend divisor : BitVec 256, divisor ≠ 0 →
      ∃ d, Fuel.Settles (fun fuel => sdivmod256 fuel dividend divisor) (some d) ∧
        SignedDivides dividend divisor d) ∧
    (∀ dividend divisor : BitVec 512, divisor ≠ 0 →
      ∃ d, Fuel.Settles (fun fuel => sdivmod512 fuel dividend divisor) (some d) ∧
        SignedDivides dividend divisor d) := by
  refine ⟨fun dividend divisor hd => ?_, fun dividend divisor hd => ?_, fun dividend divisor hd => ?_⟩
  · exact (udivmod128_returns (absolute dividend) (absolute divisor)).signed (by decide) hd
  · exact sdivmodWide_signed (fun _ => bits256_eq_log2) (by decide) hd
  · exact sdivmodWide_signed (fun _ => bits512_eq_log2) (by decide) hd

end Solang.Stdlib.BigInt
