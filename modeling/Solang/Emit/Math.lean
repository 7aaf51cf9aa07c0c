import Solang.Lib.Llvm
import Solang.Stdlib.BigIntMul

/-!
# Multiplication and powers

`emit/math.rs`: the code that `multiply` and `power` emit, as it runs. An integer wider than 32 bits is
multiplied in memory, by `__mul32` and `__mul32_with_builtin_ovf`.
-/

namespace Solang.Emit.Math

open Llvm Stdlib.BigInt

/-! ## Integers in memory -/

/-- The words of 32 bits of an integer in memory -/
def storeWords {w : Nat} (x : BitVec w) : List (BitVec 32) :=
  (List.range (w / 32)).map fun i => x.extractLsb' (32 * i) 32

def loadWords (w : Nat) (words : List (BitVec 32)) : BitVec w :=
  BitVec.ofNat w (Nat.ofDigits (2 ^ 32) (words.map BitVec.toNat))

/-- The call of `__mul32_with_builtin_ovf`, and the load of what it writes -/
def callMul32WithBuiltinOvf {w : Nat} (l r : BitVec w) : Outcome (BitVec w × Bool) :=
  match mul32WithBuiltinOvf (storeWords l) (storeWords r) (w / 32) with
  | some (o, returnVal) => .value (loadWords w o, returnVal)
  | none => .undefined

section Multiply

variable {bits : Nat}

/-- The number of bits, rounded up to the next 32 -/
def mulBits (bits : Nat) : Nat := (bits + 31) / 32 * 32

/-- If the integers were extended: any of the bits that were added is set. -/
def ovfAny (bits : Nat) (res : BitVec (mulBits bits)) : Bool :=
  if mulBits bits ≠ bits then res >>> bits ≠ 0 else false

def extractSignBit {w : Nat} (operand : BitVec w) : Bool := (operand >>> (w - 1)).setWidth 1 = 1

/-- The selection between an integer and its negation -/
def negateIf {w : Nat} (negative : Bool) (x : BitVec w) : BitVec w := if negative then -x else x

def signedOvfDetect (left right : BitVec bits) : Outcome (BitVec bits) := do
  let leftNegative := left.slt 0
  let leftAbs := negateIf leftNegative left
  let rightNegative := right.slt 0
  let rightAbs := negateIf rightNegative right
  let (res, returnVal) ←
    callMul32WithBuiltinOvf (leftAbs.setWidth (mulBits bits)) (rightAbs.setWidth (mulBits bits))
  let ovfAnyType := ovfAny bits res
  let res := negateIf (leftNegative ^^ rightNegative) res
  let leftSignBit := extractSignBit left
  let rightSignBit := extractSignBit right
  let resSignBit := extractSignBit (res.setWidth bits)
  let valueFitsNBits := !(returnVal || ovfAnyType)
  let mulByZero := left == 0 || right == 0
  let differentSigns := leftSignBit ^^ rightSignBit
  let notOkOperation := !(differentSigns ^^ resSignBit)
  if (notOkOperation || mulByZero) && valueFitsNBits then .value (res.setWidth bits) else .abort

def callMul32WithoutOvf (l r : BitVec (mulBits bits)) : Outcome (BitVec bits) :=
  match mul32 (storeWords l) (storeWords r) (mulBits bits / 32) with
  | some o => .value ((loadWords (mulBits bits) o).setWidth bits)
  | none => .undefined

def buildBinaryOpWithOverflowCheck (left right : BitVec bits) (op : BinaryOp) (signed : Bool) :
    Outcome (BitVec bits) :=
  if op.overflows signed left right then .abort else .value (op.apply left right)

def multiply (unchecked : Bool) (left right : BitVec bits) (signed : Bool) : Outcome (BitVec bits) :=
  if 32 < bits then do
    let l := left.setWidth (mulBits bits)
    let r := right.setWidth (mulBits bits)
    if unchecked then callMul32WithoutOvf l r
    else if signed then signedOvfDetect left right
    else
      let (res, returnVal) ← callMul32WithBuiltinOvf l r
      if ovfAny bits res || returnVal then .abort else .value (res.setWidth bits)
  else if unchecked then .value (left * right)
  else buildBinaryOpWithOverflowCheck left right .multiply signed

end Multiply

section Power

variable {bits : Nat}

/-- The values of the loop's phis -/
structure PowerLoop (bits : Nat) where
  base : BitVec bits
  exp : BitVec bits
  result : BitVec bits

/-- The result in the block `nomultiply` -/
def PowerLoop.nomultiply (overflowing signed : Bool) (s : PowerLoop bits) : Outcome (BitVec bits) :=
  if s.exp.getLsbD 0 then multiply overflowing s.result s.base signed else pure s.result

/-- An iteration: what is stored, or the values for the next one -/
def PowerLoop.step (overflowing signed : Bool) (s : PowerLoop bits) :
    Outcome (BitVec bits ⊕ PowerLoop bits) := do
  let result ← s.nomultiply overflowing signed
  let exp := s.exp >>> 1
  if exp = 0 then pure (.inl result)
  else
    let base ← multiply overflowing s.base s.base signed
    pure (.inr ⟨base, exp, result⟩)

def PowerLoop.run (overflowing signed : Bool) : Nat → PowerLoop bits → Option (Outcome (BitVec bits))
  | 0, _ => none
  | fuel + 1, s =>
    match s.step overflowing signed with
    | .value (.inl result) => some (.value result)
    | .value (.inr s) => run overflowing signed fuel s
    | .abort => some .abort
    | .undefined => some .undefined

/-- The function that `power` emits. It returns what it stores. -/
def power (overflowing signed : Bool) (fuel : Nat) (base exp : BitVec bits) : Option (Outcome (BitVec bits)) :=
  PowerLoop.run overflowing signed fuel ⟨base, exp, 1⟩

end Power

end Solang.Emit.Math

/-!
## Multiplication is exact

An integer in memory is its words, so that the functions on words multiply the integers. The product of
the magnitudes fits in the bits of the operands when no flag is set, and then the sign bit of the result
tells if it fits with its sign.
-/

namespace Solang.Emit.Math

open Llvm Stdlib.BigInt

/-! ### Integers in memory -/

section Words

variable {w : Nat}

/-- The first words of an integer -/
theorem value_words (x : BitVec w) (n : Nat) :
    value ((List.range n).map fun i => x.extractLsb' (32 * i) 32) = x.toNat % (2 ^ 32) ^ n := by
  rw [value_eq_sum, List.length_map, List.length_range]
  have hdigit : ∀ i ∈ Finset.range n,
      digit ((List.range n).map fun i => x.extractLsb' (32 * i) 32) i * (2 ^ 32) ^ i =
        x.toNat / (2 ^ 32) ^ i % 2 ^ 32 * (2 ^ 32) ^ i := by
    intro i hi
    have hget : ((List.range n).map fun i => x.extractLsb' (32 * i) 32)[i]? =
        some (x.extractLsb' (32 * i) 32) := by
      rw [List.getElem?_map, List.getElem?_range (Finset.mem_range.mp hi), Option.map_some]
    rw [digit_of_getElem? hget, BitVec.extractLsb'_toNat, Nat.shiftRight_eq_div_pow, pow_mul]
  rw [Finset.sum_congr rfl hdigit]
  clear hdigit
  induction n with
  | zero => rw [Finset.sum_range_zero, pow_zero, Nat.mod_one]
  | succ n ih =>
    have hmod : x.toNat % (2 ^ 32) ^ (n + 1) =
        x.toNat % (2 ^ 32) ^ n + (2 ^ 32) ^ n * (x.toNat / (2 ^ 32) ^ n % 2 ^ 32) := Nat.mod_pow_succ
    rw [Finset.sum_range_succ, ih, hmod, Nat.mul_comm ((2 ^ 32) ^ n)]

variable {l r : BitVec w}

theorem value_storeWords (hw : 32 ∣ w) (x : BitVec w) : value (storeWords x) = x.toNat := by
  unfold storeWords
  rw [value_words, ← pow_mul, Nat.mul_div_cancel' hw, Nat.mod_eq_of_lt x.isLt]

theorem operands_storeWords (l r : BitVec w) : Operands (storeWords l) (storeWords r) (w / 32) := by
  constructor
  · rw [storeWords, List.length_map, List.length_range]
  · rw [storeWords, List.length_map, List.length_range]

theorem loadWords_of_value {words : List (BitVec 32)} (h : value words = l.toNat * r.toNat % 2 ^ w) :
    loadWords w words = l * r := by
  apply BitVec.eq_of_toNat_eq
  have hlt : value words < 2 ^ w := h ▸ Nat.mod_lt _ (Nat.two_pow_pos w)
  rw [BitVec.toNat_mul, ← h]
  exact (BitVec.toNat_ofNat _ _).trans (Nat.mod_eq_of_lt hlt)

variable (hw : 32 ∣ w) (hlt : w < 2 ^ 31)

include hw hlt

theorem callMul32WithBuiltinOvf_eq (l r : BitVec w) :
    callMul32WithBuiltinOvf l r = .value (l * r, decide (2 ^ w ≤ l.toNat * r.toNat)) := by
  obtain ⟨o, ho, -, hvalue⟩ := mul32WithBuiltinOvf_spec (operands_storeWords l r) (by omega)
  rw [value_storeWords hw, value_storeWords hw, ← pow_mul, Nat.mul_div_cancel' hw] at ho hvalue
  unfold callMul32WithBuiltinOvf
  rw [ho]
  dsimp only
  rw [loadWords_of_value hvalue]

theorem mul32_storeWords (l r : BitVec w) :
    ∃ o, mul32 (storeWords l) (storeWords r) (w / 32) = some o ∧ loadWords w o = l * r := by
  obtain ⟨o, ho, -, hvalue⟩ := mul32_spec (operands_storeWords l r) (by omega)
  rw [value_storeWords hw, value_storeWords hw, ← pow_mul, Nat.mul_div_cancel' hw] at hvalue
  exact ⟨o, ho, loadWords_of_value hvalue⟩

end Words

section Multiply

variable {bits : Nat}

theorem dvd_mulBits (bits : Nat) : 32 ∣ mulBits bits := Nat.dvd_mul_left _ _

theorem le_mulBits (bits : Nat) : bits ≤ mulBits bits := by
  unfold mulBits
  omega

theorem mulBits_lt (h : bits < 2 ^ 16) : mulBits bits < 2 ^ 31 := by
  unfold mulBits
  omega

theorem extractSignBit_eq_msb (x : BitVec bits) : extractSignBit x = x.msb := by
  have hlt := x.isLt
  unfold extractSignBit
  rw [BitVec.msb_eq_decide, decide_eq_decide, ← BitVec.toNat_inj, BitVec.toNat_setWidth,
    BitVec.toNat_ushiftRight, Nat.shiftRight_eq_div_pow]
  have hpow : 2 ^ bits ≤ 2 * 2 ^ (bits - 1) := by
    rw [← pow_succ']
    exact Nat.pow_le_pow_right (by decide) (by omega)
  have hdiv : x.toNat / 2 ^ (bits - 1) < 2 := (Nat.div_lt_iff_lt_mul (Nat.two_pow_pos _)).mpr (by omega)
  have hiff := Nat.le_div_iff_mul_le (Nat.two_pow_pos (bits - 1)) (x := 1) (y := x.toNat)
  rw [one_mul] at hiff
  rw [← hiff]
  generalize x.toNat / 2 ^ (bits - 1) = q at hdiv
  interval_cases q
  · simp
  · simp

/-- An extended integer is the same, so that the products are. -/
theorem toNat_extended (x : BitVec bits) : (x.setWidth (mulBits bits)).toNat = x.toNat := by
  rw [BitVec.toNat_setWidth]
  exact Nat.mod_eq_of_lt (x.isLt.trans_le (Nat.pow_le_pow_right (by decide) (le_mulBits bits)))

theorem setWidth_mul_extended (l r : BitVec bits) :
    (l.setWidth (mulBits bits) * r.setWidth (mulBits bits)).setWidth bits = l * r := by
  rw [BitVec.setWidth_mul _ _ (le_mulBits bits), BitVec.setWidth_setWidth_of_le _ (le_mulBits bits),
    BitVec.setWidth_setWidth_of_le _ (le_mulBits bits), BitVec.setWidth_eq, BitVec.setWidth_eq]

/-- No flag is set when the product fits in the bits of the operands. -/
theorem flags_eq (l r : BitVec bits) :
    (decide (2 ^ mulBits bits ≤ l.toNat * r.toNat) ||
      ovfAny bits (l.setWidth (mulBits bits) * r.setWidth (mulBits bits))) =
      decide (2 ^ bits ≤ l.toNat * r.toNat) := by
  have hpow : 2 ^ bits ≤ 2 ^ mulBits bits := Nat.pow_le_pow_right (by decide) (le_mulBits bits)
  unfold ovfAny
  by_cases hsame : mulBits bits = bits
  · rw [if_neg (not_not.mpr hsame), Bool.or_false, hsame]
  · rw [if_pos hsame]
    by_cases hle : 2 ^ mulBits bits ≤ l.toNat * r.toNat
    · rw [decide_eq_true hle, decide_eq_true (hpow.trans hle), Bool.true_or]
    · have hprod : (l.setWidth (mulBits bits) * r.setWidth (mulBits bits)).toNat = l.toNat * r.toNat := by
        rw [BitVec.toNat_mul, toNat_extended, toNat_extended, Nat.mod_eq_of_lt (by omega)]
      rw [decide_eq_false hle, Bool.false_or, decide_eq_decide, ne_eq, ← BitVec.toNat_inj,
        BitVec.toNat_ushiftRight, hprod, Nat.shiftRight_eq_div_pow]
      have hzero : BitVec.toNat (0 : BitVec (mulBits bits)) = 0 := BitVec.toNat_zero
      rw [hzero, ← ne_eq, Nat.div_ne_zero_iff]
      simp

/-! ### Signs -/

theorem negateIf_abs (x : BitVec bits) : negateIf (x.slt 0) x = x.abs := by
  unfold negateIf BitVec.abs
  rw [← BitVec.slt_zero_eq_msb]
  rfl

theorem toNat_abs_eq_natAbs (x : BitVec bits) : x.abs.toNat = x.toInt.natAbs := by
  have hlt := x.isLt
  rw [BitVec.toNat_abs, BitVec.toInt_eq_msb_cond]
  split
  · omega
  · omega

theorem setWidth_negateIf {w : Nat} (h : bits ≤ w) (b : Bool) (x : BitVec w) :
    (negateIf b x).setWidth bits = negateIf b (x.setWidth bits) := by
  unfold negateIf
  split
  · exact BitVec.setWidth_neg_of_le h
  · rfl

theorem negateIf_mul_abs (l r : BitVec bits) : negateIf (l.msb ^^ r.msb) (l.abs * r.abs) = l * r := by
  unfold negateIf BitVec.abs
  cases l.msb <;> cases r.msb <;> simp

theorem msb_xor_iff {l r : BitVec bits} (hl : l ≠ 0) (hr : r ≠ 0) :
    (l.msb ^^ r.msb) = decide (l.toInt * r.toInt < 0) := by
  have hl' : l.toInt ≠ 0 := fun h => hl (BitVec.toInt_inj.mp (h.trans BitVec.toInt_zero.symm))
  have hr' : r.toInt ≠ 0 := fun h => hr (BitVec.toInt_inj.mp (h.trans BitVec.toInt_zero.symm))
  rw [BitVec.msb_eq_toInt, BitVec.msb_eq_toInt]
  rcases lt_or_gt_of_ne hl' with hl0 | hl0 <;> rcases lt_or_gt_of_ne hr' with hr0 | hr0
  · have hmul := mul_pos_of_neg_of_neg hl0 hr0
    simp [hl0, hr0, hmul.le]
  · have hmul := mul_neg_of_neg_of_pos hl0 hr0
    simp [hl0, hr0.le, hmul]
  · have hmul := mul_neg_of_pos_of_neg hl0 hr0
    simp [hl0.le, hr0, hmul]
  · have hmul := mul_pos hl0 hr0
    rw [decide_eq_false hl0.not_gt, decide_eq_false hr0.not_gt, decide_eq_false hmul.not_gt]
    rfl

theorem signedOvfDetect_eq (h : bits < 2 ^ 16) (hpos : 0 < bits) (l r : BitVec bits) :
    signedOvfDetect l r = exactly true bits (l.toInt * r.toInt) := by
  have hresult : negateIf (l.slt 0 ^^ r.slt 0) (l.abs * r.abs) = l * r := by
    have hl : l.slt 0 = l.msb := BitVec.slt_zero_eq_msb
    have hr : r.slt 0 = r.msb := BitVec.slt_zero_eq_msb
    rw [hl, hr, negateIf_mul_abs]
  have hflags := flags_eq l.abs r.abs
  have hprod : l.abs.toNat * r.abs.toNat = (l.toInt * r.toInt).natAbs := by
    rw [toNat_abs_eq_natAbs, toNat_abs_eq_natAbs, Int.natAbs_mul]
  rw [hprod] at hflags
  have hmul : l * r = BitVec.ofInt bits (l.toInt * r.toInt) := by
    rw [BitVec.ofInt_mul, BitVec.ofInt_toInt, BitVec.ofInt_toInt]
  unfold signedOvfDetect
  simp only [negateIf_abs, callMul32WithBuiltinOvf_eq (dvd_mulBits bits) (mulBits_lt h), Outcome.value_bind,
    toNat_extended, setWidth_negateIf (le_mulBits bits), setWidth_mul_extended, hresult,
    extractSignBit_eq_msb, hprod, hflags]
  unfold exactly
  rw [← hmul]
  refine if_congr ?_ rfl rfl
  rw [Bool.and_eq_true, Bool.not_eq_true', decide_eq_false_iff_not, not_le]
  by_cases hzero : l = 0 ∨ r = 0
  · -- a product with zero fits, whatever the sign of the other operand
    have hv : l.toInt * r.toInt = 0 := by
      rcases hzero with rfl | rfl <;> simp
    rw [hv]
    rcases hzero with rfl | rfl <;> simp [fits_signed]
  · rw [not_or] at hzero
    rw [msb_xor_iff hzero.1 hzero.2, hmul]
    simp only [beq_iff_eq, hzero.1, hzero.2, Bool.or_eq_true, or_self, or_false, Bool.not_eq_true',
      bne_eq_false_iff_eq]
    exact fits_iff_msb hpos

theorem callMul32WithoutOvf_eq (h : bits < 2 ^ 16) (l r : BitVec bits) :
    callMul32WithoutOvf (l.setWidth (mulBits bits)) (r.setWidth (mulBits bits)) = .value (l * r) := by
  obtain ⟨o, ho, hload⟩ := mul32_storeWords (dvd_mulBits bits) (mulBits_lt h) (l.setWidth (mulBits bits))
    (r.setWidth (mulBits bits))
  unfold callMul32WithoutOvf
  rw [ho]
  dsimp only
  rw [hload, setWidth_mul_extended]

theorem buildBinaryOpWithOverflowCheck_eq (op : BinaryOp) (signed : Bool) (l r : BitVec bits) :
    buildBinaryOpWithOverflowCheck l r op signed =
      exactly signed bits (op.meaning (read signed l) (read signed r)) := by
  unfold buildBinaryOpWithOverflowCheck exactly
  by_cases hovf : op.overflows signed l r = true
  · rw [if_pos hovf, if_neg ((op.overflows_iff signed l r).mp hovf)]
  · rw [if_neg hovf, if_pos (not_not.mp (mt (op.overflows_iff signed l r).mpr hovf)), ← op.apply_eq signed]

/-- A product that is checked -/
theorem multiply_checked (h : bits < 2 ^ 16) (hpos : 0 < bits) (signed : Bool) (l r : BitVec bits) :
    multiply false l r signed = exactly signed bits (read signed l * read signed r) := by
  unfold multiply
  by_cases hwide : 32 < bits
  · rw [if_pos hwide, if_neg Bool.false_ne_true]
    cases signed with
    | true =>
      rw [if_pos rfl]
      exact signedOvfDetect_eq h hpos l r
    | false =>
      have hmul : l * r = BitVec.ofInt bits (l.toNat * r.toNat) := by
        rw [BitVec.ofInt_mul, BitVec.ofInt_natCast, BitVec.ofInt_natCast, BitVec.ofNat_toNat, BitVec.ofNat_toNat,
          BitVec.setWidth_eq, BitVec.setWidth_eq]
      rw [if_neg Bool.false_ne_true, callMul32WithBuiltinOvf_eq (dvd_mulBits bits) (mulBits_lt h),
        Outcome.value_bind]
      dsimp only
      rw [toNat_extended, toNat_extended, Bool.or_comm, flags_eq, setWidth_mul_extended, hmul]
      unfold exactly
      rw [read_unsigned, read_unsigned]
      have hfits : Fits false bits (l.toNat * r.toNat) ↔ ¬ 2 ^ bits ≤ l.toNat * r.toNat := by
        rw [fits_unsigned, not_le]
        exact_mod_cast and_iff_right (Nat.zero_le _)
      by_cases hle : 2 ^ bits ≤ l.toNat * r.toNat
      · rw [decide_eq_true hle, if_pos rfl, if_neg (mt hfits.mp (not_not.mpr hle))]
      · rw [decide_eq_false hle, if_neg Bool.false_ne_true, if_pos (hfits.mpr hle)]
  · rw [if_neg hwide, if_neg Bool.false_ne_true]
    exact buildBinaryOpWithOverflowCheck_eq .multiply signed l r

/-- A product that wraps around -/
theorem multiply_unchecked (h : bits < 2 ^ 16) (signed : Bool) (l r : BitVec bits) :
    multiply true l r signed = .value (l * r) := by
  unfold multiply
  by_cases hwide : 32 < bits
  · rw [if_pos hwide, if_pos rfl]
    exact callMul32WithoutOvf_eq h l r
  · rw [if_neg hwide, if_pos rfl]

/-- Above 32 bits the product is that of the integers, modulo the width or if it is in the range. The
width of a type is of 16 bits. -/
theorem multiply_exact (bits : Nat) (hwide : 32 < bits) (h : bits < 2 ^ 16) (signed : Bool)
    (l r : BitVec bits) :
    (Fits signed bits (read signed l * read signed r) →
      ∃ res, multiply false l r signed = .value res ∧ read signed res = read signed l * read signed r) ∧
    (¬ Fits signed bits (read signed l * read signed r) → multiply false l r signed = .abort) ∧
    ∃ res, multiply true l r signed = .value res ∧
      read signed res ≡ read signed l * read signed r [ZMOD 2 ^ bits] := by
  have hpos : 0 < bits := by omega
  refine ⟨fun hfits => ?_, fun hfits => ?_, l * r, multiply_unchecked h signed l r, ?_⟩
  · refine ⟨_, ?_, read_ofInt hpos hfits⟩
    rw [multiply_checked h hpos, exactly_of_fits hfits]
  · rw [multiply_checked h hpos, exactly_of_not_fits hfits]
  · have hmul := BinaryOp.multiply.apply_eq signed l r
    exact congrArg (read signed) hmul ▸ read_ofInt_modEq signed _

/-- The least value of 72 bits by minus one -/
theorem multiply_exact_least : multiply false (BitVec.intMin 72) (-1) true = .abort :=
  (multiply_exact 72 (by decide) (by decide) true (BitVec.intMin 72) (-1)).2.1 (by decide)

end Multiply

end Solang.Emit.Math
