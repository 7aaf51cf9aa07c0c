import Solang.Codegen.StrengthReduce.Elements

/-!
# The range of an element

The least and the greatest integer that an element describes, read with a sign or without one. These are
not the bounds that the code computes. A number with a sign is ordered like the one without a sign that has
the other top bit.
-/

namespace Solang.Codegen.StrengthReduce

variable {v : Value} {signed : Bool} {x : Int} {bits i : Nat}

/-- What is added to order integers with a sign like those without one -/
def bias (signed : Bool) (bits : Nat) : Int := if signed then 2 ^ (bits - 1) else 0

namespace Value

/-- The element of the integers with the bias added -/
def biased (signed : Bool) (v : Value) : Value :=
  if signed then { v with value := v.value ^^^ BitVec.twoPow 256 (v.bits - 1) } else v

def least (signed : Bool) (v : Value) : Int := (v.biased signed).pick (BitVec.fill 256 false) - bias signed v.bits

def greatest (signed : Bool) (v : Value) : Int := (v.biased signed).pick (BitVec.fill 256 true) - bias signed v.bits

@[simp] theorem biased_bits (signed : Bool) (v : Value) : (v.biased signed).bits = v.bits := by
  cases signed <;> rfl

@[simp] theorem biased_knownBits (signed : Bool) (v : Value) : (v.biased signed).knownBits = v.knownBits := by
  cases signed <;> rfl

end Value

/-! ## The bias -/

theorem two_pow_pred {n : Nat} (h : 0 < n) : (2 : Int) ^ n = 2 * 2 ^ (n - 1) := by
  obtain ⟨m, rfl⟩ : ∃ m, n = m + 1 := ⟨n - 1, by omega⟩
  rw [pow_succ, mul_comm]
  rfl

theorem readAs_eq (signed : Bool) (hbits : 0 < bits) (x : Int) :
    readAs signed bits x = pattern bits (x + bias signed bits) - bias signed bits := by
  rw [pattern_natCast]
  cases signed with
  | false => simp [readAs, bias]
  | true =>
    have hpow := two_pow_pred hbits
    have hcast : ((2 ^ bits : Nat) : Int) = 2 ^ bits := Int.natCast_pow 2 bits
    have hpos : (0 : Int) < 2 ^ (bits - 1) := by positivity
    have hnonneg := Int.emod_nonneg (x + 2 ^ (bits - 1)) (by positivity : (2 : Int) ^ bits ≠ 0)
    have hlt := Int.emod_lt_of_pos (x + 2 ^ (bits - 1)) (by positivity : (0 : Int) < 2 ^ bits)
    show x.bmod (2 ^ bits) = (x + 2 ^ (bits - 1)) % 2 ^ bits - 2 ^ (bits - 1)
    rw [Int.bmod_eq_iff (by positivity), hcast]
    refine ⟨by omega, by omega, ?_⟩
    have hdiv := Int.emod_add_mul_ediv (x + 2 ^ (bits - 1)) (2 ^ bits)
    exact ⟨-((x + 2 ^ (bits - 1)) / 2 ^ bits), by rw [mul_neg]; omega⟩

theorem testBit_pattern_bias (hi : i < bits) (x : Int) :
    (pattern bits (x + bias true bits)).testBit i =
      ((pattern bits x).testBit i ^^ decide (i = bits - 1)) := by
  have hsum : pattern bits (x + bias true bits) = (2 ^ (bits - 1) + pattern bits x) % 2 ^ bits := by
    have hcast : (pattern bits (x + 2 ^ (bits - 1)) : Int) =
        ((2 ^ (bits - 1) + pattern bits x) % 2 ^ bits : Nat) := by
      push_cast
      rw [pattern_natCast, pattern_natCast, Int.add_emod_emod, add_comm]
    exact_mod_cast hcast
  rw [hsum, Nat.testBit_mod_two_pow]
  by_cases htop : i = bits - 1
  · subst htop
    rw [Nat.testBit_two_pow_add_eq]
    simp [hi]
  · rw [Nat.testBit_two_pow_add_gt (by omega)]
    simp [hi, htop]

namespace Value

theorem describes_biased (signed : Bool) (h256 : v.bits ≤ 256) :
    (v.biased signed).Describes (x + bias signed v.bits) ↔ v.Describes x := by
  unfold Value.Describes
  rw [biased_bits, biased_knownBits]
  cases signed with
  | false => simp [biased, bias]
  | true =>
    refine forall₂_congr fun i hi => ?_
    have htwo : (BitVec.twoPow 256 (v.bits - 1)).getLsbD i = decide (i = v.bits - 1) := by
      rw [BitVec.getLsbD_twoPow]
      simp [show v.bits - 1 < 256 by omega, eq_comm]
    rw [testBit_pattern_bias hi]
    simp only [biased, ↓reduceIte, BitVec.getLsbD_xor, htwo]
    cases v.value.getLsbD i <;> cases (pattern v.bits x).testBit i <;> cases decide (i = v.bits - 1) <;> simp

/-! ## The ends of the range -/

theorem pattern_pick (v : Value) (unknown : Bits) : (pattern v.bits (v.pick unknown) : Int) = v.pick unknown := by
  rw [pattern_natCast]
  unfold pick
  push_cast
  exact Int.emod_emod_of_dvd _ (Int.dvd_refl _)

theorem pick_le (h : v.Describes x) (h256 : v.bits ≤ 256) :
    v.pick (BitVec.fill 256 false) ≤ pattern v.bits x ∧ (pattern v.bits x : Int) ≤ v.pick (BitVec.fill 256 true) := by
  have hlt : ∀ y i, (pattern v.bits y).testBit i = true → i < v.bits := fun y i hbit => by
    by_contra hi
    have hzero := Nat.testBit_lt_two_pow
      ((pattern_lt v.bits y).trans_le (Nat.pow_le_pow_right (by decide) (Nat.le_of_not_lt hi)))
    rw [hzero] at hbit
    cases hbit
  rw [← pattern_pick, ← pattern_pick v (BitVec.fill 256 true)]
  constructor
  · refine Int.ofNat_le.mpr (Nat.le_of_testBit fun i hbit => ?_)
    have hi := hlt _ i hbit
    rw [testBit_pick _ hi h256, BitVec.getLsbD_fill] at hbit
    cases hknown : v.knownBits.getLsbD i with
    | true => rw [← h i hi hknown]; simpa [hknown] using hbit
    | false => simp [hknown] at hbit
  · refine Int.ofNat_le.mpr (Nat.le_of_testBit fun i hbit => ?_)
    have hi := hlt _ i hbit
    rw [testBit_pick _ hi h256, BitVec.getLsbD_fill]
    cases hknown : v.knownBits.getLsbD i with
    | true => rw [if_pos rfl, h i hi hknown, hbit]
    | false => simp [show i < 256 by omega]

theorem Describes.between (h : v.Describes x) (hbits : 0 < v.bits) (h256 : v.bits ≤ 256) (signed : Bool) :
    v.least signed ≤ readAs signed v.bits x ∧ readAs signed v.bits x ≤ v.greatest signed := by
  have hbiased := pick_le ((describes_biased signed h256).mpr h) (by simpa using h256)
  rw [biased_bits] at hbiased
  rw [readAs_eq signed hbits]
  unfold least greatest
  omega

/-- Any choice of the bits that are not known is an integer of the range. -/
theorem exists_readAs (hbits : 0 < v.bits) (h256 : v.bits ≤ 256) (signed : Bool) (unknown : Bits) :
    ∃ x, v.Describes x ∧ readAs signed v.bits x = (v.biased signed).pick unknown - bias signed v.bits := by
  refine ⟨(v.biased signed).pick unknown - bias signed v.bits, ?_, ?_⟩
  · rw [← describes_biased signed h256, sub_add_cancel]
    exact describes_pick unknown (by simpa using h256)
  · rw [readAs_eq signed hbits, sub_add_cancel]
    have hpattern := pattern_pick (v.biased signed) unknown
    rw [biased_bits] at hpattern
    rw [hpattern]

theorem exists_least (hbits : 0 < v.bits) (h256 : v.bits ≤ 256) (signed : Bool) :
    ∃ x, v.Describes x ∧ readAs signed v.bits x = v.least signed := exists_readAs hbits h256 signed _

theorem exists_greatest (hbits : 0 < v.bits) (h256 : v.bits ≤ 256) (signed : Bool) :
    ∃ x, v.Describes x ∧ readAs signed v.bits x = v.greatest signed := exists_readAs hbits h256 signed _

end Value

/-! ## The bounds of the code -/

theorem pattern_eq_of_testBit {y : Int} (h : ∀ i < bits, (pattern bits x).testBit i = (pattern bits y).testBit i) :
    pattern bits x = pattern bits y := by
  refine Nat.eq_of_testBit_eq fun i => ?_
  by_cases hi : i < bits
  · exact h i hi
  · have hpow := Nat.pow_le_pow_right (n := 2) (by decide) (Nat.le_of_not_lt hi)
    rw [Nat.testBit_lt_two_pow ((pattern_lt bits x).trans_le hpow),
      Nat.testBit_lt_two_pow ((pattern_lt bits y).trans_le hpow)]

/-- Where every bit is known, both bounds of the code have these bits. -/
theorem getLsbD_bounds (h256 : v.bits ≤ 256) (hi : i < v.bits) (hknown : v.allKnown = true) :
    v.getUnsignedMinValue.getLsbD i = v.value.getLsbD i ∧ v.getUnsignedMaxValue.getLsbD i = v.value.getLsbD i ∧
      v.getSignedMinValue.getLsbD i = v.value.getLsbD i ∧ v.getSignedMaxValue.getLsbD i = v.value.getLsbD i := by
  have hbit : ∀ j < v.bits, v.knownBits.getLsbD j = true := fun j hj =>
    List.all_eq_true.mp hknown j (List.mem_range.mpr hj)
  have hmin : v.getUnsignedMinValue.getLsbD i = v.value.getLsbD i := by
    rw [Value.getUnsignedMinValue, BitVec.getLsbD_and, hbit i hi, Bool.and_true]
  have hmax : v.getUnsignedMaxValue.getLsbD i = v.value.getLsbD i := by
    rw [Value.getUnsignedMaxValue, BitVec.getLsbD_or, BitVec.getLsbD_not, hbit i hi]
    simp
  have hsign : v.sign = (true, v.value.getLsbD (v.bits - 1)) := by
    rw [Value.sign, hbit _ (by omega)]
  have hfill : ∀ bits : Bits, bits.getLsbD i = v.value.getLsbD i → v.value.getLsbD (v.bits - 1) = true →
      (fill bits (v.bits - 1) 256 true).getLsbD i = v.value.getLsbD i := by
    intro bits hbits htop
    rw [getLsbD_fill_range true (by omega), hbits]
    split
    next h =>
      rw [show i = v.bits - 1 by omega, htop]
    next => rfl
  refine ⟨hmin, hmax, ?_, ?_⟩
  · simp only [Value.getSignedMinValue, hsign]
    split
    next htop => exact hfill _ hmax htop
    next => exact hmin
  · simp only [Value.getSignedMaxValue, hsign]
    split
    next htop => exact hfill _ hmin htop
    next => exact hmax

/-! ## What the bounds of the code enclose -/

/-- Every integer that the element describes lies between the bounds of the code, with a sign and without one. -/
def Value.Encloses (v : Value) : Prop :=
  ∀ x, v.Describes x →
    ((v.getUnsignedMinValue.toNat : Int) ≤ readAs false v.bits x ∧
      readAs false v.bits x ≤ v.getUnsignedMaxValue.toNat) ∧
    v.getSignedMinValue.toInt ≤ readAs true v.bits x ∧ readAs true v.bits x ≤ v.getSignedMaxValue.toInt

/-- No bit above the type is known to be set. An element that may be negative knows all bits below the sign, and
one that may be positive knows that the last bit is zero. -/
structure Value.Bounded (v : Value) : Prop where
  high : ∀ i < 256, v.bits ≤ i → (v.value &&& v.knownBits).getLsbD i = false
  negative : v.sign = (true, false) ∨ ∀ i < v.bits - 1, v.knownBits.getLsbD i = true
  positive : v.sign = (true, true) ∨ v.knownBits.getLsbD 255 = true ∧ v.value.getLsbD 255 = false

theorem toInt_fill_sign {n : Nat} (hn : n < 256) (b : Bits) :
    (fill b n 256 true).toInt = (b.toNat % 2 ^ n : Nat) - 2 ^ n := by
  have hsplit : (fill b n 256 true).toNat = 2 ^ n * (2 ^ (256 - n) - 1) + b.toNat % 2 ^ n := by
    refine Nat.eq_of_testBit_eq fun i => ?_
    rw [BitVec.testBit_toNat, getLsbD_fill_range true (Nat.le_refl 256),
      Nat.testBit_two_pow_mul_add _ (Nat.mod_lt _ (by positivity)), Nat.testBit_mod_two_pow,
      Nat.testBit_two_pow_sub_one, BitVec.testBit_toNat]
    by_cases hi : i < n
    · simp [hi, Nat.not_le.mpr hi]
    · by_cases h256 : i < 256
      · simp [hi, h256, Nat.le_of_not_lt hi, show i - n < 256 - n by omega]
      · simp [hi, h256, show ¬ i - n < 256 - n by omega, BitVec.getLsbD_of_ge b i (by omega)]
  have hpow : 2 ^ n * (2 ^ (256 - n) - 1) + 2 ^ n = 2 ^ 256 := by
    rw [← Nat.mul_succ, Nat.succ_eq_add_one, Nat.sub_add_cancel (Nat.one_le_two_pow), ← Nat.pow_add,
      Nat.add_sub_cancel' (Nat.le_of_lt hn)]
  have hle : 2 ^ n ≤ 2 ^ 255 := Nat.pow_le_pow_right (by decide) (by omega)
  have hmod : b.toNat % 2 ^ n < 2 ^ n := Nat.mod_lt _ (by positivity)
  have hcast : ((2 ^ n : Nat) : Int) = 2 ^ n := Int.natCast_pow 2 n
  rw [BitVec.toInt_eq_toNat_cond, if_neg (by omega), hsplit]
  omega

theorem readAs_true_eq (hbits : 0 < bits) (x : Int) :
    readAs true bits x = (pattern bits x % 2 ^ (bits - 1) : Nat) -
      if (pattern bits x).testBit (bits - 1) then 2 ^ (bits - 1) else 0 := by
  obtain ⟨n, rfl⟩ : ∃ n, bits = n + 1 := ⟨bits - 1, by omega⟩
  have hcast : ((2 ^ n : Nat) : Int) = 2 ^ n := Int.natCast_pow 2 n
  have hpattern := pattern_natCast (n + 1) x
  have hlt := pattern_lt (n + 1) x
  rw [Nat.pow_succ] at hlt
  have hdiv := Nat.div_add_mod (pattern (n + 1) x) (2 ^ n)
  have hmod : pattern (n + 1) x % 2 ^ n < 2 ^ n := Nat.mod_lt _ (by positivity)
  have hquot : pattern (n + 1) x / 2 ^ n < 2 := Nat.div_lt_of_lt_mul hlt
  show x.bmod (2 ^ (n + 1)) = _
  rw [Nat.add_sub_cancel, Nat.testBit_eq_decide_div_mod_eq, Int.bmod_def, Nat.cast_pow, Nat.cast_ofNat, ← hpattern,
    pow_succ]
  generalize pattern (n + 1) x / 2 ^ n = q at hdiv hquot ⊢
  generalize pattern (n + 1) x % 2 ^ n = r at hdiv hmod ⊢
  obtain rfl | rfl : q = 0 ∨ q = 1 := by omega
  · rw [if_pos (by omega), if_neg (by decide)]
    omega
  · rw [if_neg (by omega), if_pos (by decide)]
    omega

namespace Value

theorem signedMin_of_negative (h : v.sign ≠ (true, false)) :
    v.getSignedMinValue = fill v.getUnsignedMaxValue (v.bits - 1) 256 true := by
  unfold getSignedMinValue
  rcases hs : v.sign with ⟨_ | _, _ | _⟩
  · rfl
  · rfl
  · exact absurd hs h
  · rfl

theorem signedMin_of_positive (h : v.sign = (true, false)) : v.getSignedMinValue = v.getUnsignedMinValue := by
  unfold getSignedMinValue
  rw [h]
  rfl

theorem signedMax_of_negative (h : v.sign = (true, true)) :
    v.getSignedMaxValue = fill v.getUnsignedMinValue (v.bits - 1) 256 true := by
  unfold getSignedMaxValue
  rw [h]
  rfl

theorem signedMax_of_positive (h : v.sign ≠ (true, true)) : v.getSignedMaxValue = v.getUnsignedMaxValue := by
  unfold getSignedMaxValue
  rcases hs : v.sign with ⟨_ | _, _ | _⟩
  · rfl
  · rfl
  · rfl
  · exact absurd hs h

theorem getLsbD_min (v : Value) (i : Nat) :
    v.getUnsignedMinValue.getLsbD i = (v.value.getLsbD i && v.knownBits.getLsbD i) := BitVec.getLsbD_and

theorem getLsbD_max (h : i < 256) :
    v.getUnsignedMaxValue.getLsbD i = (!v.knownBits.getLsbD i || v.value.getLsbD i) := by
  rw [getUnsignedMaxValue, BitVec.getLsbD_or, BitVec.getLsbD_not]
  simp [h]

theorem getLsbD_max_last :
    v.getUnsignedMaxValue.getLsbD 255 = false ↔ v.knownBits.getLsbD 255 = true ∧ v.value.getLsbD 255 = false := by
  rw [getLsbD_max (by decide), Bool.or_eq_false_iff, Bool.not_eq_false']

theorem toInt_of_last {b : Bits} (h : b.getLsbD 255 = false) : b.toInt = b.toNat :=
  BitVec.toInt_eq_toNat_of_msb (by rw [BitVec.msb_eq_getLsbD_last]; exact h)

/-- A bound below the sign is reached, where all of these bits are known. -/
theorem mod_eq_of_known (h : v.Describes x) (h256 : v.bits ≤ 256) {b : Bits}
    (hb : ∀ i < v.bits - 1, b.getLsbD i = v.value.getLsbD i)
    (hknown : ∀ i < v.bits - 1, v.knownBits.getLsbD i = true) :
    b.toNat % 2 ^ (v.bits - 1) = pattern v.bits x % 2 ^ (v.bits - 1) := by
  refine Nat.eq_of_testBit_eq fun i => ?_
  rw [Nat.testBit_mod_two_pow, Nat.testBit_mod_two_pow, BitVec.testBit_toNat]
  by_cases hi : i < v.bits - 1
  · rw [hb i hi, h i (by omega) (hknown i hi)]
  · simp [hi]

theorem min_le_iff (h256 : v.bits ≤ 256) :
    (∀ x, v.Describes x → v.getUnsignedMinValue.toNat ≤ pattern v.bits x) ↔
      ∀ i < 256, v.bits ≤ i → (v.value &&& v.knownBits).getLsbD i = false := by
  constructor
  · intro h i hi hle
    by_contra hbit
    have hge := Nat.ge_two_pow_of_testBit ((BitVec.testBit_toNat _).trans (Bool.eq_true_of_not_eq_false hbit))
    have hmin := h _ (describes_pick 0 h256)
    have hlt := (pattern_lt v.bits (v.pick 0)).trans_le (Nat.pow_le_pow_right (by decide) hle)
    exact absurd (hge.trans hmin) (Nat.not_le.mpr hlt)
  · intro hhigh x hx
    refine Nat.le_of_testBit fun i hbit => ?_
    rw [BitVec.testBit_toNat] at hbit
    have hi : i < v.bits := by
      by_contra hi
      by_cases h : i < 256
      · exact absurd hbit (by rw [getUnsignedMinValue, hhigh i h (Nat.le_of_not_lt hi)]; decide)
      · exact absurd hbit (by rw [BitVec.getLsbD_of_ge _ _ (Nat.le_of_not_lt h)]; decide)
    rw [getLsbD_min, Bool.and_eq_true] at hbit
    rw [← hx i hi hbit.2, hbit.1]

/-- The integer whose unknown bits are those of `unknown`, where this makes the sign bit `b` -/
theorem readAs_pick (hbits : 0 < v.bits) (h256 : v.bits ≤ 256) {unknown : Bits} {b : Bool} (h : v.sign ≠ (true, !b))
    (hunknown : unknown.getLsbD (v.bits - 1) = b) :
    readAs true v.bits (v.pick unknown) =
      (pattern v.bits (v.pick unknown) % 2 ^ (v.bits - 1) : Nat) - if b then 2 ^ (v.bits - 1) else 0 := by
  have htop : (pattern v.bits (v.pick unknown)).testBit (v.bits - 1) = b := by
    rw [testBit_pick unknown (by omega) h256, hunknown]
    split
    next hknown =>
      rw [sign, hknown] at h
      cases hvalue : v.value.getLsbD (v.bits - 1) <;> cases b <;> simp_all
    next => rfl
  rw [readAs_true_eq hbits, htop]

theorem Encloses.bounded (h : v.Encloses) (hbits : 0 < v.bits) (h256 : v.bits ≤ 256) : v.Bounded := by
  refine ⟨(min_le_iff h256).mp fun x hx => ?_, ?_, ?_⟩
  · have hmin := (h x hx).1.1
    have hpattern := pattern_natCast v.bits x
    have hread : readAs false v.bits x = x % 2 ^ v.bits := rfl
    omega
  · by_contra hnot
    obtain ⟨hsign, hunknown⟩ := not_or.mp hnot
    simp only [not_forall, Bool.not_eq_true] at hunknown
    obtain ⟨j, hj, hknown⟩ := hunknown
    -- the integer with the sign and no other unknown bit is below the least bound
    have hmin := (h _ (describes_pick (BitVec.twoPow 256 (v.bits - 1)) h256)).2.1
    rw [signedMin_of_negative hsign, toInt_fill_sign (by omega), readAs_pick hbits h256 (b := true) hsign
      (by simp [show v.bits - 1 < 256 by omega]), if_pos rfl] at hmin
    have hle : pattern v.bits (v.pick (BitVec.twoPow 256 (v.bits - 1))) % 2 ^ (v.bits - 1) ≤
        v.getUnsignedMaxValue.toNat % 2 ^ (v.bits - 1) := by
      refine Nat.le_of_testBit fun i hbit => ?_
      rw [Nat.testBit_mod_two_pow, Bool.and_eq_true, decide_eq_true_eq] at hbit ⊢
      refine ⟨hbit.1, ?_⟩
      rw [testBit_pick _ (by omega) h256] at hbit
      rw [BitVec.testBit_toNat, getLsbD_max (by omega)]
      cases hk : v.knownBits.getLsbD i with
      | true => simpa [hk] using hbit.2
      | false => rfl
    have heq := Nat.le_antisymm hle (Int.ofNat_le.mp (Int.le_of_sub_le_sub_right hmin))
    have hbit := congrArg (fun m => m.testBit j) heq
    simp only [Nat.testBit_mod_two_pow, testBit_pick _ (show j < v.bits by omega) h256, BitVec.testBit_toNat,
      getLsbD_max (show j < 256 by omega), hknown, BitVec.getLsbD_twoPow] at hbit
    simp [hj, show v.bits - 1 ≠ j by omega] at hbit
  · by_contra hnot
    obtain ⟨hsign, hlast⟩ := not_or.mp hnot
    rw [← getLsbD_max_last, Bool.not_eq_false] at hlast
    have hmax := (h _ (describes_pick 0 h256)).2.2
    rw [signedMax_of_positive hsign, readAs_pick hbits h256 (b := false) hsign (by simp)] at hmax
    have hneg : v.getUnsignedMaxValue.toInt < 0 :=
      BitVec.toInt_neg_of_msb_true (by rw [BitVec.msb_eq_getLsbD_last]; exact hlast)
    simp only [Bool.false_eq_true, if_false, sub_zero] at hmax
    omega

theorem Bounded.encloses (h : v.Bounded) (hbits : 0 < v.bits) (h256 : v.bits ≤ 256) : v.Encloses := by
  intro x hx
  have hmin := (min_le_iff h256).mpr h.high x hx
  have hmax := hx.le_max h256
  have hpattern := pattern_natCast v.bits x
  have hread : readAs false v.bits x = x % 2 ^ v.bits := rfl
  have hmod : pattern v.bits x % 2 ^ (v.bits - 1) ≤ pattern v.bits x := Nat.mod_le _ _
  have hpos : (0 : Int) < 2 ^ (v.bits - 1) := by positivity
  refine ⟨⟨by omega, by omega⟩, ?_⟩
  rw [readAs_true_eq hbits]
  have hlast : v.sign ≠ (true, true) → v.getSignedMaxValue.toInt = v.getUnsignedMaxValue.toNat := fun hsign => by
    rw [signedMax_of_positive hsign, toInt_of_last (getLsbD_max_last.mpr (h.positive.resolve_left hsign))]
  by_cases hsign : v.sign = (true, false)
  · obtain ⟨hknown, hvalue⟩ := Prod.mk.inj hsign
    have htop : (pattern v.bits x).testBit (v.bits - 1) = false := by
      rw [← hx _ (by omega) hknown, hvalue]
    have hfirst : v.getUnsignedMinValue.getLsbD 255 = false := by
      by_cases h255 : v.bits ≤ 255
      · exact h.high 255 (by decide) h255
      · rw [getLsbD_min, show 255 = v.bits - 1 by omega, hvalue]
        rfl
    have hwhole : pattern v.bits x % 2 ^ (v.bits - 1) = pattern v.bits x := by
      refine Nat.eq_of_testBit_eq fun i => ?_
      rw [Nat.testBit_mod_two_pow]
      rcases Nat.lt_trichotomy i (v.bits - 1) with hi | rfl | hi
      · simp [hi]
      · simp [htop]
      · rw [Nat.testBit_lt_two_pow ((pattern_lt v.bits x).trans_le (Nat.pow_le_pow_right (by decide) (by omega)))]
        simp
    rw [htop, hwhole, signedMin_of_positive hsign, toInt_of_last hfirst, hlast (by simp [hsign])]
    simp only [Bool.false_eq_true, if_false]
    omega
  · have hknown := h.negative.resolve_left hsign
    have hlow : v.getUnsignedMaxValue.toNat % 2 ^ (v.bits - 1) = pattern v.bits x % 2 ^ (v.bits - 1) :=
      mod_eq_of_known hx h256 (fun i hi => by rw [getLsbD_max (by omega), hknown i hi]; rfl) hknown
    rw [signedMin_of_negative hsign, toInt_fill_sign (by omega), hlow]
    refine ⟨by split <;> omega, ?_⟩
    by_cases hneg : v.sign = (true, true)
    · have htop : (pattern v.bits x).testBit (v.bits - 1) = true := by
        rw [← hx _ (by omega) (Prod.mk.inj hneg).1, (Prod.mk.inj hneg).2]
      rw [htop, signedMax_of_negative hneg, toInt_fill_sign (by omega), mod_eq_of_known hx h256
        (fun i hi => by rw [getLsbD_min, hknown i hi, Bool.and_true]) hknown]
      simp
    · rw [hlast hneg]
      split <;> omega

end Value

/-- The bounds of an element enclose the integers that it describes exactly where the bits that it knows leave no
choice to a negative integer. -/
theorem encloses_iff (v : Value) (hbits : 0 < v.bits) (h256 : v.bits ≤ 256) : v.Encloses ↔ v.Bounded :=
  ⟨fun h => h.bounded hbits h256, fun h => h.encloses hbits h256⟩

namespace Sample

/-- An `int8` of which nothing is known: the set of a variable -/
def unknownByte : Value := ⟨fill (BitVec.allOnes 256) 0 8 false, 0, 8⟩

/-- A `uint8` whose top bit is known to be zero -/
def lowByte : Value := ⟨fill (BitVec.allOnes 256) 0 7 false, 0, 8⟩

theorem lowByte_encloses : lowByte.Encloses :=
  (encloses_iff lowByte (by decide) (by decide)).mpr
    ⟨by decide +kernel, .inl (by decide), .inr (by decide)⟩

/-- -5 is below the least bound of an unknown byte, which is -1. -/
theorem unknownByte_not_encloses : ¬ ∀ v : Value, 0 < v.bits → v.bits ≤ 256 → v.Encloses := by
  intro h
  have hmin := (h unknownByte (by decide) (by decide) (-5) (by decide)).2.1
  exact absurd hmin (by decide)

end Sample

end Solang.Codegen.StrengthReduce
