import Solang.Codegen.StrengthReduce.Ranges

/-!
# The elements of arithmetic

A bit of a sum or a difference is taken to be known when it is the same for the least operands and for the
greatest ones. A carry is monotone in both operands, so this is right for sums. A borrow is largest for the
least left and the greatest right operand, which are not tried. The product of signed operands is bounded by
that of the greatest ones, or where they are negative of those nearest to zero.
-/

namespace Solang.Codegen.StrengthReduce

open TwosComplement

variable {ns : Namespace} {ty operand : Ty} {l r v : Value} {x y : Int} {bits i : Nat}

/-! ## Slices -/

/-- None of the slices panics. -/
def InRange (slices : List (Nat × Nat)) : Prop := ∀ s ∈ slices, s.1 ≤ s.2 ∧ s.2 ≤ 256

@[simp] theorem inRange_nil : InRange [] := nofun

@[simp] theorem inRange_cons {s : Nat × Nat} {slices : List (Nat × Nat)} :
    InRange (s :: slices) ↔ (s.1 ≤ s.2 ∧ s.2 ≤ 256) ∧ InRange slices := List.forall_mem_cons

@[simp] theorem inRange_append {slices slices' : List (Nat × Nat)} :
    InRange (slices ++ slices') ↔ InRange slices ∧ InRange slices' := List.forall_mem_append

/-- The bit of `sign` and what the bound fills -/
def Value.boundSlices (v : Value) : List (Nat × Nat) :=
  (v.bits - 1, v.bits) :: if v.sign = (true, true) then [(v.bits - 1, 256)] else []

/-- `max_possible` of signed operands -/
def signedMaxPossible (l r : Value) : Int :=
  (if l.sign.2 then l.getSignedMinValue else l.getSignedMaxValue).toInt *
    (if r.sign.2 then r.getSignedMinValue else r.getSignedMaxValue).toInt

/-- `max_possible` of the other ones -/
def unsignedMaxPossible (l r : Value) : Nat := l.getUnsignedMaxValue.toNat * r.getUnsignedMaxValue.toNat

section Slices

variable (ns : Namespace)

/-- The slices of an operation, as the first index and the one after the last: `bits[lo..hi]`, `bits[lo..]` and
`bits[lo]` -/
def binarySlices (l r : Value) : BinaryOp → List (Nat × Nat)
  | .add ty _ | .subtract ty _ => [(ty.bits ns, 256)]
  | .multiply ty _ =>
    if ty.isSignedInt ns then
      l.boundSlices ++ r.boundSlices ++
        if l.sign.1 && r.sign.1 then
          (0, l.bits) :: (0, r.bits) ::
            if l.allKnown && r.allKnown then []
            else [(highestSetBit (signedMaxPossible l r).natAbs + 1, l.bits)]
        else []
    else
      (0, l.bits) :: (0, r.bits) ::
        if l.allKnown && r.allKnown then []
        else if highestSetBit (unsignedMaxPossible l r) < l.bits then
          [(highestSetBit (unsignedMaxPossible l r) + 1, l.bits)]
        else []
  | _ => []

def unarySlices (v : Value) : UnaryOp → List (Nat × Nat)
  | .zeroExt ty => [(v.bits, ty.bits ns)]
  | .signExt ty => [(v.bits - 1, v.bits), (v.bits, ty.bits ns)]
  | .trunc ty => [(ty.bits ns, v.bits)]
  | _ => []

/-- The element can be computed, and describes the result. -/
def BinaryRight (operand : Ty) (op : BinaryOp) (l r : Value) : Prop :=
  InRange (binarySlices ns l r op) ∧ BinarySound ns operand op l r

def UnaryRight (operand : Ty) (op : UnaryOp) (v : Value) : Prop :=
  InRange (unarySlices ns v op) ∧ UnarySound ns operand op v

end Slices

/-! ## The low bits of an element -/

namespace Value

/-- The least and the greatest number that the bits below this one are -/
def low (v : Value) (i : Nat) : Nat := v.getUnsignedMinValue.toNat % 2 ^ i

def high (v : Value) (i : Nat) : Nat := v.getUnsignedMaxValue.toNat % 2 ^ i

theorem pick_fill (v : Value) (b : Bool) : v.pick (BitVec.fill 256 b) =
    ((if b then v.getUnsignedMaxValue else v.getUnsignedMinValue).toNat % 2 ^ v.bits : Nat) := by
  have hbits : v.value &&& v.knownBits ||| BitVec.fill 256 b &&& ~~~v.knownBits =
      if b then v.getUnsignedMaxValue else v.getUnsignedMinValue := by
    refine BitVec.eq_of_getLsbD_eq fun i hi => ?_
    rw [BitVec.getLsbD_or, BitVec.getLsbD_and, BitVec.getLsbD_and, BitVec.getLsbD_not, BitVec.getLsbD_fill]
    cases b with
    | true =>
      rw [if_pos rfl, getUnsignedMaxValue, BitVec.getLsbD_or, BitVec.getLsbD_not]
      cases v.knownBits.getLsbD i <;> cases v.value.getLsbD i <;> simp [hi]
    | false =>
      rw [if_neg Bool.false_ne_true, getUnsignedMinValue, BitVec.getLsbD_and]
      cases v.knownBits.getLsbD i <;> cases v.value.getLsbD i <;> simp
  rw [pick, hbits]

theorem pattern_mod (hi : i ≤ bits) (x : Int) : pattern bits x % 2 ^ i = pattern i x := by
  apply Int.ofNat.inj
  show ((pattern bits x % 2 ^ i : Nat) : Int) = (pattern i x : Int)
  rw [Int.natCast_emod, pattern_natCast, pattern_natCast, Int.natCast_pow]
  exact emod_of_le hi

theorem Describes.low_le (h : v.Describes x) (hi : i ≤ v.bits) (h256 : v.bits ≤ 256) :
    v.low i ≤ pattern v.bits x % 2 ^ i ∧ pattern v.bits x % 2 ^ i ≤ v.high i := by
  rw [pattern_mod hi]
  -- the element of the bits below this one
  have hlow : ({ v with bits := i } : Value).Describes x := by
    intro j (hj : j < i) hknown
    rw [h j (by omega) hknown, ← pattern_mod hi, Nat.testBit_mod_two_pow]
    simp [hj]
  obtain ⟨hleast, hgreatest⟩ := pick_le hlow (by show i ≤ 256; omega)
  rw [pick_fill] at hleast hgreatest
  exact ⟨Int.ofNat_le.mp hleast, Int.ofNat_le.mp hgreatest⟩

/-- Both are reached by an integer that the element describes. -/
theorem exists_low (hi : i ≤ v.bits) (h256 : v.bits ≤ 256) (b : Bool) :
    ∃ x, v.Describes x ∧ pattern v.bits x % 2 ^ i = if b then v.high i else v.low i := by
  refine ⟨v.pick (BitVec.fill 256 b), describes_pick _ h256, ?_⟩
  have hpattern : pattern v.bits (v.pick (BitVec.fill 256 b)) =
      (if b then v.getUnsignedMaxValue else v.getUnsignedMinValue).toNat % 2 ^ v.bits := by
    have hcast := pattern_pick v (BitVec.fill 256 b)
    rw [pick_fill] at hcast ⊢
    exact_mod_cast hcast
  rw [hpattern, Nat.mod_mod_of_dvd _ (Nat.pow_dvd_pow 2 hi)]
  cases b <;> rfl

end Value

/-! ## Sums and differences -/

theorem pattern_eq_toNat (bits : Nat) (x : Int) : pattern bits x = (BitVec.ofInt bits x).toNat := by
  rw [BitVec.toNat_ofInt, pattern]
  push_cast
  rfl

theorem getLsbD_ofInt (bits i : Nat) (x : Int) : (BitVec.ofInt bits x).getLsbD i = (pattern bits x).testBit i := by
  rw [pattern_eq_toNat, BitVec.testBit_toNat]

theorem pattern_toInt (bits : Bits) : pattern 256 bits.toInt = bits.toNat := by
  rw [pattern_eq_toNat, BitVec.ofInt_toInt]

/-- A bit of the result is that of the operands and of what the bits below them carry. -/
def Carries (op : Int → Int → Int) (carry : Nat → Nat → Nat → Bool) : Prop :=
  ∀ {bits i : Nat} (x y : Int), i < bits → (pattern bits (op x y)).testBit i =
    ((pattern bits x).testBit i ^^ ((pattern bits y).testBit i ^^
      carry i (pattern bits x % 2 ^ i) (pattern bits y % 2 ^ i)))

def sumCarry (i a b : Nat) : Bool := 2 ^ i ≤ a + b

def borrow (_ a b : Nat) : Bool := a < b

theorem carries_add : Carries (· + ·) sumCarry := by
  intro bits i x y hi
  rw [← getLsbD_ofInt, BitVec.ofInt_add, BitVec.getLsbD_add hi]
  simp only [getLsbD_ofInt, pattern_eq_toNat]
  rfl

theorem carries_sub : Carries (· - ·) borrow := by
  intro bits i x y hi
  have hsub : BitVec.ofInt bits (x - y) = BitVec.ofInt bits x - BitVec.ofInt bits y := by
    rw [Int.sub_eq_add_neg, BitVec.ofInt_add, BitVec.ofInt_neg, BitVec.sub_eq_add_neg]
  rw [← getLsbD_ofInt, hsub, getLsbD_sub_borrow hi]
  simp only [getLsbD_ofInt, pattern_eq_toNat]
  rfl

section Linear

variable {op : Int → Int → Int} {carry : Nat → Nat → Nat → Bool}

theorem getLsbD_possible (hop : Carries op carry) (h256 : bits ≤ 256) (hi : i < bits) (a b : Bits) :
    (fill (ofBigInt (op a.toInt b.toInt)) bits 256 false).getLsbD i =
      (a.getLsbD i ^^ (b.getLsbD i ^^ carry i (a.toNat % 2 ^ i) (b.toNat % 2 ^ i))) := by
  rw [getLsbD_fill h256 hi, ofBigInt, getLsbD_ofInt, hop _ _ (by omega), pattern_toInt, pattern_toInt,
    BitVec.testBit_toNat, BitVec.testBit_toNat]

/-- The value of a known bit, and when it is known -/
theorem getLsbD_linearValue (hop : Carries op carry) (h256 : ty.bits ns ≤ 256) (hi : i < ty.bits ns) :
    ((linearValue ns op ty l r).knownBits.getLsbD i = true ↔
      l.knownBits.getLsbD i = true ∧ r.knownBits.getLsbD i = true ∧
        carry i (l.low i) (r.low i) = carry i (l.high i) (r.high i)) ∧
      (l.knownBits.getLsbD i = true → r.knownBits.getLsbD i = true →
        (linearValue ns op ty l r).value.getLsbD i =
          (l.value.getLsbD i ^^ (r.value.getLsbD i ^^ carry i (l.low i) (r.low i)))) := by
  have hmin : ∀ {v : Value}, v.knownBits.getLsbD i = true → v.getUnsignedMinValue.getLsbD i = v.value.getLsbD i := by
    intro v hk
    rw [Value.getUnsignedMinValue, BitVec.getLsbD_and, hk, Bool.and_true]
  have hmax : ∀ {v : Value}, v.knownBits.getLsbD i = true → v.getUnsignedMaxValue.getLsbD i = v.value.getLsbD i := by
    intro v hk
    rw [Value.getUnsignedMaxValue, BitVec.getLsbD_or, BitVec.getLsbD_not, hk]
    simp
  have hi256 : i < 256 := by omega
  constructor
  · simp only [linearValue, BitVec.getLsbD_and, BitVec.getLsbD_not, BitVec.getLsbD_xor,
      getLsbD_possible hop h256 hi, Bool.and_eq_true, hi256, decide_true, Bool.true_and]
    show ((!(_ ^^ (_ ^^ carry i (l.low i) (r.low i)) ^^ (_ ^^ (_ ^^ carry i (l.high i) (r.high i))))) = true ∧
      _) ∧ _ ↔ _
    by_cases hl : l.knownBits.getLsbD i = true
    · by_cases hr : r.knownBits.getLsbD i = true
      · rw [hmin hl, hmin hr, hmax hl, hmax hr]
        cases l.value.getLsbD i <;> cases r.value.getLsbD i <;> simp [hl, hr]
      · simp [hr]
    · simp [hl]
  · intro hl hr
    show (fill _ _ _ _).getLsbD i = _
    rw [getLsbD_possible hop h256 hi, hmin hl, hmin hr]
    rfl

/-- Where a bit is said to be known, every pair of operands carries the same. -/
theorem linear_sound_iff {linear : BinaryOp} (hop : Carries op carry)
    (hf : binaryValue ns operand linear = some (linearValue ns op ty))
    (happly : ∀ x y, linear.apply ns operand x y = some (ty.wrap ns (op x y)))
    (h256 : ty.bits ns ≤ 256) (hl : l.bits = ty.bits ns) (hr : r.bits = ty.bits ns) :
    BinarySound ns operand linear l r ↔
      ∀ i < l.bits, l.knownBits.getLsbD i = true → r.knownBits.getLsbD i = true →
        carry i (l.low i) (r.low i) = carry i (l.high i) (r.high i) →
          ∀ x y, l.Describes x → r.Describes y →
            carry i (pattern l.bits x % 2 ^ i) (pattern r.bits y % 2 ^ i) = carry i (l.low i) (r.low i) := by
  have hbit : ∀ i < l.bits, l.knownBits.getLsbD i = true → r.knownBits.getLsbD i = true → ∀ x y,
      l.Describes x → r.Describes y →
        ((linearValue ns op ty l r).value.getLsbD i = (pattern l.bits (ty.wrap ns (op x y))).testBit i ↔
          carry i (pattern l.bits x % 2 ^ i) (pattern r.bits y % 2 ^ i) = carry i (l.low i) (r.low i)) := by
    intro i hi hlk hrk x y hx hy
    rw [(getLsbD_linearValue hop h256 (by omega)).2 hlk hrk, hl, pattern_wrap, hop x y (by omega), hx i hi hlk,
      hy i (by omega) hrk, hl, hr]
    simp [eq_comm]
  constructor
  · rintro ⟨f, hf', hsound⟩ i hi hlk hrk hsame x y hx hy
    rw [hf] at hf'
    cases hf'
    have hknown : (linearValue ns op ty l r).knownBits.getLsbD i = true :=
      (getLsbD_linearValue hop h256 (by omega)).1.mpr ⟨hlk, hrk, hsame⟩
    exact (hbit i hi hlk hrk x y hx hy).mp (hsound x y hx hy _ (happly x y) i hi hknown)
  · intro hall
    refine ⟨_, hf, fun x y hx hy z hz i (hi : i < l.bits) hknown => ?_⟩
    rw [happly] at hz
    cases hz
    obtain ⟨hlk, hrk, hsame⟩ := (getLsbD_linearValue hop h256 (by omega)).1.mp hknown
    exact (hbit i hi hlk hrk x y hx hy).mpr (hall i hi hlk hrk hsame x y hx hy)

end Linear

/-- Where the least operands and the greatest ones borrow the same, so do the least left operand with the
greatest right one and the other way around. -/
def SubtractAgrees (l r : Value) : Prop :=
  ∀ i < l.bits, l.knownBits.getLsbD i = true → r.knownBits.getLsbD i = true →
    (l.low i < r.low i ↔ l.high i < r.high i) → (l.low i < r.high i ↔ l.high i < r.low i)

instance : Decidable (SubtractAgrees l r) := inferInstanceAs (Decidable (∀ _ < _, _))

section Operations

variable (h256 : ty.bits ns ≤ 256) (hl : l.bits = ty.bits ns) (hr : r.bits = ty.bits ns)

include h256 hl hr

theorem add_sound {overflowing : Bool} : BinarySound ns operand (.add ty overflowing) l r := by
  rw [linear_sound_iff carries_add rfl (fun _ _ => rfl) h256 hl hr]
  intro i hi _ _ hsame x y hx hy
  obtain ⟨hxl, hxh⟩ := hx.low_le (i := i) (by omega) (by omega)
  obtain ⟨hyl, hyh⟩ := hy.low_le (i := i) (by omega) (by omega)
  unfold sumCarry at hsame ⊢
  rw [decide_eq_decide] at hsame ⊢
  omega

theorem subtract_sound_iff {overflowing : Bool} :
    BinarySound ns operand (.subtract ty overflowing) l r ↔ SubtractAgrees l r := by
  rw [linear_sound_iff carries_sub rfl (fun _ _ => rfl) h256 hl hr]
  unfold SubtractAgrees borrow
  simp only [decide_eq_decide]
  refine forall₅_congr fun i hi hlk hrk hsame => ⟨fun hall => ?_, fun hends x y hx hy => ?_⟩
  · obtain ⟨x, hx, hxl⟩ := Value.exists_low (v := l) (i := i) (by omega) (by omega) false
    obtain ⟨x', hx', hxh⟩ := Value.exists_low (v := l) (i := i) (by omega) (by omega) true
    obtain ⟨y, hy, hyl⟩ := Value.exists_low (v := r) (i := i) (by omega) (by omega) false
    obtain ⟨y', hy', hyh⟩ := Value.exists_low (v := r) (i := i) (by omega) (by omega) true
    have hleast := hall x y' hx hy'
    have hgreatest := hall x' y hx' hy
    rw [hxl, hyh] at hleast
    rw [hxh, hyl] at hgreatest
    exact hleast.trans hgreatest.symm
  · obtain ⟨hxl, hxh⟩ := hx.low_le (i := i) (by omega) (by omega)
    obtain ⟨hyl, hyh⟩ := hy.low_le (i := i) (by omega) (by omega)
    omega

end Operations

/-! ## Widths -/

/-- The code does not clear the value above the width. -/
def ZeroExtAgrees (ns : Namespace) (ty : Ty) (v : Value) : Prop :=
  ∀ i < ty.bits ns, v.bits ≤ i → v.value.getLsbD i = false

/-- An operation with these bits is sound when the element has them. -/
theorem unarySound_iff_bits {op : UnaryOp} {f : Value → Value} (result : Int → Int)
    (hf : unaryValue ns op = some f) (hop : ∀ x, op.apply ns operand x = some (ty.wrap ns (result x)))
    (hbits : (f v).bits = ty.bits ns) :
    UnarySound ns operand op v ↔ ∀ x, v.Describes x → ∀ i < ty.bits ns,
      (f v).knownBits.getLsbD i = true →
        (f v).value.getLsbD i = (pattern (ty.bits ns) (result x)).testBit i := by
  unfold UnarySound Value.Describes
  simp only [hf, hop, Option.some.injEq, exists_eq_left', forall_eq', hbits, pattern_wrap]

theorem testBit_bmod {wide : Nat} (hi : i < wide) (x : Int) :
    (pattern wide (x.bmod (2 ^ bits))).testBit i =
      (pattern bits x).testBit (if i < bits then i else bits - 1) := by
  rw [← getLsbD_ofInt, ← getLsbD_ofInt, ← BitVec.toInt_ofInt]
  show ((BitVec.ofInt bits x).signExtend wide).getLsbD i = _
  rw [BitVec.getLsbD_signExtend, BitVec.msb_eq_getLsbD_last]
  split <;> simp [hi]

section Widths

variable (hv : v.bits = operand.bits ns)

include hv

theorem zeroExt_sound_iff (h256 : ty.bits ns ≤ 256) (hle : v.bits ≤ ty.bits ns) :
    UnarySound ns operand (.zeroExt ty) v ↔ ZeroExtAgrees ns ty v := by
  have hpattern : ∀ x, pattern (ty.bits ns) (pattern (operand.bits ns) x : Int) = pattern v.bits x := by
    intro x
    have hlt := (pattern_lt v.bits x).trans_le (Nat.pow_le_pow_right (by decide) hle)
    rw [← hv, pattern_of_lt (Int.natCast_nonneg _) (by exact_mod_cast hlt), Int.toNat_natCast]
  have hknown : ∀ i, (zeroExtValue ns ty v).knownBits.getLsbD i =
      if v.bits ≤ i ∧ i < ty.bits ns then true else v.knownBits.getLsbD i := fun i =>
    getLsbD_fill_range true h256
  have hhigh : ∀ x i, v.bits ≤ i → (pattern v.bits x).testBit i = false := fun x i hi =>
    Nat.testBit_lt_two_pow ((pattern_lt v.bits x).trans_le (Nat.pow_le_pow_right (by decide) hi))
  rw [unarySound_iff_bits _ rfl (fun _ => rfl) rfl]
  simp only [hpattern, hknown]
  constructor
  · intro hall i hi hlo
    have hbit := hall _ (Value.describes_pick 0 (by omega)) i hi (if_pos ⟨hlo, hi⟩)
    rwa [hhigh _ i hlo] at hbit
  · intro hclear x hx i hi hk
    by_cases hlo : v.bits ≤ i
    · rw [hhigh x i hlo]
      exact hclear i hi hlo
    · rw [if_neg (by omega)] at hk
      exact hx i (by omega) hk

theorem signExt_sound (h256 : ty.bits ns ≤ 256) (hpos : 0 < v.bits) :
    UnarySound ns operand (.signExt ty) v := by
  rw [unarySound_iff_bits _ rfl (fun _ => rfl) rfl]
  intro x hx i hi hk
  rw [← hv, testBit_bmod hi]
  simp only [signExtValue, getLsbD_fill_range _ h256] at hk ⊢
  by_cases hlo : i < v.bits
  · rw [if_neg (by omega)] at hk ⊢
    rw [if_pos hlo]
    exact hx i hlo hk
  · rw [if_pos ⟨by omega, hi⟩] at hk ⊢
    rw [if_neg hlo]
    exact hx _ (by omega) hk

end Widths

theorem trunc_sound (hle : ty.bits ns ≤ v.bits) (hv256 : v.bits ≤ 256) : UnarySound ns operand (.trunc ty) v := by
  rw [unarySound_iff_bits id rfl (fun _ => rfl) rfl]
  intro x hx i hi hk
  simp only [truncValue, getLsbD_fill_range _ hv256] at hk ⊢
  rw [if_neg (by omega)] at hk ⊢
  rw [hx i (by omega) hk, id_eq, ← Value.pattern_mod hle, Nat.testBit_mod_two_pow]
  simp [hi]

/-! ## Products -/

/-- Where both signs and not all the bits are known, no product has a bit above the top one of the bound that
differs from its sign. The top bit has to be one of the type. -/
def MultiplyAgrees (ns : Namespace) (ty : Ty) (l r : Value) : Prop :=
  ty.isSignedInt ns = true → l.sign.1 = true → r.sign.1 = true → (l.allKnown && r.allKnown) = false →
    highestSetBit (signedMaxPossible l r).natAbs < l.bits ∧ ∀ x y, l.Describes x → r.Describes y →
      if 0 ≤ signedMaxPossible l r then
        pattern l.bits (x * y) < 2 ^ (highestSetBit (signedMaxPossible l r).natAbs + 1)
      else 2 ^ l.bits ≤ pattern l.bits (x * y) + 2 ^ (highestSetBit (signedMaxPossible l r).natAbs + 1)

/-- The bits of a bound are those of the integer where all are known. -/
theorem Value.Describes.bound_emod (h : v.Describes x) (hknown : v.allKnown = true) (h256 : v.bits ≤ 256)
    {bound : Bits} (hbound : ∀ i < v.bits, bound.getLsbD i = v.value.getLsbD i) :
    bound.toInt % 2 ^ v.bits = x % 2 ^ v.bits := by
  rw [← pattern_natCast, ← pattern_natCast, pattern_eq_of_testBit]
  intro i hi
  rw [← h i hi (List.all_eq_true.mp hknown i (List.mem_range.mpr hi)), ← hbound i hi, ← testBit_pattern h256 hi,
    BitVec.ofInt_toInt]

theorem pattern_mul {a b : Int} (ha : a % 2 ^ bits = x % 2 ^ bits) (hb : b % 2 ^ bits = y % 2 ^ bits) :
    pattern bits (a * b) = pattern bits (x * y) := by
  unfold pattern
  rw [Int.mul_emod, ha, hb, ← Int.mul_emod]

theorem pattern_mul_eq (bits : Nat) (x y : Int) :
    pattern bits (x * y) = pattern bits x * pattern bits y % 2 ^ bits := by
  apply Int.ofNat.inj
  show (pattern bits (x * y) : Int) = ((pattern bits x * pattern bits y % 2 ^ bits : Nat) : Int)
  push_cast
  rw [pattern_natCast, pattern_natCast, pattern_natCast, ← Int.mul_emod]

theorem inRange_boundSlices (hpos : 0 < v.bits) (hv : v.bits ≤ 256) : InRange v.boundSlices := by
  unfold Value.boundSlices
  split <;> simp <;> omega

theorem multiplyValue_signed (hsigned : ty.isSignedInt ns = true) : multiplyValue ns ty l r =
    if l.sign.1 && r.sign.1 then
      { value := ofBigInt (signedMaxPossible l r)
        knownBits :=
          if l.allKnown && r.allKnown then BitVec.allOnes 256
          else fill 0 (highestSetBit (signedMaxPossible l r).natAbs + 1) l.bits true
        bits := l.bits }
    else ⟨0, 0, l.bits⟩ := by
  unfold multiplyValue signedMaxPossible
  rw [if_pos hsigned]
  obtain ⟨lk, lv⟩ := l.sign
  obtain ⟨rk, rv⟩ := r.sign
  cases lk <;> cases rk <;> rfl

section Multiply

variable (h256 : ty.bits ns ≤ 256) (hl : l.bits = ty.bits ns) (hr : r.bits = ty.bits ns)

include h256 hl hr

/-- With all the bits known, the product of the bounds is that of the integers. -/
theorem multiply_constants {lbound rbound : Bits} (hlk : l.allKnown = true) (hrk : r.allKnown = true)
    (hlb : ∀ i < l.bits, lbound.getLsbD i = l.value.getLsbD i)
    (hrb : ∀ i < r.bits, rbound.getLsbD i = r.value.getLsbD i) (hx : l.Describes x) (hy : r.Describes y)
    (hi : i < l.bits) :
    (ofBigInt (lbound.toInt * rbound.toInt)).getLsbD i = (pattern l.bits (x * y)).testBit i := by
  have hlmod := hx.bound_emod hlk (by omega) hlb
  have hrmod := hy.bound_emod hrk (by omega) hrb
  rw [show r.bits = l.bits by omega] at hrmod
  rw [ofBigInt, testBit_pattern (by omega) hi, pattern_mul hlmod hrmod]

theorem unsignedMultiply_sound {overflowing : Bool} (hsigned : ty.isSignedInt ns = false) :
    BinarySound ns operand (.multiply ty overflowing) l r := by
  refine ⟨_, rfl, fun x y hx hy z hz i hi hk => ?_⟩
  cases hz
  have hbits : (multiplyValue ns ty l r).bits = l.bits := by
    simp only [multiplyValue, hsigned, Bool.false_eq_true, ↓reduceIte]
    split <;> rfl
  rw [hbits] at hi ⊢
  rw [hl, pattern_wrap, ← hl]
  simp only [multiplyValue, hsigned, Bool.false_eq_true, ↓reduceIte] at hk ⊢
  split at hk
  next hknown =>
    obtain ⟨hlk, hrk⟩ := Bool.and_eq_true_iff.mp hknown
    rw [if_pos hknown]
    rw [← multiply_constants h256 hl hr hlk hrk (fun i hi => (getLsbD_bounds (by omega) hi hlk).2.1)
      (fun i hi => (getLsbD_bounds (by omega) hi hrk).2.1) hx hy hi]
    have hi256 : i < 256 := by omega
    -- the code reads the bounds without a sign
    have hprod : BitVec.ofNat 256 (l.getUnsignedMaxValue.toNat * r.getUnsignedMaxValue.toNat) =
        ofBigInt (l.getUnsignedMaxValue.toInt * r.getUnsignedMaxValue.toInt) := by
      rw [ofBigInt, BitVec.ofInt_mul, BitVec.ofInt_toInt, BitVec.ofInt_toInt, BitVec.ofNat_mul]
      simp
    rw [hprod]
  next hknown =>
    rw [if_neg hknown]
    -- the product has no bit above the top one of that of the maxima
    split at hk
    next htop =>
      rw [getLsbD_fill_range true (by omega)] at hk
      have hrange : highestSetBit (l.getUnsignedMaxValue.toNat * r.getUnsignedMaxValue.toNat) + 1 ≤ i := by
        by_contra hlow
        rw [if_neg (by omega)] at hk
        simp at hk
      have hlt : pattern l.bits (x * y) < 2 ^ i := by
        have hxmax := hx.le_max (by omega)
        have hymax := hy.le_max (by omega)
        have hprod : pattern l.bits (x * y) ≤ pattern l.bits x * pattern r.bits y := by
          rw [pattern_mul_eq, show r.bits = l.bits by omega]
          exact Nat.mod_le _ _
        calc pattern l.bits (x * y) ≤ pattern l.bits x * pattern r.bits y := hprod
          _ ≤ l.getUnsignedMaxValue.toNat * r.getUnsignedMaxValue.toNat := Nat.mul_le_mul hxmax hymax
          _ < 2 ^ (highestSetBit (l.getUnsignedMaxValue.toNat * r.getUnsignedMaxValue.toNat) + 1) := Nat.lt_log2_self
          _ ≤ 2 ^ i := Nat.pow_le_pow_right (by decide) hrange
      rw [Nat.testBit_lt_two_pow hlt]
      simp
    next => simp at hk

/-- The bits above the top one are those of the sign. -/
theorem getLsbD_above {b : Int} (htop : highestSetBit b.natAbs < i) (hi : i < l.bits) :
    (ofBigInt b).getLsbD i = decide (b < 0) := by
  have habs : b.natAbs < 2 ^ i := Nat.lt_of_lt_of_le Nat.lt_log2_self (Nat.pow_le_pow_right (by decide) htop)
  have hpow : (2 : Nat) ^ i < 2 ^ l.bits := Nat.pow_lt_pow_right (by decide) hi
  have hcast : ((2 ^ l.bits : Nat) : Int) = 2 ^ l.bits := Int.natCast_pow 2 l.bits
  have hmod := pattern_natCast l.bits b
  rw [ofBigInt, testBit_pattern (by omega) hi]
  by_cases hneg : b < 0
  · rw [decide_eq_true hneg]
    rw [← Int.add_emod_right, Int.emod_eq_of_lt (by omega) (by omega)] at hmod
    exact (testBit_high_true_iff (pattern_lt l.bits b)).mpr (by omega) i le_rfl hi
  · rw [decide_eq_false hneg]
    rw [Int.emod_eq_of_lt (by omega) (by omega)] at hmod
    exact (testBit_high_false_iff (pattern_lt l.bits b)).mpr (by omega) i le_rfl hi

/-- The bits above the top one of the bound are said to be those of its sign. -/
theorem signedMultiply_sound_iff {overflowing : Bool} (hsigned : ty.isSignedInt ns = true)
    (hsigns : (l.sign.1 && r.sign.1) = true) (hknown : (l.allKnown && r.allKnown) = false) :
    BinarySound ns operand (.multiply ty overflowing) l r ↔ ∀ x y, l.Describes x → r.Describes y →
      if 0 ≤ signedMaxPossible l r then
        pattern l.bits (x * y) < 2 ^ (highestSetBit (signedMaxPossible l r).natAbs + 1)
      else 2 ^ l.bits ≤ pattern l.bits (x * y) + 2 ^ (highestSetBit (signedMaxPossible l r).natAbs + 1) := by
  have hvalue : multiplyValue ns ty l r = _ := multiplyValue_signed hsigned
  rw [if_pos hsigns, if_neg (by simp [hknown])] at hvalue
  -- what the element says of one product
  have hdescribes : ∀ x y, (multiplyValue ns ty l r).Describes (ty.wrap ns (x * y)) ↔
      ∀ i, highestSetBit (signedMaxPossible l r).natAbs + 1 ≤ i → i < l.bits →
        (pattern l.bits (x * y)).testBit i = decide (signedMaxPossible l r < 0) := by
    intro x y
    rw [hvalue]
    unfold Value.Describes
    simp only [getLsbD_fill_range true (show l.bits ≤ 256 by omega)]
    constructor
    · intro hall i hlo hi
      rw [← getLsbD_above h256 hl hr hlo hi, hall i hi (if_pos ⟨hlo, hi⟩), hl, pattern_wrap]
    · intro hall i hi hk
      have hlo : highestSetBit (signedMaxPossible l r).natAbs + 1 ≤ i := by
        by_contra hlow
        rw [if_neg (by omega)] at hk
        simp at hk
      rw [getLsbD_above h256 hl hr hlo hi, ← hall i hlo hi, hl, pattern_wrap]
  have hbound : ∀ x y, (multiplyValue ns ty l r).Describes (ty.wrap ns (x * y)) ↔
      if 0 ≤ signedMaxPossible l r then
        pattern l.bits (x * y) < 2 ^ (highestSetBit (signedMaxPossible l r).natAbs + 1)
      else 2 ^ l.bits ≤ pattern l.bits (x * y) + 2 ^ (highestSetBit (signedMaxPossible l r).natAbs + 1) := by
    intro x y
    rw [hdescribes]
    split
    next hle =>
      rw [decide_eq_false (by omega)]
      exact testBit_high_false_iff (pattern_lt _ _)
    next hneg =>
      rw [decide_eq_true (by omega)]
      exact testBit_high_true_iff (pattern_lt _ _)
  constructor
  · rintro ⟨f, hf, hsound⟩ x y hx hy
    cases hf
    exact (hbound x y).mp (hsound x y hx hy _ rfl)
  · intro hall
    refine ⟨_, rfl, fun x y hx hy z hz => ?_⟩
    cases hz
    exact (hbound x y).mpr (hall x y hx hy)

/-- Unless both signs are known and some other bit is not, nothing has to be asked of the operands. -/
theorem multiply_right_iff {overflowing : Bool} (hpos : 0 < ty.bits ns) :
    BinaryRight ns operand (.multiply ty overflowing) l r ↔ MultiplyAgrees ns ty l r := by
  have hlb : InRange l.boundSlices := inRange_boundSlices (by omega) (by omega)
  have hrb : InRange r.boundSlices := inRange_boundSlices (by omega) (by omega)
  have hlr : l.bits ≤ 256 ∧ r.bits ≤ 256 := ⟨by omega, by omega⟩
  unfold BinaryRight MultiplyAgrees
  cases hsigned : ty.isSignedInt ns with
  | false =>
    refine iff_of_true ⟨?_, unsignedMultiply_sound h256 hl hr hsigned⟩ nofun
    simp only [binarySlices, hsigned, Bool.false_eq_true, ↓reduceIte, inRange_cons, Nat.zero_le, hlr, true_and]
    split
    next => exact inRange_nil
    next =>
      split
      next htop => simpa using ⟨htop, hlr.1⟩
      next => exact inRange_nil
  | true =>
    cases hsigns : l.sign.1 && r.sign.1 with
    | false =>
      refine iff_of_true ⟨?_, _, rfl, fun x y _ _ z _ i _ hk => ?_⟩ fun _ hls hrs => ?_
      · simpa [binarySlices, hsigned, hsigns] using ⟨hlb, hrb⟩
      · rw [multiplyValue_signed hsigned, hsigns] at hk
        simp at hk
      · rw [hls, hrs] at hsigns
        cases hsigns
    | true =>
      have hsigns' := Bool.and_eq_true_iff.mp hsigns
      cases hknown : l.allKnown && r.allKnown with
      | true =>
        obtain ⟨hlk, hrk⟩ := Bool.and_eq_true_iff.mp hknown
        refine iff_of_true ⟨?_, _, rfl, fun x y hx hy z hz i hi _ => ?_⟩ nofun
        · simpa [binarySlices, hsigned, hsigns, hknown] using ⟨hlb, hrb, hlr⟩
        · cases hz
          rw [multiplyValue_signed hsigned, hsigns] at hi ⊢
          rw [if_pos rfl] at hi ⊢
          have hi' : i < l.bits := hi
          show (ofBigInt (signedMaxPossible l r)).getLsbD i = (pattern l.bits _).testBit i
          rw [hl, pattern_wrap, ← hl]
          refine multiply_constants h256 hl hr hlk hrk (fun j hj => ?_) (fun j hj => ?_) hx hy hi'
          · split
            · exact (getLsbD_bounds hlr.1 hj hlk).2.2.1
            · exact (getLsbD_bounds hlr.1 hj hlk).2.2.2
          · split
            · exact (getLsbD_bounds hlr.2 hj hrk).2.2.1
            · exact (getLsbD_bounds hlr.2 hj hrk).2.2.2
      | false =>
        rw [signedMultiply_sound_iff h256 hl hr hsigned hsigns hknown]
        have hslices : InRange (binarySlices ns l r (.multiply ty overflowing)) ↔
            highestSetBit (signedMaxPossible l r).natAbs < l.bits := by
          simp only [binarySlices, hsigned, hsigns, hknown, Bool.false_eq_true, ↓reduceIte, inRange_append, hlb,
            hrb, inRange_cons, Nat.zero_le, hlr, inRange_nil, true_and, and_true]
          exact Nat.succ_le_iff
        simp only [hslices, hsigns', forall_const]

end Multiply

/-- The elements of `+`, `-` and `*` can be computed and describe the results for all integers that their
operands describe, sums always and the others exactly when the least and the greatest operands tell; those of
the changes of width do so too, apart from the bits of the value that an extension without a sign keeps. -/
theorem arithmetic_sound_iff {overflowing : Bool} (hpos : 0 < ty.bits ns) (h256 : ty.bits ns ≤ 256)
    (hl : l.bits = ty.bits ns) (hr : r.bits = ty.bits ns) (hv : v.bits = operand.bits ns) (hvpos : 0 < v.bits)
    (hv256 : v.bits ≤ 256) :
    BinaryRight ns ty (.add ty overflowing) l r ∧
      (BinaryRight ns ty (.subtract ty overflowing) l r ↔ SubtractAgrees l r) ∧
      (BinaryRight ns ty (.multiply ty overflowing) l r ↔ MultiplyAgrees ns ty l r) ∧
      (v.bits ≤ ty.bits ns → (UnaryRight ns operand (.zeroExt ty) v ↔ ZeroExtAgrees ns ty v) ∧
        UnaryRight ns operand (.signExt ty) v) ∧
      (ty.bits ns ≤ v.bits → UnaryRight ns operand (.trunc ty) v) := by
  have hlinear : InRange [(ty.bits ns, 256)] := by simpa using h256
  refine ⟨⟨hlinear, add_sound h256 hl hr⟩, ?_, multiply_right_iff h256 hl hr hpos, fun hle => ⟨?_, ?_⟩, fun hle => ?_⟩
  · exact (and_iff_right hlinear).trans (subtract_sound_iff h256 hl hr)
  · rw [← zeroExt_sound_iff hv h256 hle]
    exact and_iff_right (by simpa [unarySlices] using ⟨hle, h256⟩)
  · exact ⟨by simp [unarySlices]; omega, signExt_sound hv h256 hvpos⟩
  · exact ⟨by simpa [unarySlices] using ⟨hle, hv256⟩, trunc_sound hle hv256⟩

namespace Sample

/-- The difference of an integer and its lowest bits -/
theorem nibble_difference_is_sound :
    BinaryRight wasm (.uint 8) (.subtract (.uint 8) false) (byte 0xf0 0x30) (byte 0xff 0) :=
  have hv : (byte 0 0).bits = (Ty.uint 8).bits wasm := rfl
  (arithmetic_sound_iff (by decide) (by decide) rfl rfl hv (by decide) (by decide)).2.1.mpr (by decide)

/-- The difference of two bytes that are extended to 16 bits is said to be less than 256. -/
theorem difference_of_bytes_is_negative :
    ¬ BinaryRight wasm (.uint 16) (.subtract (.uint 16) false) (zeroExtValue wasm (.uint 16) (byte 0 0))
      (zeroExtValue wasm (.uint 16) (byte 0 0)) := by
  rintro ⟨-, f, hf, hsound⟩
  cases hf
  have hdescribes := hsound 0 1 (by decide) (by decide) 65535 (by decide)
  revert hdescribes
  decide

end Sample

end Solang.Codegen.StrengthReduce
