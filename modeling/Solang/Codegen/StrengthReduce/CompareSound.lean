import Solang.Codegen.StrengthReduce.Ranges

/-!
# The elements of comparisons

A comparison is said to be true when the greatest left operand satisfies it with the least right one, and
false when the least left one does not with the greatest right one. For `<` and `<=` of integers without a
sign this is right. For `>` and `>=` the ends are taken the other way around. With a sign the bounds of a negative
element are exchanged. Two elements are said to be unequal when the least left operand is not the greatest
right one.
-/

namespace Solang.Codegen.StrengthReduce

variable {ns : Namespace} {operand : Ty} {l r v : Value} {signed : Bool} {x y : Int}

/-! ## Comparisons -/

section Compare

variable (cmp : Int → Int → Bool) (signed : Bool) (l r : Value)

/-- The test of the code for a comparison that is always true -/
def compareTrue : Bool :=
  if signed then cmp l.getSignedMaxValue.toInt r.getSignedMinValue.toInt
  else cmp l.getUnsignedMaxValue.toNat r.getUnsignedMinValue.toNat

/-- The test of the code for one that is always false, which is made after the other one -/
def compareFalse : Bool :=
  if signed then !cmp l.getSignedMinValue.toInt r.getSignedMaxValue.toInt
  else !cmp l.getUnsignedMinValue.toNat r.getUnsignedMaxValue.toNat

/-- At the ends of both ranges -/
def AtEnds (P : Int → Int → Prop) : Prop :=
  P (l.least signed) (r.least signed) ∧ P (l.least signed) (r.greatest signed) ∧
    P (l.greatest signed) (r.least signed) ∧ P (l.greatest signed) (r.greatest signed)

instance (P : Int → Int → Prop) [∀ a b, Decidable (P a b)] : Decidable (AtEnds signed l r P) :=
  inferInstanceAs (Decidable (_ ∧ _ ∧ _ ∧ _))

/-- The ends of the ranges decide the comparison like the tests of the code. -/
def CompareAgrees : Prop :=
  if compareTrue cmp signed l r then AtEnds signed l r fun a b => cmp a b = true
  else compareFalse cmp signed l r = true → AtEnds signed l r fun a b => cmp a b = false

instance : Decidable (CompareAgrees cmp signed l r) := by
  unfold CompareAgrees
  infer_instance

variable {cmp l r}

/-- A comparison that comes out the same way at the ends of two ranges does so between them. -/
def Monotone (cmp : Int → Int → Bool) : Prop :=
  ∀ {a a' b b' x y : Int} {result : Bool}, a ≤ x → x ≤ a' → b ≤ y → y ≤ b' → cmp a b = result →
    cmp a b' = result → cmp a' b = result → cmp a' b' = result → cmp x y = result

theorem monotone_more : Monotone fun l r => decide (r < l) := by
  intro a a' b b' x y result hx hx' hy hy' h1 h2 h3 h4
  cases result <;> simp only [decide_eq_true_eq, decide_eq_false_iff_not] at * <;> omega

theorem monotone_moreEqual : Monotone fun l r => decide (r ≤ l) := by
  intro a a' b b' x y result hx hx' hy hy' h1 h2 h3 h4
  cases result <;> simp only [decide_eq_true_eq, decide_eq_false_iff_not] at * <;> omega

theorem monotone_less : Monotone fun l r => decide (l < r) := by
  intro a a' b b' x y result hx hx' hy hy' h1 h2 h3 h4
  cases result <;> simp only [decide_eq_true_eq, decide_eq_false_iff_not] at * <;> omega

theorem monotone_lessEqual : Monotone fun l r => decide (l ≤ r) := by
  intro a a' b b' x y result hx hx' hy hy' h1 h2 h3 h4
  cases result <;> simp only [decide_eq_true_eq, decide_eq_false_iff_not] at * <;> omega

theorem atEnds_iff (hcmp : Monotone cmp) (hl : 0 < l.bits) (hl' : l.bits ≤ 256) (hr : 0 < r.bits)
    (hr' : r.bits ≤ 256) (result : Bool) :
    AtEnds signed l r (fun a b => cmp a b = result) ↔ ∀ x y, l.Describes x → r.Describes y →
      cmp (readAs signed l.bits x) (readAs signed r.bits y) = result := by
  constructor
  · rintro ⟨h1, h2, h3, h4⟩ x y hx hy
    obtain ⟨hxl, hxg⟩ := hx.between hl hl' signed
    obtain ⟨hyl, hyg⟩ := hy.between hr hr' signed
    exact hcmp hxl hxg hyl hyg h1 h2 h3 h4
  · intro hall
    obtain ⟨x, hx, hxl⟩ := Value.exists_least hl hl' signed
    obtain ⟨x', hx', hxg⟩ := Value.exists_greatest hl hl' signed
    obtain ⟨y, hy, hyl⟩ := Value.exists_least hr hr' signed
    obtain ⟨y', hy', hyg⟩ := Value.exists_greatest hr hr' signed
    have h1 := hall x y hx hy
    have h2 := hall x y' hx hy'
    have h3 := hall x' y hx' hy
    have h4 := hall x' y' hx' hy'
    rw [hxl, hyl] at h1
    rw [hxl, hyg] at h2
    rw [hxg, hyl] at h3
    rw [hxg, hyg] at h4
    exact ⟨h1, h2, h3, h4⟩

/-- The element of a comparison that is decided -/
def verdict (b : Bool) : Value := ⟨setBit 0 0 true, setBit 0 0 b, 1⟩

/-- The element of one that is not -/
def undecided : Value := ⟨0, 0, 1⟩

theorem describes_verdict (b result : Bool) : (verdict b).Describes result.toNat ↔ b = result := by
  cases b <;> cases result <;> decide

theorem describes_undecided (x : Int) : undecided.Describes x := by
  intro i _ hknown
  simp [undecided] at hknown

theorem compareValue_eq : compareValue cmp signed l r =
    if compareTrue cmp signed l r then verdict true
    else if compareFalse cmp signed l r then verdict false else undecided := rfl

/-- An operation with a result of one bit is sound when that bit is the result. -/
theorem binarySound_iff_bool {op : BinaryOp} {f : Value → Value → Value} (result : Int → Int → Bool)
    (hf : binaryValue ns operand op = some f)
    (hop : ∀ x y, op.apply ns operand x y = some ((result x y).toNat : Int)) :
    BinarySound ns operand op l r ↔
      ∀ x y, l.Describes x → r.Describes y → (f l r).Describes (result x y).toNat := by
  constructor
  · rintro ⟨f', hf', hall⟩ x y hx hy
    rw [hf] at hf'
    cases hf'
    exact hall x y hx hy _ (hop x y)
  · intro hall
    refine ⟨_, hf, fun x y hx hy z hz => ?_⟩
    rw [hop] at hz
    cases hz
    exact hall x y hx hy

theorem compare_sound_iff {op : BinaryOp} (hf : binaryValue ns operand op = some (compareValue cmp signed))
    (hop : ∀ x y, op.apply ns operand x y =
      some ((cmp (readAs signed (operand.bits ns) x) (readAs signed (operand.bits ns) y)).toNat : Int))
    (hcmp : Monotone cmp) (hpos : 0 < operand.bits ns) (h256 : operand.bits ns ≤ 256)
    (hl : l.bits = operand.bits ns) (hr : r.bits = operand.bits ns) :
    BinarySound ns operand op l r ↔ CompareAgrees cmp signed l r := by
  have hends := atEnds_iff signed hcmp (l := l) (r := r) (by omega) (by omega) (by omega) (by omega)
  rw [binarySound_iff_bool _ hf hop, compareValue_eq, ← hl]
  unfold CompareAgrees
  rw [hends, hends, ← hr.trans hl.symm]
  split
  next => simp only [describes_verdict, eq_comm, hr.trans hl.symm]
  next =>
    split
    next hfalse => simp only [hfalse, describes_verdict, eq_comm, forall_const, hr.trans hl.symm]
    next hfalse => exact iff_of_true (fun x y _ _ => describes_undecided _) fun h => absurd h hfalse

end Compare

/-! ## Equality -/

/-- Elements that are said to be unequal have a bit that is known of both and not the same. -/
def EqualAgrees (signed : Bool) (l r : Value) : Prop :=
  couldBeEqual signed l r = false →
    ∃ i < l.bits, l.knownBits.getLsbD i = true ∧ r.knownBits.getLsbD i = true ∧
      l.value.getLsbD i ≠ r.value.getLsbD i

instance (signed : Bool) (l r : Value) : Decidable (EqualAgrees signed l r) := by
  unfold EqualAgrees
  infer_instance

theorem pattern_eq_of_couldBeEqual (h256 : l.bits ≤ 256) (hbits : r.bits = l.bits) (hl : l.allKnown = true)
    (hr : r.allKnown = true) (hequal : couldBeEqual signed l r = true) (hx : l.Describes x)
    (hy : r.Describes y) : pattern l.bits x = pattern l.bits y := by
  refine pattern_eq_of_testBit fun i hi => ?_
  obtain ⟨hlmin, -, hlsmin, -⟩ := getLsbD_bounds h256 hi hl
  obtain ⟨-, hrmax, -, hrsmax⟩ := getLsbD_bounds (by omega) (by omega : i < r.bits) hr
  have hlknown : l.knownBits.getLsbD i = true := List.all_eq_true.mp hl i (List.mem_range.mpr hi)
  have hrknown : r.knownBits.getLsbD i = true := List.all_eq_true.mp hr i (List.mem_range.mpr (by omega))
  rw [← hx i hi hlknown, ← hbits, ← hy i (by omega) hrknown]
  unfold couldBeEqual at hequal
  cases signed with
  | false =>
    simp only [Bool.false_eq_true, ↓reduceIte, Bool.and_eq_true, decide_eq_true_eq] at hequal
    rw [← hlmin, ← hrmax, BitVec.toInt_inj.mp (le_antisymm hequal.2 hequal.1)]
  | true =>
    simp only [↓reduceIte, Bool.and_eq_true, decide_eq_true_eq] at hequal
    rw [← hlsmin, ← hrsmax, BitVec.toInt_inj.mp (le_antisymm hequal.2 hequal.1)]

/-- Without a bit that tells them apart, two elements describe a common integer. -/
theorem exists_common (h256 : l.bits ≤ 256) (hbits : r.bits = l.bits)
    (hsame : ∀ i < l.bits, l.knownBits.getLsbD i = true → r.knownBits.getLsbD i = true →
      l.value.getLsbD i = r.value.getLsbD i) :
    ∃ x y, l.Describes x ∧ r.Describes y ∧ pattern l.bits x = pattern l.bits y := by
  refine ⟨l.pick (r.value &&& r.knownBits), r.pick (l.value &&& l.knownBits), Value.describes_pick _ h256,
    Value.describes_pick _ (by omega), pattern_eq_of_testBit fun i hi => ?_⟩
  rw [Value.testBit_pick _ hi h256, ← hbits, Value.testBit_pick _ (by omega) (by omega), BitVec.getLsbD_and,
    BitVec.getLsbD_and]
  have hi' := hsame i hi
  revert hi'
  generalize l.knownBits.getLsbD i = lk, l.value.getLsbD i = lv, r.knownBits.getLsbD i = rk,
    r.value.getLsbD i = rv
  revert lk lv rk rv
  decide

theorem equality_sound_iff {op : BinaryOp} {result : Bool → Bool} (hresult : ∀ a b, result a = result b ↔ a = b)
    (hf : binaryValue ns operand op = some (equalityValue result signed))
    (hop : ∀ x y, op.apply ns operand x y =
      some ((result (pattern (operand.bits ns) x == pattern (operand.bits ns) y)).toNat : Int))
    (h256 : operand.bits ns ≤ 256) (hl : l.bits = operand.bits ns) (hr : r.bits = operand.bits ns) :
    BinarySound ns operand op l r ↔ EqualAgrees signed l r := by
  have hvalue : equalityValue result signed l r =
      if !couldBeEqual signed l r || l.allKnown && r.allKnown then verdict (result (couldBeEqual signed l r))
      else undecided := rfl
  rw [binarySound_iff_bool _ hf hop, hvalue]
  constructor
  · intro hall hunequal
    by_contra hno
    push Not at hno
    obtain ⟨x, y, hx, hy, hpattern⟩ := exists_common (by omega) (by omega) hno
    have hdescribes := hall x y hx hy
    rw [hunequal, ← hl, hpattern, beq_self_eq_true] at hdescribes
    exact absurd ((hresult _ _).mp ((describes_verdict _ _).mp hdescribes)) (by decide)
  · intro hagrees x y hx hy
    cases hequal : couldBeEqual signed l r with
    | false =>
      obtain ⟨i, hi, hlk, hrk, hne⟩ := hagrees hequal
      have hpattern : pattern (operand.bits ns) x ≠ pattern (operand.bits ns) y := by
        intro heq
        have hxi := hx i hi hlk
        have hyi := hy i (by omega) hrk
        rw [hl] at hxi
        rw [hr] at hyi
        exact hne (by rw [hxi, hyi, heq])
      rw [Bool.not_false, Bool.true_or, if_pos rfl, describes_verdict, hresult]
      exact (beq_eq_false_iff_ne.mpr hpattern).symm
    | true =>
      by_cases hknown : l.allKnown && r.allKnown
      · have hboth := Bool.and_eq_true_iff.mp hknown
        have hpattern := pattern_eq_of_couldBeEqual (by omega) (by omega) hboth.1 hboth.2 hequal hx hy
        rw [if_pos (by simpa using hknown), describes_verdict, ← hl, hpattern, beq_self_eq_true]
      · rw [if_neg (by simpa using hknown)]
        exact describes_undecided _

/-- What is said about a comparison holds for all integers that the operands describe, exactly when the
ends of their ranges agree, and for `==` and `!=`, when unequal operands differ in a bit that is known. -/
theorem comparisons_sound_iff (hpos : 0 < operand.bits ns) (h256 : operand.bits ns ≤ 256)
    (hl : l.bits = operand.bits ns) (hr : r.bits = operand.bits ns) (signed : Bool) :
    (BinarySound ns operand (.more signed) l r ↔ CompareAgrees (fun l r => r < l) signed l r) ∧
      (BinarySound ns operand (.moreEqual signed) l r ↔ CompareAgrees (fun l r => r ≤ l) signed l r) ∧
      (BinarySound ns operand (.less signed) l r ↔ CompareAgrees (fun l r => l < r) signed l r) ∧
      (BinarySound ns operand (.lessEqual signed) l r ↔ CompareAgrees (fun l r => l ≤ r) signed l r) ∧
      (BinarySound ns operand .equal l r ↔ EqualAgrees (operand.isSignedInt ns) l r) ∧
      (BinarySound ns operand .notEqual l r ↔ EqualAgrees (operand.isSignedInt ns) l r) := by
  refine ⟨?_, ?_, ?_, ?_, ?_, ?_⟩
  · exact compare_sound_iff signed rfl (fun _ _ => rfl) monotone_more hpos h256 hl hr
  · exact compare_sound_iff signed rfl (fun _ _ => rfl) monotone_moreEqual hpos h256 hl hr
  · exact compare_sound_iff signed rfl (fun _ _ => rfl) monotone_less hpos h256 hl hr
  · exact compare_sound_iff signed rfl (fun _ _ => rfl) monotone_lessEqual hpos h256 hl hr
  · exact equality_sound_iff (fun a b => (Iff.rfl : id a = id b ↔ a = b)) rfl (fun _ _ => rfl) h256 hl hr
  · exact equality_sound_iff (fun a b => (Bool.not_inj_iff : (!a) = (!b) ↔ a = b)) rfl (fun _ _ => rfl) h256 hl hr

namespace Sample

/-- The low four bits are not known, and 15 is less than 16. -/
theorem nibble_less_is_sound : BinarySound wasm (.uint 8) (.less false) (byte 0xf0 0) (byte 0xff 16) :=
  (comparisons_sound_iff (by decide) (by decide) rfl rfl false).2.2.1.mpr (by decide)

/-- An integer of which nothing is known is said to be more than 5. -/
theorem unknown_is_not_more : ¬ BinarySound wasm (.uint 8) (.more false) (byte 0 0) (byte 0xff 5) := by
  rw [compare_sound_iff false rfl (fun _ _ => rfl) monotone_more (by decide) (by decide) rfl rfl]
  decide

end Sample

end Solang.Codegen.StrengthReduce
