import Solang.Codegen.StrengthReduce.Elements

/-!
# The elements of bitwise operations

A bit of a result is known under a condition of each operation on the bits of the operands. `^` takes the
right ones. `&` and `|` also take the known bits of the left operand, whatever the right one is, `&` takes
the value of the left operand where it has to be cleared, and the complement of a known bit is set.
-/

namespace Solang.Codegen.StrengthReduce

variable {ns : Namespace} {ty operand : Ty} {l r v : Value} {bits i : Nat}

/-! ## Bits of the results -/

theorem testBit_of_eq_wrap {z : Int} {n : Nat} (hz : z = ty.wrap ns (n : Int))
    (hi : i < ty.bits ns) : (pattern (ty.bits ns) z).testBit i = n.testBit i := by
  rw [hz, pattern_wrap]
  have hlt : n % 2 ^ ty.bits ns < 2 ^ ty.bits ns := Nat.mod_lt _ (by positivity)
  have hmod : pattern (ty.bits ns) (n : Int) = n % 2 ^ ty.bits ns := by
    apply Int.ofNat.inj
    show (pattern (ty.bits ns) (n : Int) : Int) = _
    rw [pattern_natCast]
    norm_cast
  rw [hmod, Nat.testBit_mod_two_pow]
  simp [hi]

theorem testBit_complement (x : Int) (hi : i < bits) :
    (pattern bits (-x - 1)).testBit i = !(pattern bits x).testBit i := by
  have hcompl : pattern bits (-x - 1) = 2 ^ bits - (pattern bits x + 1) := by
    have hlt := pattern_lt bits x
    have hx := pattern_natCast bits x
    have hc := pattern_natCast bits (-x - 1)
    have hmod : (-x - 1) % 2 ^ bits = 2 ^ bits - 1 - x % 2 ^ bits := by
      have hsplit : -x - 1 = (2 ^ bits - 1 - x % 2 ^ bits) + 2 ^ bits * (-(x / 2 ^ bits) - 1) := by
        have hdiv := Int.emod_add_mul_ediv x (2 ^ bits)
        rw [mul_sub, mul_neg]
        omega
      have hnonneg := Int.emod_nonneg x (by positivity : (2 : Int) ^ bits ≠ 0)
      have hupper := Int.emod_lt_of_pos x (by positivity : (0 : Int) < 2 ^ bits)
      rw [hsplit, Int.add_mul_emod_self_left, Int.emod_eq_of_lt (by omega) (by omega)]
    have hpow : ((2 ^ bits : Nat) : Int) = 2 ^ bits := Int.natCast_pow 2 bits
    omega
  rw [hcompl, Nat.testBit_two_pow_sub_succ (pattern_lt bits x)]
  simp [hi]

/-- An operation on bits is sound when it is at every bit, for all the values of the bits that are not
known. -/
theorem binarySound_iff_bits {f : Value → Value → Value} {op : BinaryOp} (onBits : Bool → Bool → Bool)
    (hf : binaryValue ns operand op = some f) (h256 : ty.bits ns ≤ 256) (hl : l.bits = ty.bits ns)
    (hr : r.bits = ty.bits ns) (hbits : (f l r).bits = ty.bits ns)
    (hop : ∀ x y, ∃ z, op.apply ns operand x y = some z ∧ ∀ i < ty.bits ns, (pattern (ty.bits ns) z).testBit i =
      onBits ((pattern (ty.bits ns) x).testBit i) ((pattern (ty.bits ns) y).testBit i)) :
    BinarySound ns operand op l r ↔
      ∀ i < ty.bits ns, (f l r).knownBits.getLsbD i = true →
        ∀ a b, (l.knownBits.getLsbD i = true → l.value.getLsbD i = a) →
          (r.knownBits.getLsbD i = true → r.value.getLsbD i = b) →
            (f l r).value.getLsbD i = onBits a b := by
  constructor
  · rintro ⟨f', hf', hsound⟩ i hi hknown a b ha hb
    rw [hf] at hf'
    cases hf'
    -- the two integers that have these bits where nothing is known
    let x := l.pick (BitVec.fill 256 a)
    let y := r.pick (BitVec.fill 256 b)
    obtain ⟨z, hz, hbit⟩ := hop x y
    have hx : (pattern (ty.bits ns) x).testBit i = a := by
      rw [← hl, Value.testBit_pick _ (by omega) (by omega), BitVec.getLsbD_fill]
      cases hk : l.knownBits.getLsbD i with
      | true => exact ha hk
      | false => simp [show i < 256 by omega]
    have hy : (pattern (ty.bits ns) y).testBit i = b := by
      rw [← hr, Value.testBit_pick _ (by omega) (by omega), BitVec.getLsbD_fill]
      cases hk : r.knownBits.getLsbD i with
      | true => exact hb hk
      | false => simp [show i < 256 by omega]
    have hdescribes := hsound x y (Value.describes_pick _ (by omega)) (Value.describes_pick _ (by omega))
      z hz i (by omega) hknown
    rw [hdescribes, hbits, hbit i hi, hx, hy]
  · intro hall
    refine ⟨f, hf, fun x y hx hy z hz i hi hknown => ?_⟩
    obtain ⟨z', hz', hbit⟩ := hop x y
    rw [hz] at hz'
    cases hz'
    rw [hbits] at hi ⊢
    rw [hbit i hi]
    refine hall i hi hknown _ _ (fun hk => ?_) fun hk => ?_
    · rw [hx i (by omega) hk, hl]
    · rw [hy i (by omega) hk, hr]

/-! ## When the elements are right -/

/-- A bit that the left operand has set is lost if it is known, and stays if the right operand clears it. -/
def AndAgrees (l r : Value) : Prop :=
  ∀ i < l.bits, l.value.getLsbD i = true →
    l.knownBits.getLsbD i = false ∧ (r.knownBits.getLsbD i = true → r.value.getLsbD i = true)

/-- A bit that the left operand has clear stays so. -/
def OrAgrees (l r : Value) : Prop :=
  ∀ i < l.bits, l.knownBits.getLsbD i = true → l.value.getLsbD i = false →
    r.knownBits.getLsbD i = true

/-- The complement of a known bit is set. -/
def ComplementAgrees (v : Value) : Prop :=
  ∀ i < v.bits, v.knownBits.getLsbD i = true → v.value.getLsbD i = false

instance : Decidable (AndAgrees l r) := inferInstanceAs (Decidable (∀ _ < _, _))

section Operations

variable (h256 : ty.bits ns ≤ 256) (hl : l.bits = ty.bits ns) (hr : r.bits = ty.bits ns)

include h256 hl hr

theorem bitwiseAnd_sound_iff : BinarySound ns operand (.bitwiseAnd ty) l r ↔ AndAgrees l r := by
  rw [binarySound_iff_bits (· && ·) rfl h256 hl hr hl fun x y => ⟨_, rfl, fun i hi => by
    rw [testBit_of_eq_wrap rfl hi, Nat.testBit_and]⟩]
  unfold AndAgrees
  rw [hl]
  refine forall₂_congr fun i hi => ?_
  have hi256 : i < 256 := by omega
  simp only [bitwiseAndValue, BitVec.getLsbD_or, BitVec.getLsbD_and, BitVec.getLsbD_not, hi256]
  generalize l.knownBits.getLsbD i = lk, l.value.getLsbD i = lv, r.knownBits.getLsbD i = rk,
    r.value.getLsbD i = rv
  revert lk lv rk rv
  decide

theorem bitwiseOr_sound_iff : BinarySound ns operand (.bitwiseOr ty) l r ↔ OrAgrees l r := by
  rw [binarySound_iff_bits (· || ·) rfl h256 hl hr hl fun x y => ⟨_, rfl, fun i hi => by
    rw [testBit_of_eq_wrap rfl hi, Nat.testBit_or]⟩]
  unfold OrAgrees
  rw [hl]
  refine forall₂_congr fun i hi => ?_
  simp only [bitwiseOrValue, BitVec.getLsbD_or, BitVec.getLsbD_and]
  generalize l.knownBits.getLsbD i = lk, l.value.getLsbD i = lv, r.knownBits.getLsbD i = rk,
    r.value.getLsbD i = rv
  revert lk lv rk rv
  decide

theorem bitwiseXor_sound : BinarySound ns operand (.bitwiseXor ty) l r := by
  rw [binarySound_iff_bits (· ^^ ·) rfl h256 hl hr hl fun x y => ⟨_, rfl, fun i hi => by
    rw [testBit_of_eq_wrap rfl hi, Nat.testBit_xor]⟩]
  intro i hi
  simp only [bitwiseXorValue]
  rw [getLsbD_fill (by omega) (by omega), BitVec.getLsbD_xor, BitVec.getLsbD_and]
  generalize l.knownBits.getLsbD i = lk, l.value.getLsbD i = lv, r.knownBits.getLsbD i = rk,
    r.value.getLsbD i = rv
  revert lk lv rk rv
  decide

end Operations

theorem complement_sound_iff (h256 : ty.bits ns ≤ 256) (hv : v.bits = ty.bits ns) :
    UnarySound ns operand (.bitwiseNot ty) v ↔ ComplementAgrees v := by
  have hbit : ∀ x, ∀ i < v.bits,
      (pattern v.bits (ty.wrap ns (-x - 1))).testBit i = !(pattern v.bits x).testBit i := by
    intro x i hi
    rw [hv, pattern_wrap, testBit_complement x (by omega)]
  have hvalue : ∀ i, v.knownBits.getLsbD i = true → (complementValue v).value.getLsbD i = true := by
    intro i hknown
    have hi256 : i < 256 := BitVec.lt_of_getLsbD hknown
    simp only [complementValue, BitVec.getLsbD_or, BitVec.getLsbD_and, BitVec.getLsbD_not, hknown, hi256]
    cases v.value.getLsbD i <;> rfl
  constructor
  · rintro ⟨g, hg, hsound⟩ i hi hknown
    cases hg
    have hdescribes := hsound _ (Value.describes_pick 0 (by omega)) _ rfl i hi hknown
    have hi' : i < v.bits := hi
    rw [hvalue i hknown] at hdescribes
    have hx := hbit (v.pick 0) i hi'
    rw [Value.testBit_pick 0 hi' (by omega), if_pos hknown] at hx
    cases hval : v.value.getLsbD i with
    | false => rfl
    | true => rw [show (complementValue v).bits = v.bits from rfl, hx, hval] at hdescribes; cases hdescribes
  · intro hagrees
    refine ⟨_, rfl, fun x hx z hz i hi hknown => ?_⟩
    cases hz
    have hi' : i < v.bits := hi
    rw [hvalue i hknown, show (complementValue v).bits = v.bits from rfl, hbit x i hi', ← hx i hi' hknown,
      hagrees i hi' hknown]
    rfl

/-- The elements of `&`, `|`, `^` and `~` describe the results for all integers that their operands
describe, `^` always and the others exactly when they keep the bits that they should. -/
theorem bitwise_sound_iff (h256 : ty.bits ns ≤ 256) (hl : l.bits = ty.bits ns) (hr : r.bits = ty.bits ns) :
    (BinarySound ns ty (.bitwiseAnd ty) l r ↔ AndAgrees l r) ∧
      (BinarySound ns ty (.bitwiseOr ty) l r ↔ OrAgrees l r) ∧
      BinarySound ns ty (.bitwiseXor ty) l r ∧
      (UnarySound ns ty (.bitwiseNot ty) l ↔ ComplementAgrees l) :=
  ⟨bitwiseAnd_sound_iff h256 hl hr, bitwiseOr_sound_iff h256 hl hr, bitwiseXor_sound h256 hl hr,
    complement_sound_iff h256 hl⟩

namespace Sample

/-- Of the unknown integer only the bits that the mask clears become known. -/
theorem masked_is_sound :
    BinarySound wasm (.uint 8) (.bitwiseAnd (.uint 8)) (byte 0 0) (byte 0xff 15) :=
  (bitwise_sound_iff (by decide) rfl rfl).1.mpr (by decide)

/-- `1 & 1` is said to be 0. -/
theorem and_of_ones_is_lost :
    ¬ BinarySound wasm (.uint 8) (.bitwiseAnd (.uint 8)) (byte 0xff 1) (byte 0xff 1) := by
  rw [bitwiseAnd_sound_iff (by decide) rfl rfl]
  decide

end Sample

end Solang.Codegen.StrengthReduce
