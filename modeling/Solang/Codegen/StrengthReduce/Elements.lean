import Solang.Codegen.StrengthReduce.Meaning
import Solang.Codegen.StrengthReduce.Reduce
import Solang.Lib.TwosComplement

/-!
# What a value set says

An element describes the integers that have its known bits, and a set those of its elements. A single
constant is the only integer it describes, and no integer is over the maximum of its set.
-/

namespace Solang.Codegen.StrengthReduce

open TwosComplement

/-- The known bits are those of the integer. -/
def Value.Describes (v : Value) (x : Int) : Prop :=
  ∀ i < v.bits, v.knownBits.getLsbD i = true → v.value.getLsbD i = (pattern v.bits x).testBit i

/-- The values of the variables that have a value set are described by it. -/
def Variables.Describe (vars : Variables) (env : Env) : Prop :=
  ∀ varNo set, vars varNo = some set → ∃ v ∈ set, v.Describes (env.vars varNo)

variable {v : Value} {bits : Nat} {x c : Int}

theorem pattern_lt (bits : Nat) (x : Int) : pattern bits x < 2 ^ bits := by
  have hlt := Int.emod_lt_of_pos x (by positivity : (0 : Int) < 2 ^ bits)
  have hcast := pattern_natCast bits x
  have hpow : ((2 ^ bits : Nat) : Int) = 2 ^ bits := Int.natCast_pow 2 bits
  omega

/-! ## Maxima -/

theorem Value.Describes.le_max (h : v.Describes x) (hbits : v.bits ≤ 256) :
    pattern v.bits x ≤ v.getUnsignedMaxValue.toNat := by
  have hand : pattern v.bits x &&& v.getUnsignedMaxValue.toNat = pattern v.bits x := by
    refine Nat.eq_of_testBit_eq fun i => ?_
    rw [Nat.testBit_and, BitVec.testBit_toNat, Value.getUnsignedMaxValue, BitVec.getLsbD_or,
      BitVec.getLsbD_not]
    by_cases hi : i < v.bits
    · have hbit := h i hi
      have h256 : i < 256 := by omega
      cases hknown : v.knownBits.getLsbD i with
      | true =>
        rw [hbit hknown]
        simp
      | false => simp [h256]
    · have hzero : (pattern v.bits x).testBit i = false :=
        Nat.testBit_lt_two_pow ((pattern_lt v.bits x).trans_le (Nat.pow_le_pow_right (by decide) (by omega)))
      simp [hzero]
  rw [← hand]
  exact Nat.and_le_right

/-! ## Literals and variables -/

variable {ns : Namespace} {order : List Value → List Value} {vars : Variables} {env : Env} {ty : Ty}

theorem getLsbD_fill {bits : Bits} {lo i : Nat} (hlo : lo ≤ 256) (hi : i < lo) :
    (fill bits lo 256 false).getLsbD i = bits.getLsbD i := by
  have hmask : (2 ^ 256 - 2 ^ lo : Nat).testBit i = false := by
    have hsplit : (2 ^ 256 - 2 ^ lo : Nat) = 2 ^ lo * (2 ^ (256 - lo) - 1) := by
      rw [Nat.mul_sub, ← Nat.pow_add, Nat.add_sub_cancel' hlo, Nat.mul_one]
    rw [hsplit, Nat.testBit_two_pow_mul]
    simp [Nat.not_le.mpr hi]
  have h256 : i < 256 := by omega
  show (bits &&& ~~~BitVec.ofNat 256 (2 ^ 256 - 2 ^ lo)).getLsbD i = _
  rw [BitVec.getLsbD_and, BitVec.getLsbD_not, BitVec.getLsbD_ofNat, hmask]
  simp [h256]

theorem testBit_pattern {i : Nat} (h256 : bits ≤ 256) (hi : i < bits) (x : Int) :
    (BitVec.ofInt 256 x).getLsbD i = (pattern bits x).testBit i := by
  have hmod : pattern bits x = (BitVec.ofInt 256 x).toNat % 2 ^ bits := by
    have hcast := pattern_natCast bits x
    have hwide : (x % 2 ^ 256) % 2 ^ bits = x % 2 ^ bits := emod_of_le h256
    rw [BitVec.toNat_ofInt]
    apply Int.ofNat.inj
    show (pattern bits x : Int) = ((x % 2 ^ 256).toNat % 2 ^ bits : Nat)
    rw [hcast, Int.natCast_emod, Int.natCast_pow, Int.toNat_of_nonneg (Int.emod_nonneg x (by decide))]
    exact hwide.symm
  rw [hmod, Nat.testBit_mod_two_pow, BitVec.testBit_toNat]
  simp [hi]

end Solang.Codegen.StrengthReduce

/-!
## The elements of a value set

What `expression_values` computes from one element of each operand, and the integers that an element
describes: any choice of the bits that are not known gives one.
-/

namespace Solang.Codegen

open StrengthReduce

/-- The operation on the integer of the operand, of this type -/
def UnaryOp.apply (ns : Namespace) (operand : Ty) (x : Int) : UnaryOp → Option Int
  | zeroExt ty => some (ty.wrap ns (pattern (operand.bits ns) x))
  | signExt ty => some (ty.wrap ns (x.bmod (2 ^ operand.bits ns)))
  | trunc ty => some (ty.wrap ns x)
  | not => some (x == 0).toNat
  | bitwiseNot ty => some (ty.wrap ns (-x - 1))
  | _ => none

namespace StrengthReduce

/-! ### From elements to sets -/

section Sets

variable (ns : Namespace)

/-- The body of the closure over the pairs of elements, with the type of the left operand -/
def binaryValue (operand : Ty) : BinaryOp → Option (Value → Value → Value)
  | .bitwiseOr _ => some bitwiseOrValue
  | .bitwiseAnd _ => some bitwiseAndValue
  | .bitwiseXor _ => some bitwiseXorValue
  | .add ty _ => some (addValue ns ty)
  | .subtract ty _ => some (subtractValue ns ty)
  | .multiply ty _ => some (multiplyValue ns ty)
  | .more signed => some (moreValue signed)
  | .moreEqual signed => some (moreEqualValue signed)
  | .less signed => some (lessValue signed)
  | .lessEqual signed => some (lessEqualValue signed)
  | .equal => some (equalValue (operand.isSignedInt ns))
  | .notEqual => some (notEqualValue (operand.isSignedInt ns))
  | _ => none

/-- The body of the closure over the elements -/
def unaryValue : UnaryOp → Option (Value → Value)
  | .zeroExt ty => some (zeroExtValue ns ty)
  | .signExt ty => some (signExtValue ns ty)
  | .trunc ty => some (truncValue ns ty)
  | .not => some notValue
  | .bitwiseNot _ => some complementValue
  | _ => none

variable {ns} {order : List Value → List Value} {vars : Variables} {left right expr : Expression}
  {f : Value → Value → Value} {g : Value → Value} {op : BinaryOp} {unary : UnaryOp} {v : Value}

end Sets

/-! ### Soundness at elements -/

instance (v : Value) (x : Int) : Decidable (v.Describes x) := inferInstanceAs (Decidable (∀ _ < _, _))

section Sound

variable (ns : Namespace) (operand : Ty)

/-- The element for the operation describes its result, whatever integers the operands are. -/
def BinarySound (op : BinaryOp) (l r : Value) : Prop :=
  ∃ f, binaryValue ns operand op = some f ∧ ∀ x y, l.Describes x → r.Describes y →
    ∀ z, op.apply ns operand x y = some z → (f l r).Describes z

def UnarySound (op : UnaryOp) (v : Value) : Prop :=
  ∃ g, unaryValue ns op = some g ∧ ∀ x, v.Describes x →
    ∀ z, op.apply ns operand x = some z → (g v).Describes z

end Sound

theorem getLsbD_fill_range {bits : Bits} {lo hi i : Nat} (b : Bool) (h256 : hi ≤ 256) :
    (fill bits lo hi b).getLsbD i = if lo ≤ i ∧ i < hi then b else bits.getLsbD i := by
  have hmask : (2 ^ hi - 2 ^ lo : Nat).testBit i = decide (lo ≤ i ∧ i < hi) := by
    by_cases hlo : lo ≤ hi
    · have hsplit : (2 ^ hi - 2 ^ lo : Nat) = 2 ^ lo * (2 ^ (hi - lo) - 1) := by
        rw [Nat.mul_sub, ← Nat.pow_add, Nat.add_sub_cancel' hlo, Nat.mul_one]
      rw [hsplit, Nat.testBit_two_pow_mul, Nat.testBit_two_pow_sub_one]
      rw [Bool.eq_iff_iff]
      simp
      omega
    · have hzero : (2 ^ hi - 2 ^ lo : Nat) = 0 :=
        Nat.sub_eq_zero_of_le (Nat.pow_le_pow_right (by decide) (by omega))
      rw [hzero, Nat.zero_testBit]
      simp
      omega
  by_cases hi256 : i < 256
  · cases b with
    | true =>
      show (bits ||| BitVec.ofNat 256 (2 ^ hi - 2 ^ lo)).getLsbD i = _
      rw [BitVec.getLsbD_or, BitVec.getLsbD_ofNat, hmask]
      by_cases hrange : lo ≤ i ∧ i < hi <;> simp [hrange, hi256]
    | false =>
      show (bits &&& ~~~BitVec.ofNat 256 (2 ^ hi - 2 ^ lo)).getLsbD i = _
      rw [BitVec.getLsbD_and, BitVec.getLsbD_not, BitVec.getLsbD_ofNat, hmask]
      by_cases hrange : lo ≤ i ∧ i < hi <;> simp [hrange, hi256]
  · rw [if_neg (by omega), BitVec.getLsbD_of_ge _ _ (by omega), BitVec.getLsbD_of_ge _ _ (by omega)]

/-! ### Integers that an element describes -/

namespace Value

/-- The bits that are known, and these ones where they are not -/
def pick (v : Value) (unknown : Bits) : Int :=
  ((v.value &&& v.knownBits ||| unknown &&& ~~~v.knownBits).toNat % 2 ^ v.bits : Nat)

theorem testBit_pattern_natCast {bits n i : Nat} (hi : i < bits) :
    (pattern bits (n % 2 ^ bits : Nat)).testBit i = n.testBit i := by
  have hlt : n % 2 ^ bits < 2 ^ bits := Nat.mod_lt _ (by positivity)
  rw [pattern_of_lt (Int.natCast_nonneg _) (by exact_mod_cast hlt), Int.toNat_natCast,
    Nat.testBit_mod_two_pow]
  simp [hi]

theorem testBit_pick {v : Value} {i : Nat} (unknown : Bits) (hi : i < v.bits) (h256 : v.bits ≤ 256) :
    (pattern v.bits (v.pick unknown)).testBit i =
      if v.knownBits.getLsbD i then v.value.getLsbD i else unknown.getLsbD i := by
  have hi256 : i < 256 := by omega
  rw [pick, testBit_pattern_natCast hi, BitVec.testBit_toNat, BitVec.getLsbD_or, BitVec.getLsbD_and,
    BitVec.getLsbD_and, BitVec.getLsbD_not]
  cases v.knownBits.getLsbD i <;> simp [hi256]

theorem describes_pick {v : Value} (unknown : Bits) (h256 : v.bits ≤ 256) : v.Describes (v.pick unknown) := by
  intro i hi hknown
  rw [testBit_pick unknown hi h256, if_pos hknown]

end Value

namespace Sample

def wasm : Namespace where
  addressLength := 32
  valueLength := 16
  selectorLength := 4
  storageBits := 256
  enumTy := fun _ => .uint 8
  enumBits := fun _ => 8
  userBits := fun _ => 256
  userSigned := fun _ => false

/-- An element of 8 bits, with these bits known of the integer -/
def byte (knownBits value : Bits) : Value := ⟨fill knownBits 8 256 true, value, 8⟩

end Sample

end StrengthReduce

end Solang.Codegen
