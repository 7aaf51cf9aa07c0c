import Solang.Emit.Math
import Solang.Sema.StructRecursion
import Solang.Stdlib.BigIntSigned

/-!
# Integer operators

`emit/expression.rs`: the code for the operators on integers, as it runs, on the values of the operands.
The functions are `none` when the fuel runs out in the loop of a wide division.
-/

namespace Solang.Emit.Expression

open Llvm Stdlib.BigInt Math Sema.Structs

variable {bits : Nat}

def add (overflowing signed : Bool) (left right : BitVec bits) : Outcome (BitVec bits) :=
  if overflowing then .value (left + right) else buildBinaryOpWithOverflowCheck left right .add signed

def subtract (overflowing signed : Bool) (left right : BitVec bits) : Outcome (BitVec bits) :=
  if overflowing then .value (left - right) else buildBinaryOpWithOverflowCheck left right .subtract signed

def negate (overflowing : Bool) (e : BitVec bits) : Outcome (BitVec bits) :=
  if overflowing then .value (-e) else buildBinaryOpWithOverflowCheck 0 e .subtract true

/-! ## Division -/

/-- `build_int_z_extend` and `build_int_s_extend` -/
def extend (signed : Bool) (w : Nat) (x : BitVec bits) : BitVec w :=
  if signed then x.signExtend w else x.setWidth w

/-- The results, truncated, or "division by zero" when the function does not return zero -/
def results (bits : Nat) {w : Nat} : Option (DivMod w) → Outcome (DivMod bits)
  | some d => .value ⟨d.remainder.setWidth bits, d.quotient.setWidth bits⟩
  | none => .abort

/-- The call of a division of `w` bits -/
def callDivmod (signed : Bool) {w : Nat} (divmod : BitVec w → BitVec w → Option (Option (DivMod w)))
    (left right : BitVec bits) : Option (Outcome (DivMod bits)) :=
  (divmod (extend signed w left) (extend signed w right)).map (results bits)

/-- `udivmod128` or `udivmod256` -/
def udivmod (fuel : Nat) (left right : BitVec bits) : Option (Outcome (DivMod bits)) :=
  if bits ≤ 128 then callDivmod false (fun l r => some (udivmod128 l r)) left right
  else callDivmod false (udivmod256 fuel) left right

/-- `sdivmod128` or `sdivmod256` -/
def sdivmod (fuel : Nat) (left right : BitVec bits) : Option (Outcome (DivMod bits)) :=
  if bits ≤ 128 then callDivmod true (fun l r => some (sdivmod128 l r)) left right
  else callDivmod true (sdivmod256 fuel) left right

/-- `UnsignedDivide` -/
def unsignedDivide (fuel : Nat) (left right : BitVec bits) : Option (Outcome (BitVec bits)) :=
  if 64 < bits then (udivmod fuel left right).map (DivMod.quotient <$> ·) else some (udiv left right)

/-- `SignedDivide` -/
def signedDivide (target : Target) (fuel : Nat) (left right : BitVec bits) : Option (Outcome (BitVec bits)) :=
  if 64 < bits then (sdivmod fuel left right).map (DivMod.quotient <$> ·)
  else if target = .solana then some do
    let leftNegative := left.slt 0
    let rightNegative := right.slt 0
    let res ← udiv (negateIf leftNegative left) (negateIf rightNegative right)
    pure (negateIf (leftNegative ^^ rightNegative) res)
  else some (sdiv left right)

/-- `UnsignedModulo` -/
def unsignedModulo (fuel : Nat) (left right : BitVec bits) : Option (Outcome (BitVec bits)) :=
  if 64 < bits then (udivmod fuel left right).map (DivMod.remainder <$> ·) else some (urem left right)

/-- `SignedModulo` -/
def signedModulo (target : Target) (fuel : Nat) (left right : BitVec bits) : Option (Outcome (BitVec bits)) :=
  if 64 < bits then (sdivmod fuel left right).map (DivMod.remainder <$> ·)
  else if target = .solana then some do
    let leftNegative := left.slt 0
    let rightNegative := right.slt 0
    let res ← urem (negateIf leftNegative left) (negateIf rightNegative right)
    pure (negateIf leftNegative res)
  else some (srem left right)

/-! ## Shifts -/

def shiftLeft (left right : BitVec bits) : Outcome (BitVec bits) := shl left right

def shiftRight (left right : BitVec bits) (signed : Bool) : Outcome (BitVec bits) :=
  if signed then ashr left right else lshr left right

/-! ## Operations -/

/-- An operator with its operands -/
inductive Operation (bits : Nat) where
  | add (overflowing signed : Bool) (left right : BitVec bits)
  | subtract (overflowing signed : Bool) (left right : BitVec bits)
  | negate (overflowing : Bool) (e : BitVec bits)
  | divide (signed : Bool) (left right : BitVec bits)
  | modulo (signed : Bool) (left right : BitVec bits)
  | shiftLeft (left right : BitVec bits)
  | shiftRight (signed : Bool) (left right : BitVec bits)

def Operation.emit (target : Target) (fuel : Nat) : Operation bits → Option (Outcome (BitVec bits))
  | add overflowing signed left right => some (Expression.add overflowing signed left right)
  | subtract overflowing signed left right => some (Expression.subtract overflowing signed left right)
  | negate overflowing e => some (Expression.negate overflowing e)
  | divide false left right => unsignedDivide fuel left right
  | divide true left right => signedDivide target fuel left right
  | modulo false left right => unsignedModulo fuel left right
  | modulo true left right => signedModulo target fuel left right
  | shiftLeft left right => some (Expression.shiftLeft left right)
  | shiftRight signed left right => some (Expression.shiftRight left right signed)

/-- What the language says: checked operations are exact, other ones wrap around, a zero divisor is an
error, quotients are truncated, and a shift is by any number of bits. -/
def Operation.meaning : Operation bits → Outcome (BitVec bits)
  | add true signed left right => .value (BitVec.ofInt bits (read signed left + read signed right))
  | add false signed left right => exactly signed bits (read signed left + read signed right)
  | subtract true signed left right => .value (BitVec.ofInt bits (read signed left - read signed right))
  | subtract false signed left right => exactly signed bits (read signed left - read signed right)
  | negate true e => .value (BitVec.ofInt bits (-read true e))
  | negate false e => exactly true bits (-read true e)
  | divide signed left right =>
    if right = 0 then .abort else .value (BitVec.ofInt bits ((read signed left).tdiv (read signed right)))
  | modulo signed left right =>
    if right = 0 then .abort else .value (BitVec.ofInt bits ((read signed left).tmod (read signed right)))
  | shiftLeft left right => .value (BitVec.ofInt bits (read false left * 2 ^ right.toNat))
  | shiftRight signed left right => .value (BitVec.ofInt bits (read signed left / 2 ^ right.toNat))

end Solang.Emit.Expression

/-!
## Integer operators are exact where they are defined

A wide division tests its divisor, and is exact. The other divisions and all shifts are instructions of
LLVM, which have no result for some operands.
-/

namespace Solang.Emit.Expression

open Llvm Stdlib.BigInt Math Sema.Structs

variable {bits : Nat}

/-! ### Wide division -/

section Wide

variable {w : Nat} {signed : Bool}

/-- The results for the integers, unless the divisor is zero -/
def quotRem (signed : Bool) (w : Nat) (left right : BitVec bits) : Option (DivMod w) :=
  if right = 0 then none
  else some ⟨BitVec.ofInt w ((read signed left).tmod (read signed right)),
    BitVec.ofInt w ((read signed left).tdiv (read signed right))⟩

theorem read_extend (hw : bits ≤ w) (x : BitVec bits) : read signed (extend signed w x) = read signed x := by
  unfold extend
  cases signed with
  | true => exact BitVec.toInt_signExtend_of_le hw
  | false =>
    have hlt := x.isLt.trans_le (Nat.pow_le_pow_right (by decide) hw)
    simp [Nat.mod_eq_of_lt hlt]

theorem quotRem_extend (hw : bits ≤ w) (left right : BitVec bits) :
    quotRem signed w (extend signed w left) (extend signed w right) = quotRem signed w left right := by
  have hzero : extend signed w right = 0 ↔ right = 0 := by
    rw [← @read_eq_zero _ signed, read_extend hw, read_eq_zero]
  unfold quotRem
  rw [read_extend hw, read_extend hw]
  exact if_congr hzero rfl rfl

theorem eq_quotRem {left right : BitVec w} {o : Option (DivMod w)} (h : Returns left right o) :
    o = quotRem false w left right := by
  unfold quotRem
  rw [ofInt_tdiv, ofInt_tmod]
  cases o with
  | none => rw [if_pos (h.none_iff.mp rfl)]
  | some d =>
    have hne : right ≠ 0 := fun h0 => Option.some_ne_none d (h.none_iff.mpr h0)
    rw [if_neg hne, (h.divides d rfl).eq_div]
    rfl

theorem signed_eq_quotRem (hw : 8 ≤ w) {left right : BitVec w} {o : Option (DivMod w)}
    (h : Returns (absolute left) (absolute right) o) :
    o.map (·.signed left right) = quotRem true w left right := by
  unfold quotRem
  rw [ofInt_tdiv, ofInt_tmod]
  cases o with
  | none => rw [Option.map_none, if_pos (absolute_eq_zero.mp (h.none_iff.mp rfl))]
  | some d =>
    have hne : right ≠ 0 := fun h0 => Option.some_ne_none d (h.none_iff.mpr (absolute_eq_zero.mpr h0))
    rw [Option.map_some, if_neg hne, (h.divides d rfl).signed hw]
    rfl

theorem results_quotRem (hw : bits ≤ w) (left right : BitVec bits) :
    results bits (quotRem signed w left right) = (quotRem signed bits left right).elim .abort .value := by
  unfold quotRem
  by_cases hzero : right = 0
  · rw [if_pos hzero, if_pos hzero]
    rfl
  · rw [if_neg hzero, if_neg hzero, results, setWidth_ofInt hw, setWidth_ofInt hw]
    rfl

theorem callDivmod_settles (hw : bits ≤ w) {divmod : Nat → BitVec w → BitVec w → Option (Option (DivMod w))}
    (h : ∀ l r, Fuel.Settles (fun fuel => divmod fuel l r) (quotRem signed w l r)) (left right : BitVec bits) :
    Fuel.Settles (fun fuel => callDivmod signed (divmod fuel) left right)
      ((quotRem signed bits left right).elim .abort .value) := by
  rw [← results_quotRem hw, ← quotRem_extend hw]
  exact (h _ _).map (results bits)

variable (hbits : bits ≤ 256)

include hbits

theorem udivmod_settles (left right : BitVec bits) :
    Fuel.Settles (fun fuel => udivmod fuel left right)
      ((quotRem false bits left right).elim .abort .value) := by
  unfold udivmod
  by_cases hsmall : bits ≤ 128
  · simp only [if_pos hsmall]
    refine callDivmod_settles hsmall (fun l r => ?_) left right
    rw [← eq_quotRem (udivmod128_returns l r)]
    exact Fuel.settles_const _
  · simp only [if_neg hsmall]
    refine callDivmod_settles hbits (fun l r => ?_) left right
    obtain ⟨o, hsettles, hreturns⟩ := udivmodWide_returns (fun _ => bits256_eq_log2) l r
    rw [← eq_quotRem hreturns]
    exact hsettles

theorem sdivmod_settles (left right : BitVec bits) :
    Fuel.Settles (fun fuel => sdivmod fuel left right)
      ((quotRem true bits left right).elim .abort .value) := by
  unfold sdivmod
  by_cases hsmall : bits ≤ 128
  · simp only [if_pos hsmall]
    refine callDivmod_settles hsmall (fun l r => ?_) left right
    rw [← signed_eq_quotRem (by decide) (udivmod128_returns (absolute l) (absolute r))]
    exact Fuel.settles_const _
  · simp only [if_neg hsmall]
    refine callDivmod_settles hbits (fun l r => ?_) left right
    obtain ⟨o, hsettles, hreturns⟩ := udivmodWide_returns (fun _ => bits256_eq_log2) (absolute l) (absolute r)
    rw [← signed_eq_quotRem (by decide) hreturns]
    exact hsettles.map _

end Wide

/-! ### Narrow division -/

section Narrow

variable {left right : BitVec bits}

theorem negateIf_udiv_abs (left right : BitVec bits) :
    negateIf (left.msb ^^ right.msb) (left.abs / right.abs) = left.sdiv right := by
  unfold negateIf BitVec.abs
  rw [BitVec.sdiv_eq]
  cases left.msb <;> cases right.msb <;> rfl

theorem negateIf_urem_abs (left right : BitVec bits) :
    negateIf left.msb (left.abs % right.abs) = left.srem right := by
  unfold negateIf BitVec.abs
  rw [BitVec.srem_eq]
  cases left.msb <;> cases right.msb <;> rfl

theorem abs_eq_zero : right.abs = 0 ↔ right = 0 := by
  unfold BitVec.abs
  split
  · exact BitVec.neg_eq_zero_iff
  · exact Iff.rfl

theorem slt_zero_eq (x : BitVec bits) : x.slt 0 = x.msb := BitVec.slt_zero_eq_msb

variable (h : ¬ 64 < bits) (target : Target) (fuel : Nat) (left right : BitVec bits)

include h

theorem unsignedDivide_narrow :
    unsignedDivide fuel left right = some (if right = 0 then .undefined else .value (left / right)) := if_neg h

theorem unsignedModulo_narrow :
    unsignedModulo fuel left right = some (if right = 0 then .undefined else .value (left % right)) := if_neg h

theorem signedDivide_narrow : signedDivide target fuel left right =
    some (if right = 0 ∨ target ≠ .solana ∧ sdivOverflow left right then .undefined
      else .value (left.sdiv right)) := by
  unfold signedDivide
  rw [if_neg h]
  by_cases htarget : target = .solana
  · subst htarget
    rw [if_pos rfl]
    dsimp only
    rw [negateIf_abs, negateIf_abs, slt_zero_eq, slt_zero_eq]
    simp only [udiv, abs_eq_zero, ne_eq, not_true_eq_false, false_and, or_false]
    split
    · rfl
    · rw [Outcome.value_bind, negateIf_udiv_abs, Outcome.pure_eq]
  · rw [if_neg htarget, sdiv]
    simp only [ne_eq, htarget, not_false_eq_true, true_and]

theorem signedModulo_narrow : signedModulo target fuel left right =
    some (if right = 0 ∨ target ≠ .solana ∧ sdivOverflow left right then .undefined
      else .value (left.srem right)) := by
  unfold signedModulo
  rw [if_neg h]
  by_cases htarget : target = .solana
  · subst htarget
    rw [if_pos rfl]
    dsimp only
    rw [negateIf_abs, negateIf_abs, slt_zero_eq]
    simp only [urem, abs_eq_zero, ne_eq, not_true_eq_false, false_and, or_false]
    split
    · rfl
    · rw [Outcome.value_bind, negateIf_urem_abs, Outcome.pure_eq]
  · rw [if_neg htarget, srem]
    simp only [ne_eq, htarget, not_false_eq_true, true_and]

end Narrow

/-! ### Operations -/

namespace Operation

/-- The instructions have a result for the operands. -/
def Defined (target : Target) : Operation bits → Prop
  | add .. | subtract .. | negate .. => True
  | divide signed left right | modulo signed left right =>
    64 < bits ∨ right ≠ 0 ∧ ¬ (signed = true ∧ target ≠ .solana ∧ sdivOverflow left right)
  | shiftLeft _ right | shiftRight _ _ right => right.toNat < bits

theorem meaning_ne_undefined (op : Operation bits) : op.meaning ≠ .undefined := by
  have hexactly : ∀ signed v, exactly signed bits v ≠ .undefined := by
    intro signed v
    unfold exactly
    split <;> nofun
  have hzero : ∀ (right : BitVec bits) (x : BitVec bits),
      (if right = 0 then Outcome.abort else .value x) ≠ .undefined := by
    intro right x
    split <;> nofun
  cases op with
  | add overflowing signed left right | subtract overflowing signed left right | negate overflowing e =>
    cases overflowing with
    | true => nofun
    | false => exact hexactly _ _
  | divide signed left right | modulo signed left right => exact hzero _ _
  | shiftLeft left right | shiftRight signed left right => nofun

variable {target : Target}

instance (op : Operation bits) : Decidable (op.Defined target) := by
  cases op <;> unfold Defined <;> infer_instance

/-- What a wide division settles to, for one of its results -/
theorem wide_settles {signed : Bool} {left right : BitVec bits} {f : DivMod bits → BitVec bits}
    {divmod : Nat → Option (Outcome (DivMod bits))}
    (h : Fuel.Settles divmod ((quotRem signed bits left right).elim .abort .value)) :
    Fuel.Settles (fun fuel => (divmod fuel).map (f <$> ·)) (if right = 0 then .abort else
      .value (f ⟨BitVec.ofInt bits ((read signed left).tmod (read signed right)),
        BitVec.ofInt bits ((read signed left).tdiv (read signed right))⟩)) := by
  have hmap := h.map (f <$> ·)
  unfold quotRem at hmap
  by_cases hzero : right = 0
  · rw [if_pos hzero] at hmap ⊢
    exact hmap
  · rw [if_neg hzero] at hmap ⊢
    exact hmap

/-- A wide division tests its divisor, and a narrow one is an instruction. -/
theorem division_settles {signed : Bool} {left right q : BitVec bits}
    {run : Nat → Option (Outcome (BitVec bits))}
    (hwide : 64 < bits → Fuel.Settles run (if right = 0 then .abort else .value q))
    (hnarrow : ¬ 64 < bits → ∀ fuel, run fuel = some
      (if right = 0 ∨ (signed = true ∧ target ≠ .solana ∧ sdivOverflow left right) then .undefined
        else .value q)) :
    Fuel.Settles run (if (divide signed left right).Defined target then (if right = 0 then .abort else .value q)
      else .undefined) := by
  by_cases h : 64 < bits
  · rw [if_pos (show Defined target (divide signed left right) from .inl h)]
    exact hwide h
  · refine ⟨0, fun fuel _ => ?_⟩
    rw [hnarrow h]
    by_cases hno : right = 0 ∨ (signed = true ∧ target ≠ .solana ∧ sdivOverflow left right)
    · have hundefined : ¬ (divide signed left right).Defined target := by
        unfold Defined
        tauto
      rw [if_pos hno, if_neg hundefined]
    · have hdefined : (divide signed left right).Defined target := by
        unfold Defined
        tauto
      rw [if_neg hno, if_pos hdefined, if_neg fun h0 => hno (.inl h0)]

theorem divide_settles (hbits : bits ≤ 256) (signed : Bool) (left right : BitVec bits) :
    Fuel.Settles (fun fuel => (divide signed left right).emit target fuel)
      (if (divide signed left right).Defined target then (divide signed left right).meaning else .undefined) := by
  refine division_settles (fun hwide => ?_) fun hnarrow fuel => ?_
  · cases signed with
    | true =>
      simp only [emit, signedDivide, if_pos hwide]
      exact wide_settles (sdivmod_settles hbits left right)
    | false =>
      simp only [emit, unsignedDivide, if_pos hwide]
      exact wide_settles (udivmod_settles hbits left right)
  · rw [ofInt_tdiv]
    cases signed with
    | true =>
      rw [emit, signedDivide_narrow hnarrow]
      simp
    | false =>
      rw [emit, unsignedDivide_narrow hnarrow]
      simp

theorem modulo_settles (hbits : bits ≤ 256) (signed : Bool) (left right : BitVec bits) :
    Fuel.Settles (fun fuel => (modulo signed left right).emit target fuel)
      (if (modulo signed left right).Defined target then (modulo signed left right).meaning else .undefined) := by
  refine division_settles (fun hwide => ?_) fun hnarrow fuel => ?_
  · cases signed with
    | true =>
      simp only [emit, signedModulo, if_pos hwide]
      exact wide_settles (sdivmod_settles hbits left right)
    | false =>
      simp only [emit, unsignedModulo, if_pos hwide]
      exact wide_settles (udivmod_settles hbits left right)
  · rw [ofInt_tmod]
    cases signed with
    | true =>
      rw [emit, signedModulo_narrow hnarrow]
      simp
    | false =>
      rw [emit, unsignedModulo_narrow hnarrow]
      simp

variable (target : Target) (fuel : Nat)

theorem emit_add (overflowing signed : Bool) (left right : BitVec bits) :
    (add overflowing signed left right).emit target fuel = some (add overflowing signed left right).meaning := by
  cases overflowing with
  | true => exact congrArg (fun x => some (Outcome.value x)) (BinaryOp.add.apply_eq signed left right)
  | false => exact congrArg some (buildBinaryOpWithOverflowCheck_eq .add signed left right)

theorem emit_subtract (overflowing signed : Bool) (left right : BitVec bits) :
    (subtract overflowing signed left right).emit target fuel =
      some (subtract overflowing signed left right).meaning := by
  cases overflowing with
  | true => exact congrArg (fun x => some (Outcome.value x)) (BinaryOp.subtract.apply_eq signed left right)
  | false => exact congrArg some (buildBinaryOpWithOverflowCheck_eq .subtract signed left right)

theorem emit_negate (overflowing : Bool) (e : BitVec bits) :
    (negate overflowing e).emit target fuel = some (negate overflowing e).meaning := by
  have hsub : BinaryOp.subtract.meaning (read true (0 : BitVec bits)) (read true e) = -read true e := by
    rw [read_eq_zero.mpr rfl, BinaryOp.meaning, zero_sub]
  cases overflowing with
  | true =>
    refine congrArg (fun x => some (Outcome.value x)) ?_
    rw [BitVec.ofInt_neg, ofInt_read]
  | false =>
    refine congrArg some ((buildBinaryOpWithOverflowCheck_eq .subtract true 0 e).trans ?_)
    rw [hsub]
    rfl

theorem emit_shiftLeft (left right : BitVec bits) : (shiftLeft left right).emit target fuel =
    some (if (shiftLeft left right).Defined target then (shiftLeft left right).meaning else .undefined) := by
  rw [meaning, ofInt_mul_pow]
  rfl

theorem emit_shiftRight (signed : Bool) (left right : BitVec bits) :
    (shiftRight signed left right).emit target fuel =
      some (if (shiftRight signed left right).Defined target then (shiftRight signed left right).meaning
        else .undefined) := by
  rw [meaning, ofInt_div_pow]
  cases signed with
  | true => rfl
  | false => rfl

/-- The code comes to what the language says, when the instructions have a result. -/
theorem emit_settles (hbits : bits ≤ 256) (op : Operation bits) :
    Fuel.Settles (fun fuel => op.emit target fuel) (if op.Defined target then op.meaning else .undefined) := by
  cases op with
  | add overflowing signed left right =>
    exact ⟨0, fun fuel _ => emit_add target fuel overflowing signed left right⟩
  | subtract overflowing signed left right =>
    exact ⟨0, fun fuel _ => emit_subtract target fuel overflowing signed left right⟩
  | negate overflowing e => exact ⟨0, fun fuel _ => emit_negate target fuel overflowing e⟩
  | divide signed left right => exact divide_settles hbits signed left right
  | modulo signed left right => exact modulo_settles hbits signed left right
  | shiftLeft left right => exact ⟨0, fun fuel _ => emit_shiftLeft target fuel left right⟩
  | shiftRight signed left right => exact ⟨0, fun fuel _ => emit_shiftRight target fuel signed left right⟩

end Operation

/-- The code comes to what the language says exactly when the instructions have a result for the operands:
a division of up to 64 bits needs a divisor other than zero, a signed one, but on Solana, a quotient that is
in the range, and a shift is by less than the width. Otherwise it is undefined. -/
theorem emit_meaning_iff (bits : Nat) (hbits : bits ≤ 256) (target : Target) (op : Operation bits) :
    Fuel.Settles (fun fuel => op.emit target fuel) op.meaning ↔ op.Defined target := by
  have hsettles := op.emit_settles target hbits
  constructor
  · intro h
    by_contra hundefined
    rw [if_neg hundefined] at hsettles
    exact op.meaning_ne_undefined (h.unique hsettles)
  · intro hdefined
    rwa [if_pos hdefined] at hsettles

theorem emit_meaning_iff_uint128 :
    Fuel.Settles (fun fuel => (Operation.divide false (7 : BitVec 128) 0).emit .polkadot fuel)
      (Operation.divide false (7 : BitVec 128) 0).meaning ↔
      (Operation.divide false (7 : BitVec 128) 0).Defined .polkadot :=
  emit_meaning_iff 128 (by decide) .polkadot (.divide false 7 0)

/-- One divided by zero, in 8 bits -/
theorem uint8_division_by_zero_undefined :
    ¬ ∀ op : Operation 8, Fuel.Settles (fun fuel => op.emit .polkadot fuel) op.meaning := by
  intro h
  have hundefined : Fuel.Settles (fun fuel => (Operation.divide false (1 : BitVec 8) 0).emit .polkadot fuel)
      .undefined := ⟨0, fun _ _ => rfl⟩
  exact absurd ((h (.divide false 1 0)).unique hundefined) (by decide)

end Solang.Emit.Expression
