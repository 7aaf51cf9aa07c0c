import Solang.Sema.Conversions

/-!
# Conversions in the code generator

`Expression::cast` of `codegen`, and the values of conversions at run time. A value is the pattern of its bits, as a
number, and an address is the integer whose bytes it has. The emitter extends and truncates integers only, and casts
between types of one size only; where it panics the outcome is `rejected`.
-/

namespace Solang.Conversions

/-! ## The code generator -/

section Cast

variable (ns : Namespace)

/-- The arm for an integer and an address. The extensions have the type of the address. -/
def castToAddressCodegen (signed : Bool) (fromLen : Nat) (target : Ty) : CastExpr :=
  let addressToInt := if signed then Ty.int (ns.addressLength * 8) else Ty.uint (ns.addressLength * 8)
  let expr :=
    if ns.addressLength * 8 < fromLen then CastExpr.trunc addressToInt .operand
    else if fromLen < ns.addressLength * 8 then
      if signed then .zeroExt target .operand else .signExt target .operand
    else .operand
  .cast target expr

/-- The arm for an address and an integer -/
def castFromAddressCodegen (signed : Bool) (toLen : Nat) (target : Ty) : CastExpr :=
  let addressToInt := if signed then Ty.int (ns.addressLength * 8) else Ty.uint (ns.addressLength * 8)
  let expr := CastExpr.cast addressToInt .operand
  if toLen < ns.addressLength * 8 then .trunc target expr
  else if ns.addressLength * 8 < toLen then if signed then .zeroExt target expr else .signExt target expr
  else expr

/-- The type that is converted from, for an enum and for a value -/
def Ty.asInteger : Ty → Ty → Ty
  | .enum _, .uint _ => .uint 8
  | .enum _, .int _ => .uint 8
  | .value, .uint _ => .int (ns.valueLength * 8)
  | .value, .int _ => .int (ns.valueLength * 8)
  | source, _ => source

/-- `Expression::cast`, of what is not a literal -/
def castCodegen (source target : Ty) : CastExpr :=
  if source = target then .operand
  else
    match source.asInteger ns target, target with
    | .uint fromWidth, .enum _ => resize .zeroExt fromWidth 8 target .operand
    | .int fromWidth, .enum _ => resize .zeroExt fromWidth 8 target .operand
    | .uint fromLen, .uint toLen => resize .zeroExt fromLen toLen target .operand
    | .uint fromLen, .int toLen => resize .zeroExt fromLen toLen target .operand
    | .int fromLen, .uint toLen => resize .signExt fromLen toLen target .operand
    | .int fromLen, .int toLen => resize .signExt fromLen toLen target .operand
    | .uint fromLen, .address _ => castToAddressCodegen ns false fromLen target
    | .int fromLen, .address _ => castToAddressCodegen ns true fromLen target
    | .address _, .uint toLen => castFromAddressCodegen ns false toLen target
    | .address _, .int toLen => castFromAddressCodegen ns true toLen target
    | .bytes fromLen, .bytes toLen =>
      if fromLen < toLen then .shiftLeft target (.zeroExt target .operand) ((toLen - fromLen) * 8)
      else .trunc target (.shiftRight source .operand ((fromLen - toLen) * 8))
    | .bytes n, .uint bits =>
      if n = 1 ∧ bits = 8 then .operand else resize .zeroExt n (bits / 8) target .operand
    | .bytes n, .int bits => resize .zeroExt n (bits / 8) target .operand
    | .uint bits, .bytes n => if bits = 8 ∧ n = 1 then .operand else .cast target .operand
    | _, _ => .cast target .operand

/-- `Expression::cast` of a number literal -/
def castLiteralCodegen (source : Ty) (value : Int) (target : Ty) : CastExpr :=
  if source = target then .operand
  else
    match source.isPrimitive, target with
    | true, .uint toLen => .numberLiteral target (if value < 0 then reencode value toLen else value)
    | true, .int _ => .numberLiteral target value
    | true, .bytes _ => .numberLiteral target value
    | true, .address _ => .numberLiteral target value
    | _, _ => castCodegen ns source target

end Cast

/-! ## Values at run time -/

inductive Outcome where
  | value (n : Nat)
  /-- The checked truncation has found that the value does not fit. -/
  | abort
  | rejected
  deriving DecidableEq, Repr

def Outcome.bind (o : Outcome) (f : Nat → Outcome) : Outcome :=
  match o with
  | value n => f n
  | abort => abort
  | rejected => rejected

/-- Sign extension from `width` to `wide` bits -/
def signExtend (width wide n : Nat) : Nat := if n < 2 ^ (width - 1) then n else n + 2 ^ wide - 2 ^ width

/-- The type of a conversion whose operand has the type `source` -/
def CastExpr.ty (source : Ty) : CastExpr → Ty
  | operand => source
  | numberLiteral ty _ => ty
  | trunc ty _ => ty
  | checkingTrunc ty _ => ty
  | zeroExt ty _ => ty
  | signExt ty _ => ty
  | cast ty _ => ty
  | shiftLeft ty _ _ => ty
  | shiftRight ty _ _ => ty

section Eval

variable (ns : Namespace) (source : Ty) (v : Nat)

/-- Whether the emitter has an instruction for integers of both types -/
def integers (ty ty' : Ty) (n : Nat) : Outcome := if ty.isInteger && ty'.isInteger then .value n else .rejected

/-- `runtime_cast` -/
def runtimeCast (ty ty' : Ty) (n : Nat) : Outcome := if ty.bits ns = ty'.bits ns then .value n else .rejected

/-- The value of a conversion of `v` -/
def CastExpr.eval : CastExpr → Outcome
  | operand => .value v
  | numberLiteral ty n => .value (n % 2 ^ ty.bits ns).toNat
  | trunc ty expr => expr.eval.bind fun n => integers (expr.ty source) ty (n % 2 ^ ty.bits ns)
  | checkingTrunc ty expr => expr.eval.bind fun n => if 2 ^ ty.bits ns ≤ n then .abort else .value n
  | zeroExt ty expr => expr.eval.bind fun n => integers (expr.ty source) ty n
  | signExt ty expr => expr.eval.bind fun n =>
    integers (expr.ty source) ty (signExtend ((expr.ty source).bits ns) (ty.bits ns) n)
  | cast ty expr => expr.eval.bind fun n => runtimeCast ns (expr.ty source) ty n
  | shiftLeft ty expr shift => expr.eval.bind fun n => .value (n <<< shift % 2 ^ ty.bits ns)
  | shiftRight _ expr shift => expr.eval.bind fun n => .value (n >>> shift)

end Eval

/-! ## What a conversion means -/

/-- The integer that a pattern stands for -/
def Ty.read (ns : Namespace) (ty : Ty) (v : Nat) : Int :=
  if ty.isSigned = true ∧ 2 ^ (ty.bits ns - 1) ≤ v then (v : Int) - 2 ^ ty.bits ns else v

/-- `bytesN` are padded or cut on the right; all others are integers modulo `2 ^ bits` of the target. -/
def converted (ns : Namespace) (source target : Ty) (v : Nat) : Nat :=
  match source, target with
  | .bytes n, .bytes m => if n ≤ m then v * 2 ^ ((m - n) * 8) else v / 2 ^ ((n - m) * 8)
  | _, _ => (source.read ns v % 2 ^ target.bits ns).toNat

end Solang.Conversions

/-!
## Values of conversions

What the extensions and the truncation compute, against the meaning of a conversion; and for an integer and an
address, where both casts have the two extensions exchanged, what comes out instead.
-/

namespace Solang.Conversions

variable {ns : Namespace} {source target : Ty} {v w m : Nat}

/-- What sema has seen to -/
def Ty.Valid (ns : Namespace) : Ty → Prop
  | .uint bits => 0 < bits ∧ 8 ∣ bits
  | .int bits => 0 < bits ∧ 8 ∣ bits
  | .enum no => ns.enumValues no ≤ 256
  | .address _ => 0 < ns.addressLength
  | .value => 0 < ns.valueLength
  | .bytes n => 0 < n

theorem Ty.Valid.bits_pos {ty : Ty} (h : ty.Valid ns) : 0 < ty.bits ns := by
  cases ty with
  | uint bits | int bits => exact h.1
  | enum no => exact Nat.zero_lt_succ 7
  | address payable =>
    have h : 0 < ns.addressLength := h
    show 0 < ns.addressLength * 8
    omega
  | value =>
    have h : 0 < ns.valueLength := h
    show 0 < ns.valueLength * 8
    omega
  | bytes n =>
    have h : 0 < n := h
    show 0 < n * 8
    omega

/-! ### Extensions -/

theorem two_pow_pred (hw : 0 < w) : 2 ^ w = 2 * 2 ^ (w - 1) := by
  rw [← Nat.pow_succ', Nat.succ_eq_add_one, Nat.sub_add_cancel hw]

/-- An extension with the sign is one with zeros, when the top bit is clear. -/
theorem signExtend_eq_self_iff (hw : 0 < w) (hwm : w < m) : signExtend w m v = v ↔ v < 2 ^ (w - 1) := by
  have hhalf := two_pow_pred hw
  have hwide : 2 ^ w < 2 ^ m := Nat.pow_lt_pow_right (by decide) hwm
  unfold signExtend
  split
  · rename_i h
    exact iff_of_true rfl h
  · rename_i h
    exact iff_of_false (by omega) h

theorem natCast_emod_toNat (v m : Nat) : ((v : Int) % 2 ^ m).toNat = v % 2 ^ m := by
  have hcast : ((2 ^ m : Nat) : Int) = 2 ^ m := Int.natCast_pow 2 m
  rw [← hcast, ← Int.natCast_emod, Int.toNat_natCast]

theorem sub_pow_emod (v : Nat) (hmw : m ≤ w) : (((v : Int) - 2 ^ w) % 2 ^ m).toNat = v % 2 ^ m := by
  obtain ⟨d, rfl⟩ := Nat.exists_eq_add_of_le hmw
  rw [pow_add, Int.sub_mul_emod_self_left, natCast_emod_toNat]

/-- An extension with the sign is that of the integer. -/
theorem signExtend_eq_emod (hwm : w ≤ m) (hv : v < 2 ^ w) :
    signExtend w m v = ((if 2 ^ (w - 1) ≤ v then (v : Int) - 2 ^ w else v) % 2 ^ m).toNat := by
  have hwide : 2 ^ w ≤ 2 ^ m := Nat.pow_le_pow_right (by decide) hwm
  have hcast : ((2 ^ w : Nat) : Int) = 2 ^ w := Int.natCast_pow 2 w
  have hcast' : ((2 ^ m : Nat) : Int) = 2 ^ m := Int.natCast_pow 2 m
  unfold signExtend
  by_cases h : v < 2 ^ (w - 1)
  · rw [if_pos h, if_neg (Nat.not_le.mpr h), natCast_emod_toNat, Nat.mod_eq_of_lt (by omega)]
  · have hpos : 0 < 2 ^ w := by positivity
    rw [if_neg h, if_pos (Nat.not_lt.mp h), ← Int.add_emod_right, Int.emod_eq_of_lt (by omega) (by omega)]
    omega

theorem mod_of_lt_of_le (hv : v < 2 ^ w) (hwm : w ≤ m) : v % 2 ^ m = v :=
  Nat.mod_eq_of_lt (hv.trans_le (Nat.pow_le_pow_right (by decide) hwm))

/-- An unsigned integer in another width, extended with its top bit -/
theorem widened_iff (hw : 0 < w) (hv : v < 2 ^ w) :
    (if w < m then signExtend w m v else v % 2 ^ m) = v % 2 ^ m ↔ (w < m → v < 2 ^ (w - 1)) := by
  by_cases hwm : w < m
  · rw [if_pos hwm, mod_of_lt_of_le hv hwm.le, signExtend_eq_self_iff hw hwm]
    exact ⟨fun h _ => h, fun h => h hwm⟩
  · rw [if_neg hwm]
    exact iff_of_true rfl fun h => absurd h hwm

/-- A signed integer in another width, extended with zeros -/
theorem widened_signed_iff (hw : 0 < w) (hv : v < 2 ^ w) :
    v % 2 ^ m = (if w < m then signExtend w m v else v % 2 ^ m) ↔ (w < m → v < 2 ^ (w - 1)) := by
  rw [eq_comm]
  exact widened_iff hw hv

/-! ### Meanings -/

theorem converted_unsigned (hsource : source.isSigned = false)
    (hbytes : ∀ n m, source = .bytes n → target ≠ .bytes m) : converted ns source target v = v % 2 ^ target.bits ns := by
  have hread : source.read ns v = v := by
    unfold Ty.read
    rw [if_neg]
    rintro ⟨hsigned, _⟩
    rw [hsource] at hsigned
    cases hsigned
  unfold converted
  split
  · rename_i n m
    exact absurd rfl (hbytes n m rfl)
  · rw [hread, natCast_emod_toNat]

variable (ns target) in
theorem converted_int (hv : v < 2 ^ w) : converted ns (.int w) target v =
    if w < target.bits ns then signExtend w (target.bits ns) v else v % 2 ^ target.bits ns := by
  have hread : (Ty.int w).read ns v = if 2 ^ (w - 1) ≤ v then (v : Int) - 2 ^ w else v := by
    unfold Ty.read
    simp only [Ty.isSigned, true_and]
    rfl
  have hdef : converted ns (.int w) target v = ((Ty.int w).read ns v % 2 ^ target.bits ns).toNat := by
    cases target <;> rfl
  rw [hdef, hread]
  by_cases hwm : w < target.bits ns
  · rw [if_pos hwm, signExtend_eq_emod hwm.le hv]
  · rw [if_neg hwm]
    split
    · exact sub_pow_emod v (Nat.not_lt.mp hwm)
    · exact natCast_emod_toNat _ _

/-! ### Values of the expressions -/

theorem eval_zeroExt (hsource : source.isInteger = true) (htarget : target.isInteger = true) :
    (CastExpr.zeroExt target .operand).eval ns source v = .value v := by
  show integers source target v = _
  unfold integers
  rw [hsource, htarget]
  rfl

theorem eval_signExt (hsource : source.isInteger = true) (htarget : target.isInteger = true) :
    (CastExpr.signExt target .operand).eval ns source v =
      .value (signExtend (source.bits ns) (target.bits ns) v) := by
  show integers source target _ = _
  unfold integers
  rw [hsource, htarget]
  rfl

theorem eval_trunc (hsource : source.isInteger = true) (htarget : target.isInteger = true) :
    (CastExpr.trunc target .operand).eval ns source v = .value (v % 2 ^ target.bits ns) := by
  show integers source target _ = _
  unfold integers
  rw [hsource, htarget]
  rfl

theorem eval_cast : (CastExpr.cast target .operand).eval ns source v =
    if source.bits ns = target.bits ns then .value v else .rejected := rfl

/-- The value of a conversion by the width -/
theorem eval_resize {extend : Ty → CastExpr → CastExpr} {extended : Nat} (hsource : source.isInteger = true)
    (htarget : target.isInteger = true) (hv : v < 2 ^ source.bits ns)
    (hextend : (extend target .operand).eval ns source v = .value extended) :
    (resize extend (source.bits ns) (target.bits ns) target .operand).eval ns source v =
      .value (if source.bits ns < target.bits ns then extended else v % 2 ^ target.bits ns) := by
  unfold resize
  by_cases hless : target.bits ns < source.bits ns
  · rw [if_pos hless, if_neg (by omega), eval_trunc hsource htarget]
  · rw [if_neg hless]
    by_cases hmore : source.bits ns < target.bits ns
    · rw [if_pos hmore, if_pos hmore, hextend]
    · have heq : source.bits ns = target.bits ns := by omega
      rw [if_neg hmore, if_neg hmore, eval_cast, if_pos heq, ← heq, Nat.mod_eq_of_lt hv]

variable (target) in
/-- With zeros, for a type without a sign -/
theorem eval_resize_zeroExt (hsource : source.isInteger = true) (htarget : target.isInteger = true)
    (hv : v < 2 ^ source.bits ns) :
    (resize .zeroExt (source.bits ns) (target.bits ns) target .operand).eval ns source v =
      .value (v % 2 ^ target.bits ns) := by
  rw [eval_resize hsource htarget hv (eval_zeroExt hsource htarget)]
  split
  · rename_i hmore
    rw [Nat.mod_eq_of_lt (hv.trans (Nat.pow_lt_pow_right (by decide) hmore))]
  · rfl

variable (target) in
theorem eval_resize_signExt (hsource : source.isInteger = true) (htarget : target.isInteger = true)
    (hv : v < 2 ^ source.bits ns) :
    (resize .signExt (source.bits ns) (target.bits ns) target .operand).eval ns source v =
      .value (if source.bits ns < target.bits ns then signExtend (source.bits ns) (target.bits ns) v
        else v % 2 ^ target.bits ns) :=
  eval_resize hsource htarget hv (eval_signExt hsource htarget)

/-! ### Results that are not errors -/

theorem ok_of_explicitly {implicit : Bool} {error : CastError} {expr expr' : CastExpr}
    (h : explicitly implicit error expr = .ok expr') : expr = expr' := by
  unfold explicitly at h
  split at h
  · cases h
  · exact Except.ok.inj h

theorem ok_of_ite {p : Prop} [Decidable p] {error : CastError} {expr expr' : CastExpr}
    (h : (if p then .error error else .ok expr : CastResult) = .ok expr') : expr = expr' := by
  split at h
  · cases h
  · exact Except.ok.inj h

/-! ### Addresses -/

section Address

variable {payable signed : Bool}

/-- The integer of the size of an address -/
def addressInt (ns : Namespace) (signed : Bool) : Ty :=
  if signed then .int (ns.addressLength * 8) else .uint (ns.addressLength * 8)

@[simp] theorem bits_addressInt : (addressInt ns signed).bits ns = ns.addressLength * 8 := by
  cases signed <;> rfl

@[simp] theorem isInteger_addressInt : (addressInt ns signed).isInteger = true := by
  cases signed <;> rfl

theorem eval_addressInt {expr : CastExpr} (h : expr.eval ns source v = .value m)
    (hbits : (expr.ty source).bits ns = ns.addressLength * 8) :
    (CastExpr.cast (.address payable) expr).eval ns source v = .value m := by
  show (expr.eval ns source v).bind _ = _
  rw [h]
  show runtimeCast ns (expr.ty source) (.address payable) m = _
  unfold runtimeCast
  exact if_pos hbits

/-- The extensions are exchanged. -/
theorem eval_castToAddress {implicit : Bool} {expr : CastExpr} (hsource : source.isInteger = true)
    (hv : v < 2 ^ source.bits ns) (h : castToAddress ns implicit signed (source.bits ns) payable = .ok expr) :
    expr.eval ns source v = .value (if signed then v % 2 ^ (ns.addressLength * 8)
      else if source.bits ns < ns.addressLength * 8 then signExtend (source.bits ns) (ns.addressLength * 8) v
      else v % 2 ^ (ns.addressLength * 8)) := by
  have htrunc : (CastExpr.trunc (addressInt ns signed) .operand).eval ns source v =
      .value (v % 2 ^ (ns.addressLength * 8)) := by
    rw [eval_trunc hsource isInteger_addressInt, bits_addressInt]
  have hzero : (CastExpr.zeroExt (addressInt ns signed) .operand).eval ns source v = .value v :=
    eval_zeroExt hsource isInteger_addressInt
  have hsign : (CastExpr.signExt (addressInt ns signed) .operand).eval ns source v =
      .value (signExtend (source.bits ns) (ns.addressLength * 8) v) := by
    rw [eval_signExt hsource isInteger_addressInt, bits_addressInt]
  obtain rfl := ok_of_explicitly h
  by_cases hless : ns.addressLength * 8 < source.bits ns
  · rw [if_pos hless, if_neg (by omega : ¬ source.bits ns < ns.addressLength * 8), ite_self]
    exact eval_addressInt htrunc bits_addressInt
  · rw [if_neg hless, mod_of_lt_of_le hv (Nat.not_lt.mp hless)]
    by_cases hmore : source.bits ns < ns.addressLength * 8
    · rw [if_pos hmore, if_pos hmore]
      cases signed with
      | true => exact eval_addressInt hzero bits_addressInt
      | false => exact eval_addressInt hsign bits_addressInt
    · rw [if_neg hmore, if_neg hmore, ite_self]
      exact eval_addressInt rfl (by show source.bits ns = _; omega)

variable (target signed) in
theorem eval_ofAddress (htarget : target.isInteger = true) (hv : v < 2 ^ (ns.addressLength * 8)) :
    (if target.bits ns < ns.addressLength * 8 then .trunc target (.cast (addressInt ns signed) .operand)
      else if ns.addressLength * 8 < target.bits ns then
        if signed then .zeroExt target (.cast (addressInt ns signed) .operand)
        else .signExt target (.cast (addressInt ns signed) .operand)
      else .cast (addressInt ns signed) .operand : CastExpr).eval ns (.address payable) v =
        .value (if signed then v % 2 ^ target.bits ns
          else if ns.addressLength * 8 < target.bits ns then
            signExtend (ns.addressLength * 8) (target.bits ns) v
          else v % 2 ^ target.bits ns) := by
  have hcast : (CastExpr.cast (addressInt ns signed) .operand).eval ns (.address payable) v = .value v := by
    rw [eval_cast, if_pos (by rw [bits_addressInt]; rfl)]
  have hintegers (n : Nat) : integers (addressInt ns signed) target n = .value n := by
    unfold integers
    rw [isInteger_addressInt, htarget]
    rfl
  by_cases hless : target.bits ns < ns.addressLength * 8
  · rw [if_pos hless, if_neg (by omega : ¬ ns.addressLength * 8 < target.bits ns), ite_self]
    show (CastExpr.eval ns _ v _).bind _ = _
    rw [hcast]
    exact hintegers _
  · rw [if_neg hless, mod_of_lt_of_le hv (Nat.not_lt.mp hless)]
    by_cases hmore : ns.addressLength * 8 < target.bits ns
    · rw [if_pos hmore, if_pos hmore]
      cases signed <;>
      · show (CastExpr.eval ns _ v _).bind _ = _
        rw [hcast]
        exact hintegers _
    · rw [if_neg hmore, if_neg hmore, ite_self]
      exact hcast

end Address

end Solang.Conversions
