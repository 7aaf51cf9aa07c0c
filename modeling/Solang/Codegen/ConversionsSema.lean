import Solang.Codegen.Conversions

/-!
# Conversions of sema and their meaning

Most conversions extend by the sign of the type that is converted. Those of an integer and an address have the two
extensions exchanged, and those of balances extend with the sign in one direction: they are wrong for operands with
the top bit set. A balance that has no room for its operand is not a conversion but a panic.
-/

namespace Solang.Conversions

variable {ns : Namespace} {source target : Ty} {v w m : Nat}

/-! ## Exact conversions -/

/-- The operand does not show that sema extends it with the sign where zeros belong, or the other way round; and a
balance has room for it. -/
def SemaExact (ns : Namespace) : Ty → Ty → Nat → Prop
  | .uint bits, .address _, v => bits < ns.addressLength * 8 → v < 2 ^ (bits - 1)
  | .int bits, .address _, v => bits < ns.addressLength * 8 → v < 2 ^ (bits - 1)
  | .address _, .uint bits, v => ns.addressLength * 8 < bits → v < 2 ^ (ns.addressLength * 8 - 1)
  | .value, .uint bits, v => ns.valueLength * 8 < bits → v < 2 ^ (ns.valueLength * 8 - 1)
  | .uint bits, .value, v =>
    if bits < ns.valueLength * 8 then v < 2 ^ (bits - 1) else v < 2 ^ (ns.valueLength * 8)
  | _, _, _ => True

/-- The same of the code generator, where the emitter accepts what it has made -/
def CodegenExact (ns : Namespace) : Ty → Ty → Nat → Prop
  | .uint bits, .address _, _ => ns.addressLength * 8 ≤ bits
  | .int bits, .address _, _ => ns.addressLength * 8 ≤ bits
  | .address _, .uint bits, v => ns.addressLength * 8 < bits → v < 2 ^ (ns.addressLength * 8 - 1)
  | .value, .uint bits, v => ns.valueLength * 8 < bits → v < 2 ^ (ns.valueLength * 8 - 1)
  | .value, .int bits, v => ns.valueLength * 8 < bits → v < 2 ^ (ns.valueLength * 8 - 1)
  | .uint bits, .value, _ => bits = ns.valueLength * 8
  | _, _, _ => True

theorem rejected_ne {n : Nat} : Outcome.rejected ≠ .value n := fun h => nomatch h

theorem value_inj {a b : Nat} : Outcome.value a = .value b ↔ a = b :=
  ⟨Outcome.value.inj, congrArg Outcome.value⟩

variable {implicit : Bool} {expr : CastExpr} {fromLen toLen : Nat} {exactly : Prop}

/-- Casts between types of one size keep the value. -/
theorem eval_sameSize (h : sameSize implicit fromLen toLen target = .ok expr)
    (hfrom : source.bits ns = fromLen) (hto : target.bits ns = toLen) :
    expr.eval ns source v = .value v ∧ source.bits ns = target.bits ns := by
  unfold sameSize at h
  split at h
  · cases h
  · split at h
    · cases h
    · rename_i hlen
      have heq : source.bits ns = target.bits ns := by rw [hfrom, hto, not_not.mp hlen]
      obtain rfl := Except.ok.inj h
      exact ⟨by rw [eval_cast, if_pos heq], heq⟩

theorem castToEnum_value {constant : Option Int} {no : Nat} (hsource : source.isInteger = true)
    (hwide : 8 ≤ source.bits ns) (hv : v < 2 ^ source.bits ns) (henum : ns.enumValues no ≤ 256)
    (hconstant : ∀ n, constant = some n → n % 2 ^ source.bits ns = v)
    (h : castToEnum ns constant implicit (source.bits ns) no = .ok expr) :
    expr.eval ns source v = .value (v % 2 ^ 8) := by
  have hresize : (resize .zeroExt (source.bits ns) 8 (.enum no) .operand).eval ns source v = .value (v % 2 ^ 8) :=
    eval_resize_zeroExt (.enum no) hsource rfl hv
  unfold castToEnum at h
  split at h
  · cases h
  · split at h
    · rename_i n
      split at h
      · rename_i hbound
        obtain ⟨hnonneg, _, hlt⟩ := hbound
        obtain rfl := Except.ok.inj h
        -- A value of an enum is below 256, so the operand is the constant itself.
        have hpow : (2 : Int) ^ 8 ≤ 2 ^ source.bits ns := by
          exact_mod_cast Nat.pow_le_pow_right (n := 2) (by decide) hwide
        have hvalue := hconstant n rfl
        rw [Int.emod_eq_of_lt hnonneg (by omega)] at hvalue
        show Outcome.value (n % 2 ^ 8).toNat = _
        rw [hvalue, natCast_emod_toNat]
      · obtain rfl := Except.ok.inj h
        exact hresize
    · obtain rfl := Except.ok.inj h
      exact hresize

/-- A conversion from a type without a sign, that is not between `bytesN` -/
theorem exact_unsigned (hsource : source.isSigned = false)
    (hbytes : ∀ n m, source = .bytes n → target ≠ .bytes m)
    (h : expr.eval ns source v = .value (v % 2 ^ target.bits ns)) (hexactly : exactly) :
    expr.eval ns source v = .value (converted ns source target v) ↔ exactly := by
  rw [h, converted_unsigned hsource hbytes]
  exact iff_of_true rfl hexactly

theorem exact_int (hv : v < 2 ^ w) (h : expr.eval ns (.int w) v = .value
      (if w < target.bits ns then signExtend w (target.bits ns) v else v % 2 ^ target.bits ns))
    (hexactly : exactly) :
    expr.eval ns (.int w) v = .value (converted ns (.int w) target v) ↔ exactly := by
  rw [h, converted_int ns target hv]
  exact iff_of_true rfl hexactly

/-- Between integers of one size -/
theorem exact_sameSize (hbytes : ∀ n m, source = .bytes n → target ≠ .bytes m)
    (hv : v < 2 ^ source.bits ns) (h : sameSize implicit fromLen toLen target = .ok expr)
    (hfrom : source.bits ns = fromLen) (hto : target.bits ns = toLen) (hexactly : exactly) :
    expr.eval ns source v = .value (converted ns source target v) ↔ exactly := by
  obtain ⟨heval, heq⟩ := eval_sameSize (v := v) h hfrom hto
  have hmod : v % 2 ^ target.bits ns = v := by rw [← heq, Nat.mod_eq_of_lt hv]
  cases hsigned : source.isSigned with
  | false => exact exact_unsigned hsigned hbytes (by rw [heval, hmod]) hexactly
  | true =>
    cases source with
    | int w => exact exact_int hv (by rw [heval, if_neg (by show ¬ (Ty.int w).bits ns < _; omega), hmod]) hexactly
    | _ => cases hsigned

theorem eq_of_sameSize (h : sameSize implicit fromLen toLen target = .ok expr) :
    CastExpr.cast target .operand = expr := by
  unfold sameSize at h
  split at h
  · cases h
  · exact ok_of_ite h

theorem exact_castToEnum {constant : Option Int} {no fromWidth : Nat}
    (hsource : source.isInteger = true) (hwide : 8 ≤ source.bits ns) (hv : v < 2 ^ source.bits ns)
    (henum : ns.enumValues no ≤ 256)
    (hconstant : ∀ n, constant = some n → n % 2 ^ source.bits ns = v)
    (hbits : source.bits ns = fromWidth)
    (h : castToEnum ns constant implicit fromWidth no = .ok expr) (hexactly : exactly) :
    expr.eval ns source v = .value (converted ns source (.enum no) v) ↔ exactly := by
  subst hbits
  have heval := castToEnum_value hsource hwide hv henum hconstant h
  cases hsigned : source.isSigned with
  | false => exact exact_unsigned hsigned (fun _ _ _ h => nomatch h) heval hexactly
  | true =>
    cases source with
    | int w => exact exact_int hv (by rw [heval]; exact congrArg _ (if_neg (Nat.not_lt.mpr hwide)).symm) hexactly
    | _ => cases hsigned

/-- Lengthening and shortening `bytesN` -/
theorem exact_bytes {n : Nat} (hv : v < 2 ^ (n * 8)) (hexactly : exactly) :
    (if n < m then CastExpr.shiftLeft (.bytes m) (.zeroExt (.bytes m) .operand) ((m - n) * 8)
      else .trunc (.bytes m) (.shiftRight (.bytes n) .operand ((n - m) * 8))).eval ns (.bytes n) v =
        .value (converted ns (.bytes n) (.bytes m) v) ↔ exactly := by
  refine iff_of_true ?_ hexactly
  by_cases hnm : n < m
  · rw [if_pos hnm]
    show Outcome.value (v <<< ((m - n) * 8) % 2 ^ (m * 8)) = .value (if n ≤ m then _ else _)
    have hlt : v * 2 ^ ((m - n) * 8) < 2 ^ (m * 8) := by
      rw [show m * 8 = n * 8 + (m - n) * 8 by omega, pow_add]
      exact Nat.mul_lt_mul_of_pos_right hv (by positivity)
    rw [if_pos hnm.le, Nat.shiftLeft_eq, Nat.mod_eq_of_lt hlt]
  · rw [if_neg hnm]
    show Outcome.value (v >>> ((n - m) * 8) % 2 ^ (m * 8)) = .value (if n ≤ m then _ else _)
    have hlt : v / 2 ^ ((n - m) * 8) < 2 ^ (m * 8) := by
      rw [Nat.div_lt_iff_lt_mul (by positivity), ← pow_add, show m * 8 + (n - m) * 8 = n * 8 by omega]
      exact hv
    rw [Nat.shiftRight_eq_div_pow, Nat.mod_eq_of_lt hlt]
    split
    · rw [show n - m = 0 by omega, show m - n = 0 by omega, Nat.zero_mul, pow_zero, Nat.div_one, Nat.mul_one]
    · rfl

section Sema

variable {constant : Option Int} {implicit : Bool} {expr : CastExpr}

theorem castTypes_uint_iff (hsource : (Ty.uint w).Valid ns) (htarget : target.Valid ns) (hv : v < 2 ^ w)
    (hconstant : ∀ n, constant = some n → n % 2 ^ w = v)
    (h : castTypes ns constant implicit (.uint w) target = .ok expr) :
    expr.eval ns (.uint w) v = .value (converted ns (.uint w) target v) ↔ SemaExact ns (.uint w) target v := by
  have hpos : 0 < w := hsource.1
  have hnot : ∀ n m, Ty.uint w = .bytes n → target ≠ .bytes m := fun _ _ h => nomatch h
  cases target with
  | uint m => exact exact_unsigned rfl hnot (ok_of_ite h ▸ eval_resize_zeroExt (.uint m) rfl rfl hv) trivial
  | int m =>
    have hzero : (resize .zeroExt w m (.int m) .operand).eval ns (.uint w) v = .value (v % 2 ^ m) :=
      eval_resize_zeroExt (.int m) rfl rfl hv
    have h : (if w < m then .ok (.zeroExt (.int m) .operand)
      else explicitly implicit .implicitWouldChangeSign (resize .zeroExt w m (.int m) .operand)) = Except.ok expr := h
    refine exact_unsigned rfl hnot ?_ trivial
    by_cases hwm : w < m
    · rw [if_pos hwm] at h
      obtain rfl := Except.ok.inj h
      show _ = Outcome.value (v % 2 ^ m)
      rw [eval_zeroExt rfl rfl, mod_of_lt_of_le hv hwm.le]
    · rw [if_neg hwm] at h
      exact ok_of_explicitly h ▸ hzero
  | enum no =>
    have hwide : 8 ≤ w := Nat.le_of_dvd hpos hsource.2
    exact exact_castToEnum rfl hwide hv htarget hconstant rfl h trivial
  | address payable =>
    have h : castToAddress ns implicit false ((Ty.uint w).bits ns) payable = .ok expr := h
    rw [converted_unsigned rfl hnot, eval_castToAddress rfl hv h, value_inj]
    exact widened_iff hpos hv
  | value =>
    have h : (if ns.valueLength * 8 < w then .ok (.checkingTrunc .value .operand)
      else if w < ns.valueLength * 8 then .ok (.signExt .value .operand)
      else .ok (.cast .value .operand)) = Except.ok expr := h
    rw [converted_unsigned rfl hnot]
    show _ = Outcome.value (v % 2 ^ (ns.valueLength * 8)) ↔
      if w < ns.valueLength * 8 then v < 2 ^ (w - 1) else v < 2 ^ (ns.valueLength * 8)
    by_cases hless : ns.valueLength * 8 < w
    · rw [if_pos hless] at h
      obtain rfl := Except.ok.inj h
      rw [if_neg (by omega)]
      show (if 2 ^ (ns.valueLength * 8) ≤ v then Outcome.abort else .value v) = _ ↔ _
      by_cases hfit : v < 2 ^ (ns.valueLength * 8)
      · rw [if_neg (by omega), Nat.mod_eq_of_lt hfit]
        exact iff_of_true rfl hfit
      · rw [if_pos (by omega)]
        exact iff_of_false (fun h => nomatch h) hfit
    · rw [if_neg hless] at h
      rw [mod_of_lt_of_le hv (Nat.not_lt.mp hless)]
      by_cases hmore : w < ns.valueLength * 8
      · rw [if_pos hmore] at h
        obtain rfl := Except.ok.inj h
        rw [eval_signExt rfl rfl, value_inj, if_pos hmore]
        exact signExtend_eq_self_iff hpos hmore
      · have heq : w = ns.valueLength * 8 := by omega
        rw [if_neg hmore] at h
        obtain rfl := Except.ok.inj h
        have hcast : (CastExpr.cast .value .operand).eval ns (.uint w) v = .value v := if_pos heq
        rw [hcast, if_neg hmore, ← heq]
        exact iff_of_true rfl hv
  | bytes n =>
    have h : (if w = 8 ∧ n = 1 then .ok .operand else sameSize implicit w (n * 8) (.bytes n)) = Except.ok expr := h
    split at h
    · rename_i heq
      obtain ⟨rfl, rfl⟩ := heq
      obtain rfl := Except.ok.inj h
      exact exact_unsigned rfl hnot (congrArg _ (Nat.mod_eq_of_lt hv).symm) trivial
    · exact exact_sameSize hnot hv h rfl rfl trivial

theorem castTypes_int_iff (hsource : (Ty.int w).Valid ns) (htarget : target.Valid ns) (hv : v < 2 ^ w)
    (hconstant : ∀ n, constant = some n → n % 2 ^ w = v)
    (h : castTypes ns constant implicit (.int w) target = .ok expr) :
    expr.eval ns (.int w) v = .value (converted ns (.int w) target v) ↔ SemaExact ns (.int w) target v := by
  have hpos : 0 < w := hsource.1
  cases target with
  | uint m => exact exact_int hv (ok_of_explicitly h ▸ eval_resize_signExt (.uint m) rfl rfl hv) trivial
  | int m => exact exact_int hv (ok_of_ite h ▸ eval_resize_signExt (.int m) rfl rfl hv) trivial
  | enum no =>
    have hwide : 8 ≤ w := Nat.le_of_dvd hpos hsource.2
    exact exact_castToEnum rfl hwide hv htarget hconstant rfl h trivial
  | address payable =>
    have h : castToAddress ns implicit true ((Ty.int w).bits ns) payable = .ok expr := h
    rw [converted_int ns _ hv, eval_castToAddress rfl hv h, value_inj]
    exact widened_signed_iff hpos hv
  | value => cases h
  | bytes n => exact exact_sameSize (fun _ _ h => nomatch h) hv h rfl rfl trivial

theorem castTypes_enum_iff {no : Nat} (hv : v < 2 ^ 8)
    (h : castTypes ns constant implicit (.enum no) target = .ok expr) :
    expr.eval ns (.enum no) v = .value (converted ns (.enum no) target v) ↔ SemaExact ns (.enum no) target v := by
  have hnot : ∀ n m, Ty.enum no = .bytes n → target ≠ .bytes m := fun _ _ h => nomatch h
  cases target with
  | uint m => exact exact_unsigned rfl hnot (ok_of_explicitly h ▸ eval_resize_zeroExt (.uint m) rfl rfl hv) trivial
  | int m => exact exact_unsigned rfl hnot (ok_of_explicitly h ▸ eval_resize_zeroExt (.int m) rfl rfl hv) trivial
  | _ => cases h

theorem castTypes_value_iff (hsource : Ty.value.Valid ns) (hv : v < 2 ^ (ns.valueLength * 8))
    (h : castTypes ns constant implicit .value target = .ok expr) :
    expr.eval ns .value v = .value (converted ns .value target v) ↔ SemaExact ns .value target v := by
  have hnot : ∀ n m, Ty.value = .bytes n → target ≠ .bytes m := fun _ _ h => nomatch h
  cases target with
  | uint m =>
    have hsign : (resize .signExt (ns.valueLength * 8) m (.uint m) .operand).eval ns .value v = .value
        (if ns.valueLength * 8 < m then signExtend (ns.valueLength * 8) m v else v % 2 ^ m) :=
      eval_resize_signExt (.uint m) rfl rfl hv
    rw [converted_unsigned rfl hnot, ← ok_of_ite h, hsign, value_inj]
    exact widened_iff hsource.bits_pos hv
  | int m => exact exact_unsigned rfl hnot (ok_of_explicitly h ▸ eval_resize_zeroExt (.int m) rfl rfl hv) trivial
  | _ => cases h

theorem castTypes_address_iff {payable : Bool} (hsource : (Ty.address payable).Valid ns)
    (hv : v < 2 ^ (ns.addressLength * 8)) (h : castTypes ns constant implicit (.address payable) target = .ok expr) :
    expr.eval ns (.address payable) v = .value (converted ns (.address payable) target v) ↔
      SemaExact ns (.address payable) target v := by
  have hpos : 0 < ns.addressLength * 8 := hsource.bits_pos
  have hnot : ∀ n m, Ty.address payable = .bytes n → target ≠ .bytes m := fun _ _ h => nomatch h
  have hsame (payable' : Bool) : (CastExpr.cast (.address payable') .operand).eval ns (.address payable) v =
      .value (v % 2 ^ (ns.addressLength * 8)) := by
    rw [Nat.mod_eq_of_lt hv]
    exact if_pos rfl
  cases target with
  | uint m =>
    have heval : expr.eval ns (.address payable) v = .value
        (if ns.addressLength * 8 < m then signExtend (ns.addressLength * 8) m v else v % 2 ^ m) :=
      ok_of_explicitly h ▸ eval_ofAddress (.uint m) false rfl hv
    rw [converted_unsigned rfl hnot, heval, value_inj]
    exact widened_iff hpos hv
  | int m => exact exact_unsigned rfl hnot (ok_of_explicitly h ▸ eval_ofAddress (.int m) true rfl hv) trivial
  | address payable' =>
    cases payable with
    | true =>
      cases payable' with
      | true => cases h
      | false =>
        obtain rfl := Except.ok.inj h
        exact exact_unsigned rfl hnot (hsame false) trivial
    | false =>
      cases payable' with
      | true => exact exact_unsigned rfl hnot (ok_of_explicitly h ▸ hsame true) trivial
      | false => cases h
  | bytes n => exact exact_sameSize hnot hv h rfl rfl trivial
  | _ => cases h

theorem castTypes_bytes_iff {n : Nat} (htarget : target.Valid ns) (hv : v < 2 ^ (n * 8))
    (hconstant : ∀ c, constant = some c → c % 2 ^ (n * 8) = v)
    (h : castTypes ns constant implicit (.bytes n) target = .ok expr) :
    expr.eval ns (.bytes n) v = .value (converted ns (.bytes n) target v) ↔ SemaExact ns (.bytes n) target v := by
  cases target with
  | uint m =>
    have h : (if n = 1 ∧ m = 8 then .ok .operand else sameSize implicit (n * 8) m (.uint m)) = Except.ok expr := h
    split at h
    · rename_i heq
      obtain ⟨rfl, rfl⟩ := heq
      obtain rfl := Except.ok.inj h
      exact exact_unsigned rfl (fun _ _ _ h => nomatch h) (congrArg _ (Nat.mod_eq_of_lt hv).symm) trivial
    · exact exact_sameSize (fun _ _ _ h => nomatch h) hv h rfl rfl trivial
  | int m => exact exact_sameSize (fun _ _ _ h => nomatch h) hv h rfl rfl trivial
  | address payable => exact exact_sameSize (fun _ _ _ h => nomatch h) hv h rfl rfl trivial
  | enum no =>
    have hcast : (if n = 1 ∧ implicit = false then castToEnum ns constant implicit 8 no else .error .notPossible) =
        Except.ok expr := h
    split at hcast
    · rename_i hone
      obtain ⟨rfl, _⟩ := hone
      exact exact_castToEnum rfl (Nat.le_refl 8) hv htarget hconstant rfl hcast trivial
    · cases hcast
  | bytes m =>
    have h : (if n < m then .ok (.shiftLeft (.bytes m) (.zeroExt (.bytes m) .operand) ((m - n) * 8))
      else if implicit then .error .implicitWouldTruncate
      else .ok (.trunc (.bytes m) (.shiftRight (.bytes n) .operand ((n - m) * 8))) : CastResult) = .ok expr := h
    have hexpr : (if n < m then CastExpr.shiftLeft (.bytes m) (.zeroExt (.bytes m) .operand) ((m - n) * 8)
        else .trunc (.bytes m) (.shiftRight (.bytes n) .operand ((n - m) * 8))) = expr := by
      split at h
      · rename_i hnm
        rw [if_pos hnm]
        exact Except.ok.inj h
      · rename_i hnm
        rw [if_neg hnm]
        exact ok_of_ite h
    rw [← hexpr]
    exact exact_bytes hv trivial
  | value => cases h

/-- What sema makes of a conversion means it exactly for the operands that do not show an extension with the wrong
bit, and for those that a balance has room for. -/
theorem castTypes_iff (hsource : source.Valid ns) (htarget : target.Valid ns) (hv : v < 2 ^ source.bits ns)
    (hconstant : ∀ n, constant = some n → n % 2 ^ source.bits ns = v)
    (h : castTypes ns constant implicit source target = .ok expr) :
    expr.eval ns source v = .value (converted ns source target v) ↔ SemaExact ns source target v := by
  cases source with
  | uint w => exact castTypes_uint_iff hsource htarget hv hconstant h
  | int w => exact castTypes_int_iff hsource htarget hv hconstant h
  | enum no => exact castTypes_enum_iff hv h
  | address payable => exact castTypes_address_iff hsource hv h
  | value => exact castTypes_value_iff hsource hv h
  | bytes n => exact castTypes_bytes_iff htarget hv hconstant h

end Sema

end Solang.Conversions
