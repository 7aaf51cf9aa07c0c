import Solang.Codegen.ConversionsSema

/-!
# Conversions of the code generator and their meaning

They are the conversions of sema for most pairs of types. Balances are extended with the sign in all directions, and
there is no truncation to them; and integers are extended to the type of an address, which the emitter does not
accept.
-/

namespace Solang.Conversions

variable {ns : Namespace} {source target : Ty} {v w m : Nat}

/-! ## The code generator -/

/-- An extension to the type of an address is not accepted. -/
theorem castToAddressCodegen_narrow {payable signed : Bool} (h : source.bits ns < ns.addressLength * 8) :
    (castToAddressCodegen ns signed (source.bits ns) (.address payable)).eval ns source v = .rejected := by
  have hinteger (n : Nat) : integers source (.address payable) n = .rejected := by
    unfold integers
    rw [Ty.isInteger.eq_1 payable, Bool.and_false]
    rfl
  have hzero : (CastExpr.zeroExt (.address payable) .operand).eval ns source v = .rejected := hinteger _
  have hsign : (CastExpr.signExt (.address payable) .operand).eval ns source v = .rejected := hinteger _
  have hcast {expr : CastExpr} (hexpr : expr.eval ns source v = .rejected) :
      (CastExpr.cast (.address payable) expr).eval ns source v = .rejected := by
    show (expr.eval ns source v).bind _ = _
    rw [hexpr]
    rfl
  unfold castToAddressCodegen
  dsimp only
  rw [if_neg (by omega), if_pos h]
  cases signed with
  | true => exact hcast hzero
  | false => exact hcast hsign

/-- For integers that are not narrower it is the expression of sema. -/
theorem castToAddressCodegen_wide {payable signed : Bool} (h : ns.addressLength * 8 ≤ w) :
    castToAddress ns false signed w payable = .ok (castToAddressCodegen ns signed w (.address payable)) := by
  have hnot : ¬ w < ns.addressLength * 8 := Nat.not_lt.mpr h
  unfold castToAddress castToAddressCodegen explicitly
  dsimp only
  rw [if_neg Bool.false_ne_true, if_neg hnot, if_neg hnot]

theorem converted_self (hv : v < 2 ^ source.bits ns) : converted ns source source v = v := by
  cases source with
  | bytes n =>
    show (if n ≤ n then v * 2 ^ ((n - n) * 8) else _) = v
    rw [if_pos (Nat.le_refl n), Nat.sub_self, Nat.zero_mul, pow_zero, Nat.mul_one]
  | int w =>
    have hw : v < 2 ^ w := hv
    rw [converted_int ns _ hw]
    exact (if_neg (Nat.lt_irrefl w)).trans (Nat.mod_eq_of_lt hv)
  | _ =>
    rw [converted_unsigned rfl (by rintro _ _ ⟨⟩)]
    exact Nat.mod_eq_of_lt hv

section Codegen

variable {expr : CastExpr}

/-- Where it is that of sema, the expression has the same meaning. -/
theorem castCodegen_of_sema (hsource : source.Valid ns) (htarget : target.Valid ns) (hv : v < 2 ^ source.bits ns)
    (h : castTypes ns none false source target = .ok expr) (hsame : castCodegen ns source target = expr)
    (hexact : CodegenExact ns source target v ↔ SemaExact ns source target v) :
    (castCodegen ns source target).eval ns source v = .value (converted ns source target v) ↔
      CodegenExact ns source target v := by
  rw [hsame, hexact]
  exact castTypes_iff hsource htarget hv (by rintro _ ⟨⟩) h

theorem castCodegen_uint_iff (hsource : (Ty.uint w).Valid ns) (htarget : target.Valid ns) (hv : v < 2 ^ w)
    (hne : Ty.uint w ≠ target) (h : castTypes ns none false (.uint w) target = .ok expr) :
    (castCodegen ns (.uint w) target).eval ns (.uint w) v = .value (converted ns (.uint w) target v) ↔
      CodegenExact ns (.uint w) target v := by
  have hnot : ∀ n m, Ty.uint w = .bytes n → target ≠ .bytes m := fun _ _ h => nomatch h
  cases target with
  | uint m => exact castCodegen_of_sema hsource htarget hv h ((if_neg hne).trans (ok_of_ite h)) Iff.rfl
  | int m =>
    refine castCodegen_of_sema hsource htarget hv h ((if_neg hne).trans ?_) Iff.rfl
    have h : (if w < m then .ok (.zeroExt (.int m) .operand)
      else explicitly false .implicitWouldChangeSign (resize .zeroExt w m (.int m) .operand)) = Except.ok expr := h
    show resize .zeroExt w m (.int m) .operand = expr
    by_cases hwm : w < m
    · rw [if_pos hwm] at h
      unfold resize
      rw [if_neg (by omega), if_pos hwm]
      exact Except.ok.inj h
    · rw [if_neg hwm] at h
      exact ok_of_explicitly h
  | enum no => exact castCodegen_of_sema hsource htarget hv h ((if_neg hne).trans (Except.ok.inj h)) Iff.rfl
  | address payable =>
    have hcode : castCodegen ns (.uint w) (.address payable) =
      castToAddressCodegen ns false ((Ty.uint w).bits ns) (.address payable) := if_neg hne
    show _ ↔ ns.addressLength * 8 ≤ w
    by_cases hle : ns.addressLength * 8 ≤ w
    · have hsema : castTypes ns none false (.uint w) (.address payable) =
        .ok (castToAddressCodegen ns false w (.address payable)) := castToAddressCodegen_wide hle
      rw [hcode]
      exact iff_of_true ((castTypes_uint_iff hsource htarget hv (by rintro _ ⟨⟩) hsema).mpr
        fun hlt => absurd hlt (Nat.not_lt.mpr hle)) hle
    · rw [hcode, castToAddressCodegen_narrow (Nat.not_le.mp hle)]
      exact iff_of_false rejected_ne hle
  | value =>
    have hcode : castCodegen ns (.uint w) .value = .cast .value .operand := if_neg hne
    rw [hcode, converted_unsigned rfl hnot]
    show (if w = ns.valueLength * 8 then Outcome.value v else .rejected) = .value (v % 2 ^ (ns.valueLength * 8)) ↔
      w = ns.valueLength * 8
    by_cases heq : w = ns.valueLength * 8
    · rw [if_pos heq, ← heq, Nat.mod_eq_of_lt hv]
      exact iff_of_true rfl rfl
    · rw [if_neg heq]
      exact iff_of_false rejected_ne heq
  | bytes n =>
    have h : (if w = 8 ∧ n = 1 then .ok .operand else sameSize false w (n * 8) (.bytes n)) = Except.ok expr := h
    have hcode : castCodegen ns (.uint w) (.bytes n) =
      if w = 8 ∧ n = 1 then .operand else .cast (.bytes n) .operand := if_neg hne
    have hsame : castCodegen ns (.uint w) (.bytes n) = expr := by
      rw [hcode]
      split at h
      · rename_i heq
        rw [if_pos heq]
        exact Except.ok.inj h
      · rename_i heq
        rw [if_neg heq]
        exact eq_of_sameSize h
    exact castCodegen_of_sema hsource htarget hv (by assumption) hsame Iff.rfl

theorem castCodegen_int_iff (hsource : (Ty.int w).Valid ns) (htarget : target.Valid ns) (hv : v < 2 ^ w)
    (hne : Ty.int w ≠ target) (h : castTypes ns none false (.int w) target = .ok expr) :
    (castCodegen ns (.int w) target).eval ns (.int w) v = .value (converted ns (.int w) target v) ↔
      CodegenExact ns (.int w) target v := by
  cases target with
  | uint m => exact castCodegen_of_sema hsource htarget hv h ((if_neg hne).trans (ok_of_explicitly h)) Iff.rfl
  | int m => exact castCodegen_of_sema hsource htarget hv h ((if_neg hne).trans (ok_of_ite h)) Iff.rfl
  | enum no => exact castCodegen_of_sema hsource htarget hv h ((if_neg hne).trans (Except.ok.inj h)) Iff.rfl
  | address payable =>
    have hcode : castCodegen ns (.int w) (.address payable) =
      castToAddressCodegen ns true ((Ty.int w).bits ns) (.address payable) := if_neg hne
    show _ ↔ ns.addressLength * 8 ≤ w
    by_cases hle : ns.addressLength * 8 ≤ w
    · have hsema : castTypes ns none false (.int w) (.address payable) =
        .ok (castToAddressCodegen ns true w (.address payable)) := castToAddressCodegen_wide hle
      rw [hcode]
      exact iff_of_true ((castTypes_int_iff hsource htarget hv (by rintro _ ⟨⟩) hsema).mpr
        fun hlt => absurd hlt (Nat.not_lt.mpr hle)) hle
    · rw [hcode, castToAddressCodegen_narrow (Nat.not_le.mp hle)]
      exact iff_of_false rejected_ne hle
  | value => cases h
  | bytes n => exact castCodegen_of_sema hsource htarget hv h ((if_neg hne).trans (eq_of_sameSize h)) Iff.rfl

theorem castCodegen_value_iff (hsource : Ty.value.Valid ns) (hv : v < 2 ^ (ns.valueLength * 8))
    (hne : Ty.value ≠ target) (h : castTypes ns none false .value target = .ok expr) :
    (castCodegen ns .value target).eval ns .value v = .value (converted ns .value target v) ↔
      CodegenExact ns .value target v := by
  have hnot : ∀ n m, Ty.value = .bytes n → target ≠ .bytes m := fun _ _ h => nomatch h
  -- A balance is extended with its sign, whatever it is converted to.
  have hsign (ty : Ty) (hty : ty.isInteger = true) :
      (resize .signExt (ns.valueLength * 8) (ty.bits ns) ty .operand).eval ns .value v = .value
        (if ns.valueLength * 8 < ty.bits ns then signExtend (ns.valueLength * 8) (ty.bits ns) v
          else v % 2 ^ ty.bits ns) :=
    eval_resize_signExt ty rfl hty hv
  cases target with
  | uint m =>
    have hcode : castCodegen ns .value (.uint m) = resize .signExt (ns.valueLength * 8) m (.uint m) .operand :=
      if_neg hne
    rw [hcode, converted_unsigned rfl hnot]
    exact (Eq.congr_left (hsign (.uint m) rfl)).trans (value_inj.trans (widened_iff hsource.bits_pos hv))
  | int m =>
    have hcode : castCodegen ns .value (.int m) = resize .signExt (ns.valueLength * 8) m (.int m) .operand :=
      if_neg hne
    rw [hcode, converted_unsigned rfl hnot]
    exact (Eq.congr_left (hsign (.int m) rfl)).trans (value_inj.trans (widened_iff hsource.bits_pos hv))
  | _ => cases h

theorem castCodegen_enum_iff {no : Nat} (hsource : (Ty.enum no).Valid ns) (htarget : target.Valid ns) (hv : v < 2 ^ 8)
    (hne : Ty.enum no ≠ target) (h : castTypes ns none false (.enum no) target = .ok expr) :
    (castCodegen ns (.enum no) target).eval ns (.enum no) v = .value (converted ns (.enum no) target v) ↔
      CodegenExact ns (.enum no) target v := by
  cases target with
  | uint m
  | int m => exact castCodegen_of_sema hsource htarget hv h ((if_neg hne).trans (ok_of_explicitly h)) Iff.rfl
  | _ => cases h

theorem castCodegen_address_iff {payable : Bool} (hsource : (Ty.address payable).Valid ns) (htarget : target.Valid ns)
    (hv : v < 2 ^ (ns.addressLength * 8)) (hne : Ty.address payable ≠ target)
    (h : castTypes ns none false (.address payable) target = .ok expr) :
    (castCodegen ns (.address payable) target).eval ns (.address payable) v =
      .value (converted ns (.address payable) target v) ↔ CodegenExact ns (.address payable) target v := by
  cases target with
  | uint m =>
    have hexpr : castFromAddressCodegen ns false m (.uint m) = expr := Except.ok.inj h
    exact castCodegen_of_sema hsource htarget hv h ((if_neg hne).trans hexpr) Iff.rfl
  | int m =>
    have hexpr : castFromAddressCodegen ns true m (.int m) = expr := Except.ok.inj h
    exact castCodegen_of_sema hsource htarget hv h ((if_neg hne).trans hexpr) Iff.rfl
  | bytes n => exact castCodegen_of_sema hsource htarget hv h ((if_neg hne).trans (eq_of_sameSize h)) Iff.rfl
  | address payable' =>
    have hexpr : CastExpr.cast (.address payable') .operand = expr := by
      cases payable with
      | true =>
        cases payable' with
        | true => cases h
        | false => exact Except.ok.inj h
      | false =>
        cases payable' with
        | true => exact ok_of_explicitly h
        | false => cases h
    exact castCodegen_of_sema hsource htarget hv h ((if_neg hne).trans hexpr) Iff.rfl
  | _ => cases h

theorem castCodegen_bytes_iff {n : Nat} (hsource : (Ty.bytes n).Valid ns) (htarget : target.Valid ns)
    (hv : v < 2 ^ (n * 8)) (hne : Ty.bytes n ≠ target) (h : castTypes ns none false (.bytes n) target = .ok expr) :
    (castCodegen ns (.bytes n) target).eval ns (.bytes n) v = .value (converted ns (.bytes n) target v) ↔
      CodegenExact ns (.bytes n) target v := by
  -- Only integers of the same size are accepted.
  have hresize {m : Nat} (hsize : sameSize false (n * 8) m target = .ok expr) :
      resize .zeroExt n (m / 8) target .operand = expr := by
    have hlen : n * 8 = m := by
      unfold sameSize at hsize
      split at hsize
      · cases hsize
      · split at hsize
        · cases hsize
        · rename_i heq
          exact not_not.mp heq
    unfold resize
    rw [if_neg (by omega), if_neg (by omega)]
    exact eq_of_sameSize hsize
  cases target with
  | uint m =>
    have hcases : (if n = 1 ∧ m = 8 then .ok .operand else sameSize false (n * 8) m (.uint m)) = Except.ok expr := h
    have hcode : castCodegen ns (.bytes n) (.uint m) =
      if n = 1 ∧ m = 8 then .operand else resize .zeroExt n (m / 8) (.uint m) .operand := if_neg hne
    refine castCodegen_of_sema hsource htarget hv h (hcode.trans ?_) Iff.rfl
    split at hcases
    · rename_i heq
      rw [if_pos heq]
      exact Except.ok.inj hcases
    · rename_i heq
      rw [if_neg heq]
      exact hresize hcases
  | int m => exact castCodegen_of_sema hsource htarget hv h ((if_neg hne).trans (hresize h)) Iff.rfl
  | address payable =>
    exact castCodegen_of_sema hsource htarget hv h ((if_neg hne).trans (eq_of_sameSize h)) Iff.rfl
  | enum no =>
    have hcode : castCodegen ns (.bytes n) (.enum no) = .cast (.enum no) .operand := if_neg hne
    have hcases : (if n = 1 ∧ false = false then castToEnum ns none false 8 no else .error .notPossible) =
        Except.ok expr := h
    split at hcases
    · rename_i hone
      obtain ⟨rfl, _⟩ := hone
      exact castCodegen_of_sema hsource htarget hv h (hcode.trans (Except.ok.inj hcases)) Iff.rfl
    · cases hcases
  | bytes m =>
    have hcode : castCodegen ns (.bytes n) (.bytes m) =
        if n < m then CastExpr.shiftLeft (.bytes m) (.zeroExt (.bytes m) .operand) ((m - n) * 8)
        else .trunc (.bytes m) (.shiftRight (.bytes n) .operand ((n - m) * 8)) := if_neg hne
    rw [hcode]
    exact exact_bytes hv trivial
  | value => cases h

theorem castCodegen_iff (hsource : source.Valid ns) (htarget : target.Valid ns) (hv : v < 2 ^ source.bits ns)
    (h : castTypes ns none false source target = .ok expr) :
    (castCodegen ns source target).eval ns source v = .value (converted ns source target v) ↔
      CodegenExact ns source target v := by
  by_cases heq : source = target
  · subst heq
    have hcode : castCodegen ns source source = .operand := if_pos rfl
    rw [hcode, converted_self hv]
    refine iff_of_true rfl ?_
    cases source <;> trivial
  · cases source with
    | uint w => exact castCodegen_uint_iff hsource htarget hv heq h
    | int w => exact castCodegen_int_iff hsource htarget hv heq h
    | enum no => exact castCodegen_enum_iff hsource htarget hv heq h
    | address payable => exact castCodegen_address_iff hsource htarget hv heq h
    | value => exact castCodegen_value_iff hsource hv heq h
    | bytes n => exact castCodegen_bytes_iff hsource htarget hv heq h

end Codegen

/-! ## Both -/

section Both

variable {constant : Option Int} {implicit : Bool} {expr : CastExpr}

theorem sameSize_explicit {fromLen toLen : Nat} (h : sameSize implicit fromLen toLen target = .ok expr) :
    ∃ expr', sameSize false fromLen toLen target = .ok expr' := by
  unfold sameSize at h ⊢
  split at h
  · cases h
  · exact ⟨expr, h⟩

/-- What is accepted at all is accepted explicitly. -/
theorem castTypes_explicit (h : castTypes ns constant implicit source target = .ok expr) :
    ∃ expr', castTypes ns none false source target = .ok expr' := by
  -- The explicit conversions that depend on widths choose between expressions.
  have hchoice {p : Prop} [Decidable p] {a b : CastExpr} :
      ∃ expr', (if p then .ok a else .ok b : CastResult) = .ok expr' := by
    split <;> exact ⟨_, rfl⟩
  have hnever {p : Prop} [Decidable p] {error : CastError} {a : CastExpr} :
      ∃ expr', (if p ∧ false = true then .error error else .ok a : CastResult) = .ok expr' :=
    ⟨_, if_neg fun h => Bool.false_ne_true h.2⟩
  cases source with
  | uint w =>
    cases target with
    | uint m => exact hnever
    | int m => exact hchoice
    | enum no => exact ⟨_, rfl⟩
    | address payable => exact ⟨_, rfl⟩
    | value =>
      show ∃ expr', (if ns.valueLength * 8 < w then .ok _ else if w < ns.valueLength * 8 then .ok _ else .ok _ :
        CastResult) = .ok expr'
      split
      · exact ⟨_, rfl⟩
      · exact hchoice
    | bytes n =>
      have h : (if w = 8 ∧ n = 1 then .ok .operand else sameSize implicit w (n * 8) (.bytes n)) = Except.ok expr := h
      show ∃ expr', (if w = 8 ∧ n = 1 then .ok .operand else sameSize false w (n * 8) (.bytes n)) = Except.ok expr'
      split at h
      · rename_i heq
        exact ⟨_, if_pos heq⟩
      · rename_i heq
        rw [if_neg heq]
        exact sameSize_explicit h
  | int w =>
    cases target with
    | int m => exact hnever
    | value => cases h
    | bytes n => exact sameSize_explicit h
    | _ => exact ⟨_, rfl⟩
  | enum no =>
    cases target with
    | uint m | int m => exact ⟨_, rfl⟩
    | _ => cases h
  | address payable =>
    cases target with
    | uint m | int m => exact ⟨_, rfl⟩
    | bytes n => exact sameSize_explicit h
    | address payable' =>
      cases payable with
      | true =>
        cases payable' with
        | true => cases h
        | false => exact ⟨_, rfl⟩
      | false =>
        cases payable' with
        | true => exact ⟨_, rfl⟩
        | false => cases h
    | _ => cases h
  | value =>
    cases target with
    | uint m => exact hnever
    | int m => exact ⟨_, rfl⟩
    | _ => cases h
  | bytes n =>
    cases target with
    | uint m =>
      have h : (if n = 1 ∧ m = 8 then .ok .operand else sameSize implicit (n * 8) m (.uint m)) = Except.ok expr := h
      show ∃ expr', (if n = 1 ∧ m = 8 then .ok .operand else sameSize false (n * 8) m (.uint m)) = Except.ok expr'
      split at h
      · rename_i heq
        exact ⟨_, if_pos heq⟩
      · rename_i heq
        rw [if_neg heq]
        exact sameSize_explicit h
    | int m => exact sameSize_explicit h
    | address payable => exact sameSize_explicit h
    | enum no =>
      have h : (if n = 1 ∧ implicit = false then castToEnum ns constant implicit 8 no else .error .notPossible) =
          Except.ok expr := h
      split at h
      · rename_i hone
        exact ⟨_, if_pos ⟨hone.1, rfl⟩⟩
      · cases h
    | bytes m => exact hchoice
    | value => cases h

variable (ns) in
/-- Modulo a narrower type, a pattern is the integer it stands for. -/
theorem read_emod (ty : Ty) (v : Nat) (hm : m ≤ ty.bits ns) : (ty.read ns v % 2 ^ m).toNat = v % 2 ^ m := by
  unfold Ty.read
  split
  · exact sub_pow_emod v hm
  · exact natCast_emod_toNat v m

theorem converted_eq_read (hbytes : ∀ n m, source = .bytes n → target ≠ .bytes m) :
    converted ns source target v = (source.read ns v % 2 ^ target.bits ns).toNat := by
  unfold converted
  split
  · rename_i n m
    exact absurd rfl (hbytes n m rfl)
  · rfl

/-- Widened and back, an operand is what it was. -/
theorem converted_back (hv : v < 2 ^ source.bits ns) (hwide : source.bits ns ≤ target.bits ns) :
    converted ns target source (converted ns source target v) = v := by
  by_cases hbytes : ∃ n m, source = .bytes n ∧ target = .bytes m
  · obtain ⟨n, m, rfl, rfl⟩ := hbytes
    have hnm : n * 8 ≤ m * 8 := hwide
    show (if m ≤ n then (if n ≤ m then _ else _) * 2 ^ ((n - m) * 8)
      else (if n ≤ m then _ else _) / 2 ^ ((m - n) * 8)) = v
    rw [if_pos (by omega : n ≤ m)]
    split
    · rw [show m - n = 0 by omega, show n - m = 0 by omega, Nat.zero_mul, pow_zero, Nat.mul_one, Nat.mul_one]
    · exact Nat.mul_div_cancel v (by positivity)
  · rw [converted_eq_read fun n m ht hs => hbytes ⟨m, n, hs, ht⟩,
      converted_eq_read fun n m hs ht => hbytes ⟨n, m, hs, ht⟩, read_emod ns target _ hwide]
    have hread := read_emod ns source v (Nat.le_refl _)
    have hcast : ((2 ^ source.bits ns : Nat) : Int) = 2 ^ source.bits ns := Int.natCast_pow 2 _
    have hpos : (0 : Int) < 2 ^ target.bits ns := by positivity
    have hnarrow : source.read ns v % 2 ^ target.bits ns % 2 ^ source.bits ns = source.read ns v % 2 ^ source.bits ns :=
      Int.emod_emod_of_dvd _ (pow_dvd_pow 2 hwide)
    rw [← Int.toNat_natCast ((source.read ns v % 2 ^ target.bits ns).toNat % 2 ^ source.bits ns), Int.natCast_emod,
      Int.toNat_of_nonneg (Int.emod_nonneg _ hpos.ne'), hcast, hnarrow, hread, Nat.mod_eq_of_lt hv]

/-- Both expressions for a conversion mean it exactly for these operands; where they do, a wider type and back is the
identity. -/
theorem conversions_exact_iff (hsource : source.Valid ns) (htarget : target.Valid ns) (hv : v < 2 ^ source.bits ns)
    (hconstant : ∀ n, constant = some n → n % 2 ^ source.bits ns = v)
    (h : castTypes ns constant implicit source target = .ok expr) :
    (expr.eval ns source v = .value (converted ns source target v) ↔ SemaExact ns source target v) ∧
      ((castCodegen ns source target).eval ns source v = .value (converted ns source target v) ↔
        CodegenExact ns source target v) ∧
      (source.bits ns ≤ target.bits ns → converted ns target source (converted ns source target v) = v) := by
  obtain ⟨expr', hexplicit⟩ := castTypes_explicit h
  exact ⟨castTypes_iff hsource htarget hv hconstant h, castCodegen_iff hsource htarget hv hexplicit,
    converted_back hv⟩

end Both

namespace Sample

/-- The lengths of Ethereum, with enums of three values -/
def evm : Namespace := ⟨20, 32, fun _ => 3⟩

/-- `uint16(int8(-1))` -/
theorem conversions_exact_int8 : (castCodegen evm (.int 8) (.uint 16)).eval evm (.int 8) 0xff = .value 0xffff :=
  ((@conversions_exact_iff evm (.int 8) (.uint 16) 0xff none false _
    ⟨by decide, by decide⟩ ⟨by decide, by decide⟩ (by decide) (by rintro _ ⟨⟩) rfl).2.1.mpr trivial).trans (by decide)

/-- `address(uint8(255))` is the last address and not the one of 255. -/
theorem uint8_to_address_is_signed : ¬ ∀ (ns : Namespace) (constant : Option Int) (implicit : Bool) (source target : Ty)
    (v : Nat) (expr : CastExpr), source.Valid ns → target.Valid ns → v < 2 ^ source.bits ns →
      (∀ n, constant = some n → n % 2 ^ source.bits ns = v) →
      castTypes ns constant implicit source target = .ok expr →
        expr.eval ns source v = .value (converted ns source target v) := by
  intro hall
  have h := hall evm none false (.uint 8) (.address false) 255
    (.cast (.address false) (.signExt (.uint 160) .operand)) ⟨by decide, by decide⟩
    (by decide : 0 < 20) (by decide) (by rintro _ ⟨⟩) (by decide)
  exact absurd h (by decide)

end Sample

end Solang.Conversions
