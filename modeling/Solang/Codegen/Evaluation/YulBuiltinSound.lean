import Solang.Codegen.Evaluation.YulBuiltin

/-!
# Arithmetic in Yul and its meaning

An expression of the code generator stands for an integer in each state. Conversions keep the integer, and the
instructions compute the operation on its word.
-/

namespace Solang.Codegen.Evaluation.Yul

open EvmWord (Binary Ternary Instruction wrap wrap_lt)
open Conversions (CastExpr castTypes castCodegen CodegenExact InRange pattern)

variable {ns : Namespace}

/-! ## Conversions -/

section Conversions

variable {source target : Conversions.Ty} {v : Nat}

/-- `uint` or `int` -/
def IsInt (ty : Conversions.Ty) : Prop := (∃ w, ty = .uint w) ∨ ∃ w, ty = .int w

theorem castTypes_ok (base : Conversions.Namespace) (hsource : ∀ n, source ≠ .bytes n) (htarget : IsInt target) :
    ∃ expr, castTypes base none false source target = .ok expr := by
  rcases htarget with ⟨w, rfl⟩ | ⟨w, rfl⟩
  · cases source with
    | uint m => exact ⟨_, if_neg fun h => Bool.false_ne_true h.2⟩
    | int m => exact ⟨_, rfl⟩
    | enum no => exact ⟨_, rfl⟩
    | address payable => exact ⟨_, rfl⟩
    | value => exact ⟨_, if_neg fun h => Bool.false_ne_true h.2⟩
    | bytes n => exact absurd rfl (hsource n)
  · cases source with
    | uint m =>
      by_cases h : m < w
      · exact ⟨_, if_pos h⟩
      · exact ⟨_, if_neg h⟩
    | int m => exact ⟨_, if_neg fun h => Bool.false_ne_true h.2⟩
    | enum no => exact ⟨_, rfl⟩
    | address payable => exact ⟨_, rfl⟩
    | value => exact ⟨_, rfl⟩
    | bytes n => exact absurd rfl (hsource n)

theorem IsInt.isInteger (h : IsInt target) : target.isInteger = true := by
  rcases h with ⟨w, rfl⟩ | ⟨w, rfl⟩ <;> rfl

theorem resize_bytes {extend : Conversions.Ty → CastExpr → CastExpr} {n bits : Nat} (h : 8 ∣ bits) :
    Conversions.resize extend n (bits / 8) target .operand = Conversions.resize extend (n * 8) bits target .operand := by
  unfold Conversions.resize
  simp only [show bits / 8 < n ↔ bits < n * 8 by omega, show n < bits / 8 ↔ n * 8 < bits by omega]

theorem eval_castCodegen_bytes {base : Conversions.Namespace} {n : Nat} (hint : IsInt target)
    (htarget : target.Valid base) (hv : v < 2 ^ (n * 8)) :
    (castCodegen base (.bytes n) target).eval base (.bytes n) v = .value (v % 2 ^ target.bits base) := by
  have hresize := @Conversions.eval_resize_zeroExt base (.bytes n) target v rfl hint.isInteger hv
  rcases hint with ⟨w, rfl⟩ | ⟨w, rfl⟩
  · have hcode : castCodegen base (.bytes n) (.uint w) =
        if n = 1 ∧ w = 8 then .operand else Conversions.resize .zeroExt n (w / 8) (.uint w) .operand := if_neg (by simp)
    rw [hcode]
    split
    · next h =>
      obtain ⟨rfl, rfl⟩ := h
      exact congrArg Conversions.Outcome.value (Nat.mod_eq_of_lt hv).symm
    · rw [resize_bytes htarget.2]
      exact hresize
  · have hcode : castCodegen base (.bytes n) (.int w) = Conversions.resize .zeroExt n (w / 8) (.int w) .operand :=
      if_neg (by simp)
    rw [hcode, resize_bytes htarget.2]
    exact hresize

theorem eval_castCodegen {base : Conversions.Namespace} (hint : IsInt target) (hsource : source.Valid base)
    (htarget : target.Valid base) (hv : v < 2 ^ source.bits base) (hexact : CodegenExact base source target v) :
    (castCodegen base source target).eval base source v = .value (wrap (target.bits base) (source.read base v)) := by
  by_cases hbytes : ∃ n, source = .bytes n
  · obtain ⟨n, rfl⟩ := hbytes
    have hread : (Conversions.Ty.bytes n).read base v = v := if_neg fun h => Bool.false_ne_true h.1
    rw [eval_castCodegen_bytes hint htarget hv, hread, EvmWord.wrap_natCast]
  · obtain ⟨expr, hexpr⟩ := castTypes_ok base (fun n h => hbytes ⟨n, h⟩) hint
    have hnot : ∀ n m, source = .bytes n → target ≠ .bytes m := fun n _ h => absurd ⟨n, h⟩ hbytes
    rw [(Conversions.castCodegen_iff hsource htarget hv hexpr).mpr hexact, Conversions.converted_eq_read hnot]
    rfl

end Conversions

/-! ## Types -/

theorem Ty.Valid.bits_pos {ty : Ty} (h : ty.Valid ns) : 0 < ty.bits ns := by
  cases ty with
  | bool => exact Nat.one_pos
  | number ty => exact h.1.bits_pos
  | reference => exact h.1

theorem Ty.Valid.bits_le {ty : Ty} (h : ty.Valid ns) : ty.bits ns ≤ 256 := by
  cases ty with
  | bool => exact Nat.one_le_two_pow (n := 8)
  | number ty => exact h.2
  | reference => exact h.2.2

theorem wrap_read {ty : Ty} {v : Nat} (hv : v < 2 ^ ty.bits ns) : wrap (ty.bits ns) (ty.read ns v) = v := by
  have hmod : wrap (ty.bits ns) (v : Int) = v := by rw [EvmWord.wrap_natCast, Nat.mod_eq_of_lt hv]
  cases ty with
  | bool | reference => exact hmod
  | number ty => exact (Conversions.read_emod ns.toNamespace ty v le_rfl).trans (Nat.mod_eq_of_lt hv)

theorem read_zero {ty : Ty} : ty.read ns 0 = 0 := by
  cases ty with
  | bool => rfl
  | number ty => exact if_neg fun h => absurd h.2 (Nat.not_le.mpr (Nat.two_pow_pos _))
  | reference => rfl

theorem read_unsigned {ty : Ty} {v : Nat} (h : ty.isSigned = false) : ty.read ns v = v := by
  cases ty with
  | bool => rfl
  | number ty => exact if_neg fun hsigned => Bool.false_ne_true (h.symm.trans hsigned.1)
  | reference => rfl

section Types

variable {l r : Conversions.Ty} {left right : Ty} {t : Conversions.Ty} {n : Nat} {signed : Bool}

theorem typeBitsAndSign_eq (h : typeBitsAndSign ns l = some (n, signed)) (hl : Ty.Valid ns (.number l)) :
    n = l.bits ns.toNamespace ∧ signed = l.isSigned ∧ 8 ∣ n := by
  cases l with
  | uint m | int m =>
    cases h
    exact ⟨rfl, rfl, hl.1.2⟩
  | value =>
    cases h
    exact ⟨rfl, rfl, Nat.dvd_mul_left 8 _⟩
  | _ => cases h

theorem coerceNumber_numbers {leftLen rightLen : Nat} {leftSigned rightSigned : Bool}
    (hl : Ty.Valid ns (.number l)) (hr : Ty.Valid ns (.number r))
    (hleft : typeBitsAndSign ns l = some (leftLen, leftSigned))
    (hright : typeBitsAndSign ns r = some (rightLen, rightSigned)) :
    ∃ len, max leftLen rightLen ≤ len ∧ len ≤ 256 ∧ 8 ∣ len ∧ coerceNumber ns (.number l) (.number r) =
      some (if leftSigned || rightSigned then .int len else .uint len) := by
  obtain ⟨hlen, -, hdvd⟩ := typeBitsAndSign_eq hleft hl
  obtain ⟨hlen', -, hdvd'⟩ := typeBitsAndSign_eq hright hr
  have hle : leftLen ≤ 256 := hlen ▸ hl.2
  have hle' : rightLen ≤ 256 := hlen' ▸ hr.2
  unfold coerceNumber
  simp only [hleft, hright, Option.bind_eq_bind, Option.bind_some]
  cases leftSigned <;> cases rightSigned
  · exact ⟨max leftLen rightLen, le_rfl, by omega, by omega, rfl⟩
  · exact ⟨min (max (leftLen + 8) rightLen) 256, by omega, by omega, by omega, rfl⟩
  · exact ⟨min (max leftLen (rightLen + 8)) 256, by omega, by omega, by omega, rfl⟩
  · exact ⟨max leftLen rightLen, le_rfl, by omega, by omega, rfl⟩

/-- The type in common is that of an integer, and not narrower than the operands. -/
theorem coerceNumber_eq (h : coerceNumber ns left right = some t) (hleft : left.Valid ns) (hright : right.Valid ns) :
    IsInt t ∧ Ty.Valid ns (.number t) ∧ left.bits ns ≤ t.bits ns.toNamespace ∧
      right.bits ns ≤ t.bits ns.toNamespace ∧
        (t.isSigned = false → left.isSigned = false ∧ right.isSigned = false) := by
  have hcoerce := h
  unfold coerceNumber at h
  split at h
  · cases h
    exact ⟨.inl ⟨_, rfl⟩, hright, hright.1.1, le_rfl, fun _ => ⟨rfl, rfl⟩⟩
  · cases h
    exact ⟨.inl ⟨_, rfl⟩, hleft, le_rfl, hleft.1.1, fun _ => ⟨rfl, rfl⟩⟩
  · cases h
    exact ⟨.inr ⟨_, rfl⟩, hright, hright.1.1, le_rfl, by rintro ⟨⟩⟩
  · cases h
    exact ⟨.inr ⟨_, rfl⟩, hleft, le_rfl, hleft.1.1, by rintro ⟨⟩⟩
  · rename_i l r
    obtain ⟨⟨leftLen, leftSigned⟩, hl, h⟩ := Option.bind_eq_some_iff.mp h
    obtain ⟨⟨rightLen, rightSigned⟩, hr, -⟩ := Option.bind_eq_some_iff.mp h
    obtain ⟨hlen, hsign, -⟩ := typeBitsAndSign_eq hl hleft
    obtain ⟨hlen', hsign', -⟩ := typeBitsAndSign_eq hr hright
    obtain ⟨len, hmax, hle, hdvd, heq⟩ := coerceNumber_numbers hleft hright hl hr
    have hpos : 0 < l.bits ns.toNamespace := hleft.1.bits_pos
    have hleftLen : l.bits ns.toNamespace ≤ len := hlen ▸ (le_max_left _ _).trans hmax
    have hrightLen : r.bits ns.toNamespace ≤ len := hlen' ▸ (le_max_right _ _).trans hmax
    obtain rfl := Option.some.inj (heq.symm.trans hcoerce)
    cases hsigned : leftSigned || rightSigned with
    | true => exact ⟨.inr ⟨len, rfl⟩, ⟨⟨by omega, hdvd⟩, hle⟩, hleftLen, hrightLen, by rintro ⟨⟩⟩
    | false =>
      obtain ⟨hfalse, hfalse'⟩ := Bool.or_eq_false_iff.mp hsigned
      exact ⟨.inl ⟨len, rfl⟩, ⟨⟨by omega, hdvd⟩, hle⟩, hleftLen, hrightLen,
        fun _ => ⟨hsign.symm.trans hfalse, hsign'.symm.trans hfalse'⟩⟩
  · cases h

/-- The same where the operands may have one type -/
theorem commonTy_eq {ty : Ty} (h : commonTy ns left right = some ty) (hleft : left.Valid ns)
    (hright : right.Valid ns) :
    ty.Valid ns ∧ left.bits ns ≤ ty.bits ns ∧ right.bits ns ≤ ty.bits ns ∧
      (ty.isSigned = false → left.isSigned = false ∧ right.isSigned = false) := by
  unfold commonTy at h
  split at h
  · next heq =>
    cases h
    exact ⟨hleft, le_rfl, heq ▸ le_rfl, fun hsigned => ⟨hsigned, heq ▸ hsigned⟩⟩
  · obtain ⟨t, ht, rfl⟩ := Option.map_eq_some_iff.mp h
    exact (coerceNumber_eq ht hleft hright).2

end Types

/-! ## Expressions -/

/-- An expression of a type, for an integer of the type in each state -/
structure Expr.Stands (ns : Namespace) (e : Expr) (ty : Ty) (i : State → Int) : Prop where
  ty_eq : e.ty = ty
  eval_eq : ∀ s, e.eval ns s = some (wrap (ty.bits ns) (i s))
  read_eq : ∀ s, ty.read ns (wrap (ty.bits ns) (i s)) = i s
  literal : ∀ source value, e = .numberLiteral source value → IsInt source ∧ InRange ns.toNamespace source value

/-- An expression that is not a `bool` literal, and its value in a state -/
structure Expr.Has (ns : Namespace) (e : Expr) (ty : Ty) (s : State) (n : Nat) : Prop where
  ty_eq : e.ty = ty
  eval_eq : e.eval ns s = some n
  number : e.toNumberLiteral = e

theorem toNumberLiteral_idem (e : Expr) : e.toNumberLiteral.toNumberLiteral = e.toNumberLiteral := by
  cases e with
  | _ => rfl

section Expressions

variable {e : Expr} {source : Ty} {target : Conversions.Ty} {i : State → Int} {s : State}

theorem IsInt.isPrimitive (h : IsInt target) : target.isPrimitive = true := by
  rcases h with ⟨w, rfl⟩ | ⟨w, rfl⟩ <;> rfl

variable {ty : Conversions.Ty} {value : Int}

/-- A cast of a literal is a literal. -/
theorem cast_literal (hty : IsInt ty) (hint : IsInt target) (htarget : target.Valid ns.toNamespace) :
    ((Expr.numberLiteral ty value).cast ns target).Has ns (.number target) s
      (wrap (target.bits ns.toNamespace) value) := by
  by_cases heq : ty = target
  · subst heq
    have hcode : Conversions.castLiteralCodegen ns.toNamespace ty value ty = .operand := if_pos rfl
    simp only [Expr.cast, hcode]
    exact ⟨rfl, rfl, rfl⟩
  · have hprimitive := hty.isPrimitive
    rcases hint with ⟨w, rfl⟩ | ⟨w, rfl⟩
    · have hcode : Conversions.castLiteralCodegen ns.toNamespace ty value (.uint w) =
          .numberLiteral (.uint w) (if value < 0 then Conversions.reencode value w else value) := by
        unfold Conversions.castLiteralCodegen
        rw [if_neg heq, hprimitive]
      simp only [Expr.cast, hcode]
      refine ⟨rfl, congrArg some ?_, rfl⟩
      split
      · next hneg =>
        rw [Conversions.reencode_eq hneg htarget.2, wrap]
        exact congrArg Int.toNat (Int.emod_emod ..)
      · rfl
    · have hcode : Conversions.castLiteralCodegen ns.toNamespace ty value (.int w) = .numberLiteral (.int w) value := by
        unfold Conversions.castLiteralCodegen
        rw [if_neg heq, hprimitive]
      simp only [Expr.cast, hcode]
      exact ⟨rfl, rfl, rfl⟩

theorem Expr.Stands.literal_eq (h : (Expr.numberLiteral ty value).Stands ns source i)
    (hsource : source.Valid ns) (s : State) : i s = value := by
  obtain ⟨_, hrange⟩ := h.literal ty value rfl
  obtain rfl := h.ty_eq
  have heval := Option.some.inj (h.eval_eq s)
  rw [← h.read_eq s, ← heval]
  exact Conversions.read_pattern hsource.bits_pos hrange

theorem signExtend_zero (w m : Nat) : Conversions.signExtend w m 0 = 0 := if_pos (Nat.two_pow_pos _)

theorem converting_eq {cast : CastExpr} {value : Tree} {v n : Nat} (hvalue : value s = some v)
    (hcast : cast.eval ns.toNamespace ty v = .value n) : converting ns ty cast value s = some n := by
  simp only [converting, hvalue, Option.bind_eq_bind, Option.bind_some, hcast]

theorem codegenExact_of_kept {base : Conversions.Namespace} {source : Conversions.Ty} {n : Int} {v : Nat}
    (hint : IsInt target) (h : CodegenExact base source target n.toNat) (hread : source.read base v = n) :
    CodegenExact base source target v := by
  cases hsigned : source.isSigned with
  | true =>
    cases source with
    | int w => rcases hint with ⟨m, rfl⟩ | ⟨m, rfl⟩ <;> trivial
    | _ => cases hsigned
  | false =>
    have hv : source.read base v = v := if_neg fun h => Bool.false_ne_true (hsigned.symm.trans h.1)
    rwa [← hread, hv, Int.toNat_natCast] at h

theorem Expr.Stands.cast (h : e.Stands ns source i) (hsource : source.Valid ns) (hint : IsInt target)
    (htarget : target.Valid ns.toNamespace) (hkept : source.Kept ns target (i s)) :
    (e.cast ns target).Has ns (.number target) s (wrap (target.bits ns.toNamespace) (i s)) := by
  have hlt : wrap (source.bits ns) (i s) < 2 ^ source.bits ns := wrap_lt _
  have heval := h.eval_eq s
  have hread := h.read_eq s
  cases e with
  | numberLiteral ty value =>
    rw [h.literal_eq hsource]
    exact cast_literal (h.literal ty value rfl).1 hint htarget
  | boolLiteral value =>
    obtain rfl := h.ty_eq
    have hzero : i s = 0 := hkept
    rw [hzero] at heval ⊢
    have hvalue : value.toNat = 0 := Option.some.inj heval
    refine ⟨rfl, ?_, rfl⟩
    show some (Conversions.signExtend 1 _ value.toNat) = _
    rw [hvalue, signExtend_zero]
    simp [wrap]
  | other ty value =>
    obtain rfl := h.ty_eq
    have heval : value s = some (wrap (ty.bits ns) (i s)) := heval
    cases ty with
    | bool =>
      have hzero : i s = 0 := hkept
      rw [hzero] at heval ⊢
      refine ⟨rfl, ?_, rfl⟩
      show (value s).map _ = _
      rw [heval, Option.map_some]
      simp [wrap, signExtend_zero]
    | number ty =>
      refine ⟨rfl, ?_, rfl⟩
      have hcast := eval_castCodegen hint hsource.1 htarget hlt (codegenExact_of_kept hint hkept hread)
      exact (converting_eq heval hcast).trans (congrArg (fun n => some (wrap _ n)) hread)
    | reference =>
      refine ⟨rfl, ?_, rfl⟩
      show (value s).map _ = _
      have hwrap : i s = (wrap ns.ptrSize (i s) : Nat) := hread.symm
      rw [heval, Option.map_some]
      conv_rhs => rw [hwrap, EvmWord.wrap_natCast]
      rfl

/-- Without a conversion -/
theorem Expr.Stands.has (h : e.toNumberLiteral.Stands ns source i) (s : State) :
    e.toNumberLiteral.Has ns source s (wrap (source.bits ns) (i s)) :=
  ⟨h.ty_eq, h.eval_eq s, toNumberLiteral_idem e⟩

end Expressions

/-! ## Operands -/

/-- The expression of an operand, and what the code makes of it before an operation -/
structure Operand.Lowered (x : Operand ns) (e : Expr) (i : State → Int) : Prop where
  stands : e.Stands ns x.ty i
  operand : e.toNumberLiteral.Stands ns x.operandTy i
  number : (castToNumber ns e).toNumberLiteral.Stands ns x.numberTy i

section Operands

variable {x : Operand ns} {β : Type}

theorem stands_literal {ty : Conversions.Ty} {value : Int} (hint : IsInt ty) (hty : ty.Valid ns.toNamespace)
    (hrange : InRange ns.toNamespace ty value) :
    (Expr.numberLiteral ty value).Stands ns (.number ty) fun _ => value where
  ty_eq := rfl
  eval_eq _ := rfl
  read_eq _ := Conversions.read_pattern hty.bits_pos hrange
  literal := by
    rintro _ _ ⟨⟩
    exact ⟨hint, hrange⟩

theorem stands_value (ty : Ty) {value : Tree} {get : State → Nat} (hget : ∀ s, value s = some (get s))
    (hlt : ∀ s, get s < 2 ^ ty.bits ns) : (Expr.other ty value).Stands ns ty fun s => ty.read ns (get s) where
  ty_eq := rfl
  eval_eq s := by
    rw [wrap_read (hlt s)]
    exact hget s
  read_eq s := by rw [wrap_read (hlt s)]
  literal := by rintro _ _ ⟨⟩

theorem lowered_literal {ty : Conversions.Ty} {value : Int} (h : (Operand.numberLiteral ty value : Operand ns).Typed) :
    (Operand.numberLiteral ty value : Operand ns).Lowered (.numberLiteral ty value) fun _ => value := by
  obtain ⟨⟨hty, -⟩, hint, hrange⟩ := h
  have hstands := stands_literal hint hty hrange
  refine ⟨hstands, hstands, ?_⟩
  rcases hint with ⟨w, rfl⟩ | ⟨w, rfl⟩
  · exact hstands
  · exact hstands

theorem stands_bool (value : Bool) : (Expr.boolLiteral value).Stands ns .bool fun _ => value.toNat where
  ty_eq := rfl
  eval_eq _ := by cases value <;> rfl
  read_eq _ := by cases value <;> rfl
  literal := by rintro _ _ ⟨⟩

theorem lowered_bool (value : Bool) :
    (Operand.boolLiteral value : Operand ns).Lowered (.boolLiteral value) fun _ => value.toNat := by
  have hstands : (Expr.numberLiteral (.uint 256) (if value then 1 else 0)).Stands ns .uint256
      fun _ => value.toNat := by
    have hvalue : (if value then 1 else 0 : Int) = value.toNat := by cases value <;> rfl
    rw [← hvalue]
    refine stands_literal (.inl ⟨_, rfl⟩) ⟨by decide, by decide⟩ ?_
    cases value
    · exact show (0 : Int) ≤ 0 ∧ (0 : Int) < 2 ^ 256 by decide
    · exact show (0 : Int) ≤ 1 ∧ (1 : Int) < 2 ^ 256 by decide
  exact ⟨stands_bool value, hstands, hstands⟩

theorem lowered_code {ty : Ty} {expr : Code (Value ns ty)} (v : Value ns ty) :
    (Operand.code ty expr).Lowered (.other ty fun s => some (v.get s)) fun s => ty.read ns (v.get s) := by
  have hstands := stands_value ty (fun s => rfl) v.lt
  refine ⟨hstands, hstands, ?_⟩
  cases ty with
  | bool => exact hstands
  | reference => exact stands_value (.number (.uint ns.ptrSize)) (fun s => rfl) v.lt
  | number ty =>
    cases ty with
    | address payable =>
      refine stands_value (.number (.uint (ns.addressLength * 8))) (fun s => ?_) v.lt
      exact converting_eq rfl (Conversions.eval_cast.trans (if_pos rfl))
    | _ => exact hstands

/-- The code of an operand is run once, whether for its expression or for its integer. -/
theorem run_operand (hx : x.Typed) {f : Expr → Code α} {k : α → Code β} {k' : (State → Int) → Code β}
    {s : State} (hk : ∀ t e i s', x.integer.run s = ⟨t, some (i, s')⟩ → x.Lowered e i →
      (f e >>= k).run s' = (k' i).run s') :
    ((x.expression ns >>= f) >>= k).run s = (x.integer >>= k').run s := by
  rw [bind_assoc]
  cases x with
  | numberLiteral ty value => exact hk [] _ _ s rfl (lowered_literal hx)
  | boolLiteral value => exact hk [] _ _ s rfl (lowered_bool value)
  | code ty expr =>
    show ((expr >>= fun v => _) >>= _).run s = ((expr >>= fun v => _) >>= k').run s
    rw [bind_assoc, bind_assoc]
    rcases hexpr : expr.run s with ⟨t, _ | ⟨v, s'⟩⟩
    · rw [Logged.run_bind_none hexpr, Logged.run_bind_none hexpr]
    · have hinteger : (Operand.code ty expr).integer.run s = ⟨t, some (fun s => ty.read ns (v.get s), s')⟩ := by
        refine (Logged.run_bind_some hexpr).trans ?_
        rw [Logged.run_pure, List.append_nil]
      rw [Logged.run_bind_some hexpr, Logged.run_bind_some hexpr, pure_bind, pure_bind,
        hk t _ _ s' hinteger (lowered_code v)]

theorem Operand.bits_le (x : Operand ns) : x.ty.bits ns ≤ x.operandTy.bits ns := by
  cases x with
  | boolLiteral value => exact show 1 ≤ 256 by decide
  | _ => exact le_rfl

theorem Operand.Typed.valid (hx : x.Typed) : x.ty.Valid ns ∧ x.operandTy.Valid ns := by
  cases x with
  | numberLiteral ty value => exact ⟨hx.1, hx.1⟩
  | boolLiteral value => exact ⟨trivial, ⟨by decide, by decide⟩, Nat.le_refl 256⟩
  | code ty expr => exact ⟨hx, hx⟩

theorem Operand.Typed.valid_number (hx : x.Typed) : x.numberTy.Valid ns := by
  have hvalid := hx.valid.2
  unfold Operand.numberTy
  split
  · next heq =>
    rw [heq] at hvalid
    exact ⟨⟨hvalid.1, hvalid.2.1⟩, hvalid.2.2⟩
  · next heq =>
    rw [heq] at hvalid
    exact ⟨⟨hvalid.1.bits_pos, Nat.dvd_mul_left 8 _⟩, hvalid.2⟩
  · exact hvalid

end Operands

/-! ## One type for two operands -/

section Equalize

variable {l r : Expr} {left right ty : Ty} {i j : State → Int} {s : State}

theorem equalizeTypes_cases (hl : l.toNumberLiteral.ty = left) (hr : r.toNumberLiteral.ty = right)
    (hcommon : commonTy ns left right = some ty) :
    (left = ty ∧ right = ty ∧ equalizeTypes ns l r = pure (l.toNumberLiteral, r.toNumberLiteral)) ∨
    (left ≠ right ∧ ∃ t, coerceNumber ns left right = some t ∧ ty = .number t ∧
      equalizeTypes ns l r = pure (l.toNumberLiteral.cast ns t, r.toNumberLiteral.cast ns t)) := by
  subst hl hr
  unfold commonTy at hcommon
  split at hcommon
  · next heq =>
    obtain rfl := Option.some.inj hcommon
    exact .inl ⟨rfl, heq.symm, if_pos heq⟩
  · next hne =>
    obtain ⟨t, ht, rfl⟩ := Option.map_eq_some_iff.mp hcommon
    refine .inr ⟨hne, t, ht, rfl, (if_neg hne).trans ?_⟩
    rw [ht]
    rfl

/-- Both operands have the values of their integers at the common type. -/
theorem equalizeTypes_eq (hl : l.toNumberLiteral.Stands ns left i) (hr : r.toNumberLiteral.Stands ns right j)
    (hleft : left.Valid ns) (hright : right.Valid ns) (hcommon : commonTy ns left right = some ty) :
    ∃ l' r', equalizeTypes ns l r = pure (l', r') ∧ ∀ s, KeptBoth ns left right (i s) (j s) →
      l'.Has ns ty s (wrap (ty.bits ns) (i s)) ∧ r'.Has ns ty s (wrap (ty.bits ns) (j s)) := by
  rcases equalizeTypes_cases hl.ty_eq hr.ty_eq hcommon with ⟨rfl, rfl, heq⟩ | ⟨hne, t, ht, rfl, heq⟩
  · exact ⟨_, _, heq, fun s _ => ⟨hl.has s, hr.has s⟩⟩
  · obtain ⟨hint, hvalid, -⟩ := coerceNumber_eq ht hleft hright
    refine ⟨_, _, heq, fun s hkept => ?_⟩
    obtain ⟨hkept, hkept'⟩ := hkept t hne ht
    exact ⟨hl.cast hleft hint hvalid.1 hkept, hr.cast hright hint hvalid.1 hkept'⟩

/-- The same of the right one, whatever the other is -/
theorem equalizeTypes_right (hl : l.toNumberLiteral.ty = left) (hr : r.toNumberLiteral.Stands ns right j)
    (hleft : left.Valid ns) (hright : right.Valid ns) (hcommon : commonTy ns left right = some ty)
    (hkept : ∀ t, left ≠ right → coerceNumber ns left right = some t → right.Kept ns t (j s)) :
    ∃ l' r', equalizeTypes ns l r = pure (l', r') ∧ r'.Has ns ty s (wrap (ty.bits ns) (j s)) := by
  rcases equalizeTypes_cases hl hr.ty_eq hcommon with ⟨rfl, rfl, heq⟩ | ⟨hne, t, ht, rfl, heq⟩
  · exact ⟨_, _, heq, hr.has s⟩
  · obtain ⟨hint, hvalid, -⟩ := coerceNumber_eq ht hleft hright
    exact ⟨_, _, heq, hr.cast hright hint hvalid.1 (hkept t hne ht)⟩

end Equalize

/-! ## Instructions -/

section Instructions

variable {e l r : Expr} {ty : Ty} {s : State} {x y n : Nat} {op : Binary}

/-- What a computation leaves, as a number -/
def valueOf (ns : Namespace) (m : Code Expr) : Code Nat := m >>= fun e => force (e.eval ns)

theorem run_valueOf_pure (h : e.eval ns s = some n) : (valueOf ns (pure e)).run s = ⟨[], some (n, s)⟩ := by
  rw [valueOf, pure_bind]
  exact Logged.run_ask_some h

theorem eval_instruction {instr : Instruction} (hl : l.Has ns ty s x) (hr : r.Has ns ty s y) (result : Ty) :
    (instruction ns instr result l r).eval ns s =
      instr.eval (BitVec.ofNat (ty.bits ns) x) (BitVec.ofNat (ty.bits ns) y) := by
  show (l.eval ns s >>= fun x => r.eval ns s >>= fun y => _) = _
  rw [hl.eval_eq, hr.eval_eq, hl.ty_eq]
  rfl

theorem Expr.Has.instruction {instr : Instruction} (hl : l.Has ns ty s x) (hr : r.Has ns ty s y) (result : Ty)
    (h : instr.eval (BitVec.ofNat (ty.bits ns) x) (BitVec.ofNat (ty.bits ns) y) = some n) :
    (instruction ns instr result l r).Has ns result s n :=
  ⟨rfl, (eval_instruction hl hr result).trans h, rfl⟩

theorem run_instruction {instr : Instruction} (hl : l.Has ns ty s x) (hr : r.Has ns ty s y) (result : Ty)
    (h : instr.eval (BitVec.ofNat (ty.bits ns) x) (BitVec.ofNat (ty.bits ns) y) = some n) :
    (valueOf ns (pure (instruction ns instr result l r))).run s = ⟨[], some (n, s)⟩ :=
  run_valueOf_pure ((eval_instruction hl hr result).trans h)

theorem run_setTemp (hbits : e.ty.bits ns = 256) (h : e.eval ns s = some n) :
    (valueOf ns (setTemp ns e)).run s = ⟨[], some (n, s)⟩ := by
  have hforce : (fun s => if e.ty.bits ns = 256 then e.eval ns s else none) s = some n := (if_pos hbits).trans h
  rw [valueOf, setTemp, bind_assoc, force,
    Logged.run_ask_bind (f := fun s => if e.ty.bits ns = 256 then e.eval ns s else none) hforce]
  rfl

theorem run_setTemp_zero : (valueOf ns (setTemp ns (.numberLiteral (.uint 256) 0))).run s = ⟨[], some (0, s)⟩ :=
  run_setTemp rfl rfl

theorem run_branchIfZero {v : Nat} (hv : r.eval ns s = some v) (hzero : v = 0 → n = 0)
    (hne : v ≠ 0 → e.ty.bits ns = 256 ∧ e.eval ns s = some n) :
    (valueOf ns (branchIfZero ns r e)).run s = ⟨[], some (n, s)⟩ := by
  rw [valueOf, branchIfZero, bind_assoc, force, Logged.run_ask_bind hv]
  split
  · next h =>
    rw [hzero h]
    exact run_setTemp_zero
  · next h => exact run_setTemp (hne h).1 (hne h).2

/-- An instruction that is branched around where the divisor is zero -/
theorem run_division {instr : Instruction} (hl : l.Has ns ty s x) (hr : r.Has ns ty s y) (hbits : ty.bits ns = 256)
    (hzero : y = 0 → n = 0)
    (h : y ≠ 0 → instr.eval (BitVec.ofNat (ty.bits ns) x) (BitVec.ofNat (ty.bits ns) y) = some n) :
    (valueOf ns (branchIfZero ns r (instruction ns instr l.ty l r))).run s = ⟨[], some (n, s)⟩ := by
  refine run_branchIfZero hr.eval_eq hzero fun hne => ⟨?_, (eval_instruction hl hr l.ty).trans (h hne)⟩
  show l.ty.bits ns = 256
  rw [hl.ty_eq, hbits]

theorem run_binary (hl : l.Has ns ty s x) (hr : r.Has ns ty s y) (hpos : 0 < ty.bits ns) (hx : x < 2 ^ ty.bits ns)
    (hy : y < 2 ^ ty.bits ns) (hdivides : divides op → ty.bits ns = 256) (hshifts : shifts op → x < ty.bits ns) :
    (valueOf ns (binary ns op l r)).run s = ⟨[], some (op.eval (ty.bits ns) x y, s)⟩ := by
  cases op with
  | add => exact run_instruction hl hr _ (EvmWord.eval_add hx hy)
  | sub => exact run_instruction hl hr _ (EvmWord.eval_sub hx hy)
  | mul => exact run_instruction hl hr _ (EvmWord.eval_mul hx hy)
  | div =>
    exact run_division hl hr (hdivides (.inl rfl)) (fun h => if_pos h) fun hne => EvmWord.eval_div hx hy hne
  | sdiv =>
    exact run_division hl hr (hdivides (.inr (.inl rfl))) (fun h => if_pos h) fun hne => EvmWord.eval_sdiv hx hy hne
  | mod =>
    exact run_division hl hr (hdivides (.inr (.inr (.inl rfl)))) (fun h => if_pos h)
      fun hne => EvmWord.eval_mod hx hy hne
  | smod =>
    exact run_division hl hr (hdivides (.inr (.inr (.inr rfl)))) (fun h => if_pos h)
      fun hne => EvmWord.eval_smod hx hy hne
  | exp => exact run_instruction hl hr _ (EvmWord.eval_exp hpos hx hy)
  | lt => exact run_instruction hl hr _ (EvmWord.eval_less hx hy)
  | gt => exact run_instruction hl hr _ (EvmWord.eval_more hx hy)
  | slt => exact run_instruction hl hr _ (EvmWord.eval_less_signed hx hy)
  | sgt => exact run_instruction hl hr _ (EvmWord.eval_more_signed hx hy)
  | eq => exact run_instruction hl hr _ (EvmWord.eval_equal hx hy)
  | and => exact run_instruction hl hr _ (EvmWord.eval_and hx hy)
  | or => exact run_instruction hl hr _ (EvmWord.eval_or hx hy)
  | xor => exact run_instruction hl hr _ (EvmWord.eval_xor hx hy)
  | shl => exact run_instruction hr hl _ (EvmWord.eval_shl (hshifts (.inl rfl)) hy)
  | shr => exact run_instruction hr hl _ (EvmWord.eval_shr (hshifts (.inr (.inl rfl))) hy)
  | sar => exact run_instruction hr hl _ (EvmWord.eval_sar (hshifts (.inr (.inr rfl))) hy)

end Instructions

/-! ## The builtins -/

section Builtins

variable {e l r : Expr} {x : Operand ns} {i j : State → Int} {s : State} {ty : Ty} {w n m : Nat}

theorem run_not (h : e.Stands ns ty i) (hint : ty.isInteger = true) :
    (valueOf ns (pure (bitwiseNot ns e))).run s =
      ⟨[], some (EvmWord.not (ty.bits ns) (wrap (ty.bits ns) (i s)), s)⟩ := by
  refine run_valueOf_pure ?_
  show (e.eval ns s >>= fun x => _) = _
  rw [h.eval_eq, h.ty_eq]
  show (if ty.isInteger = true then some _ else none) = _
  rw [if_pos hint, EvmWord.toNat_not (wrap_lt _)]

theorem run_isZero (h : e.Stands ns ty i) (hne : ty ≠ .reference) :
    (valueOf ns (pure (equalZero ns e))).run s = ⟨[], some (EvmWord.isZero (wrap (ty.bits ns) (i s)), s)⟩ := by
  refine run_valueOf_pure ?_
  show (e.eval ns s >>= fun x => _) = _
  rw [h.eval_eq, h.ty_eq]
  exact if_neg hne

theorem eval_modular {op : Ternary} {a b : Nat} (hl : l.eval ns s = some a) (hr : r.eval ns s = some b)
    (he : e.eval ns s = some m) (ha : a < 2 ^ 256) (hb : b < 2 ^ 256) (hm : m < 2 ^ 256) (hne : m ≠ 0) :
    (modular ns op r l e).eval ns s = some (op.eval a b m) := by
  have hzero : BitVec.ofNat 512 m ≠ 0 := by
    rw [Ne, EvmWord.ofNat_eq_zero_iff (hm.trans (Nat.pow_lt_pow_right (by decide) (by decide)))]
    exact hne
  show (r.eval ns s >>= fun x => l.eval ns s >>= fun y => e.eval ns s >>= fun k => _) = _
  rw [hl, hr, he, ← EvmWord.Ternary.eval_wide ha hb hm hne (by decide)]
  exact if_neg hzero

/-- A wider word of an integer that is not negative is the same number. -/
theorem Expr.Stands.wrap_eq (h : e.Stands ns ty i) (hsigned : ty.isSigned = false) (hle : ty.bits ns ≤ w) (s : State) :
    wrap w (i s) = wrap (ty.bits ns) (i s) := by
  have hi := h.read_eq s
  rw [read_unsigned hsigned] at hi
  have hlt : wrap (ty.bits ns) (i s) < 2 ^ w := (wrap_lt _).trans_le (Nat.pow_le_pow_right (by decide) hle)
  conv_lhs => rw [← hi, EvmWord.wrap_natCast, Nat.mod_eq_of_lt hlt]

/-- A word is zero where the integer is. -/
theorem Expr.Stands.wrap_eq_zero (h : e.Stands ns ty i) (hle : ty.bits ns ≤ w) (s : State) :
    wrap (ty.bits ns) (i s) = 0 ↔ wrap w (i s) = 0 := by
  constructor
  · intro hzero
    have hi := h.read_eq s
    rw [hzero, read_zero] at hi
    rw [← hi, EvmWord.wrap_eq_zero_iff]
    exact dvd_zero _
  · intro hzero
    exact EvmWord.wrap_eq_zero_iff.mpr ((pow_dvd_pow 2 hle).trans (EvmWord.wrap_eq_zero_iff.mp hzero))

theorem run_division_modular {op : Ternary} {k : Expr} {t t' : Ty} {a b : Nat} (hl : l.Has ns t s a)
    (hr : r.Has ns t s b) (he : e.Stands ns ty i) (hk : k.Has ns t' s (wrap (t'.bits ns) (i s)))
    (hle : ty.bits ns ≤ t'.bits ns) (ht : t.bits ns ≤ 256) (ht' : t'.bits ns ≤ 256) (ha : a < 2 ^ t.bits ns)
    (hb : b < 2 ^ t.bits ns) :
    (valueOf ns (branchIfZero ns e (modular ns op r l k))).run s =
      ⟨[], some (op.eval a b (wrap (t'.bits ns) (i s)), s)⟩ := by
  have hiff := he.wrap_eq_zero hle s
  refine run_branchIfZero (he.eval_eq s) (fun hzero => ?_) fun hne => ⟨rfl, ?_⟩
  · rw [hiff.mp hzero]
    cases op with
    | _ => rfl
  · have hwide {c w : Nat} (hw : w ≤ 256) (hc : c < 2 ^ w) : c < 2 ^ 256 :=
      hc.trans_le (Nat.pow_le_pow_right (by decide) hw)
    exact eval_modular hl.eval_eq hr.eval_eq hk.eval_eq (hwide ht ha) (hwide ht hb) (hwide ht' (wrap_lt _))
      (mt hiff.mpr hne)

/-- The byte that is left of a shift and a mask -/
theorem run_byte {o arg : Expr} {a b : Nat} (ho : o.Has ns .uint256 s a) (harg : arg.Has ns .uint256 s b) (ha : a < 32)
    (hb : b < 2 ^ 256) :
    (valueOf ns (setTemp ns (instruction ns .bitwiseAnd .uint256
      (instruction ns (.shiftRight false) .uint256 arg
        (instruction ns .shiftLeft .uint256
          (.other .uint256 fun s => do
            let n ← o.eval ns s
            if n ≤ 31 then some (31 - n) else none)
          (.numberLiteral (.uint 256) 3)))
      (.numberLiteral (.uint 256) 255)))).run s = ⟨[], some (EvmWord.byte a b, s)⟩ := by
  have hsub : (Expr.other .uint256 fun s => do
      let n ← o.eval ns s
      if n ≤ 31 then some (31 - n) else none).Has ns .uint256 s (31 - a) := by
    refine ⟨rfl, ?_, rfl⟩
    show (o.eval ns s >>= fun n => _) = _
    rw [ho.eval_eq]
    exact if_pos (by omega)
  have hthree : (Expr.numberLiteral (.uint 256) 3).Has ns .uint256 s 3 := ⟨rfl, rfl, rfl⟩
  have hmask : (Expr.numberLiteral (.uint 256) 255).Has ns .uint256 s 255 := ⟨rfl, rfl, rfl⟩
  have hplaces : Binary.shl.eval 256 3 (31 - a) < 256 := by
    rw [EvmWord.shl_three ha]
    omega
  have hshl := hsub.instruction hthree .uint256
    (EvmWord.eval_shl (w := 256) (by decide) ((Nat.sub_le 31 a).trans_lt (by decide)))
  have hshr := harg.instruction hshl .uint256 (EvmWord.eval_shr (w := 256) hplaces hb)
  have hlt : Binary.shr.eval 256 (Binary.shl.eval 256 3 (31 - a)) b < 2 ^ 256 := (Nat.div_le_self ..).trans_lt hb
  have hand := hshr.instruction hmask .uint256 (EvmWord.eval_and (w := 256) hlt (by decide))
  rw [EvmWord.byte_eq ha] at hand
  exact run_setTemp rfl hand.eval_eq

end Builtins

namespace Sample

def polkadot : Namespace where
  addressLength := 32
  valueLength := 16
  enumValues _ := 0
  ptrSize := 32

/-- A variable of the type `uint8` -/
def uint8 (varNo : Nat) : Operand polkadot :=
  .code (.number (.uint 8)) (pure ⟨fun s => s (.variable varNo) % 256, fun _ => Nat.mod_lt _ (by decide)⟩)

def state : State
  | .variable 0 => 200
  | .variable 1 => 100
  | _ => 0

/-- The integers of the operands as words of the EVM -/
def evmResult (op : Binary) (left right : Operand polkadot) : Code Nat := do
  let x ← left.integer
  let y ← right.integer
  .ask fun s => some (op.eval 256 (wrap 256 (x s)) (wrap 256 (y s)))

end Sample

end Solang.Codegen.Evaluation.Yul
