import Solang.Codegen.StrengthReduce.Elements
import Solang.Codegen.StrengthReduce.Rewrites

/-!
# Where the cheaper expression has the same value

An expression that is rewritten has the value it had, if and only if the rewrite agrees for the values of its
operands.
-/

namespace Solang.Codegen.StrengthReduce

/-! ## Expressions that are rewritten -/

/-- The operation of an expression, its type and its operands -/
def operation : Expression → Option (Operation × Ty × Expression × Expression)
  | .binary (.multiply ty overflowing) left right => some (.multiply overflowing, ty, left, right)
  | .binary (.unsignedDivide ty) left right => some (.divide, ty, left, right)
  | .binary (.signedDivide ty) left right => some (.divide, ty, left, right)
  | .binary (.unsignedModulo ty) left right => some (.modulo, ty, left, right)
  | .binary (.signedModulo ty) left right => some (.modulo, ty, left, right)
  | _ => none

def IsInteger : Ty → Prop
  | .int _ | .uint _ | .value => True
  | _ => False

theorem integer_cases {ty : Ty} (h : IsInteger ty) :
    (∃ n, ty = .int n) ∨ (∃ n, ty = .uint n) ∨ ty = .value := by
  cases ty <;> simp_all [IsInteger]

section Reduce

variable (ns : Namespace) (order : List Value → List Value) (vars : Variables) (env : Env)

/-- The operands have the type of the expression, an integer type, and its signs are those of the
operation. -/
def Typed (e : Expression) : Prop :=
  ∀ o ty left right, operation e = some (o, ty, left, right) →
    IsInteger ty ∧ left.ty = ty ∧ right.ty = ty ∧ e = .binary (o.op (ty.isSignedInt ns) ty) left right

/-- The rewrite of an operation -/
def Operation.rewrite : Operation → Ty → Expression → Expression → Rewrite
  | multiply overflowing => multiplyRewrite ns order vars overflowing
  | divide => divideRewrite ns order vars
  | modulo => moduloRewrite ns order vars

/-- The operands have values for which the value sets can be trusted. -/
def Trusted (e : Expression) : Prop :=
  ∀ o ty left right x y, operation e = some (o, ty, left, right) → left.eval ns env = some x →
    right.eval ns env = some y → o.Trusts x y (o.rewrite ns order vars ty left right)

/-- The rewrite of this expression agrees for the values of its operands. -/
def Keeps (e : Expression) : Prop :=
  ∀ o ty left right, operation e = some (o, ty, left, right) →
    o.Keeps ns ty (left.eval ns env) (right.eval ns env) (o.rewrite ns order vars ty left right)

end Reduce

variable {ns : Namespace} {order : List Value → List Value} {vars : Variables} {env : Env} {ty : Ty}
  {left right e : Expression} {x y : Int} {o : Operation} {r : Rewrite}

/-! ## What a rewrite says -/

variable {cmp shift v : Int} {target : Ty} {a b : Option Int}

theorem findPower_spec {n : Nat} {right c k : Int} {s : Nat}
    (h : findPower right n cmp shift = some (c, k)) (hcmp : cmp = 2 ^ s) (hshift : shift = s) :
    c = right ∧ ∃ j : Nat, j < s + n ∧ c = 2 ^ j ∧ k = j := by
  induction n generalizing cmp shift s with
  | zero => cases h
  | succ n ih =>
    simp only [findPower] at h
    split at h
    next heq =>
      cases h
      exact ⟨heq, s, by omega, hcmp, hshift⟩
    next =>
      obtain ⟨heq, j, hj, hc, hk⟩ := ih (s := s + 1) h (by rw [hcmp, pow_succ]) (by rw [hshift]; rfl)
      exact ⟨heq, j, by omega, hc, hk⟩

/-- The rewrite is one of the type and of these value sets. -/
def Rewrite.Suits (ns : Namespace) (ty : Ty) (fitsUnsigned : Nat → Nat → Bool)
    (leftValues rightValues : List Value) : Rewrite → Prop
  | keep => True
  | power cmp shift => 128 ≤ ty.bits ns ∧ isSingleConstant rightValues = some cmp ∧
      ∃ j : Nat, j < ty.bits ns ∧ cmp = 2 ^ j ∧ shift = j
  | int64 => 128 ≤ ty.bits ns ∧ ty.isSignedInt ns = true
  | uint64 => 128 ≤ ty.bits ns ∧ ty.isSignedInt ns = false ∧
      fitsUnsigned (getMaxUnsigned leftValues) (getMaxUnsigned rightValues) = true

theorem suits_rewrite {usePower : Bool} {fitsSigned : Int → Int → Bool}
    {fitsUnsigned : Nat → Nat → Bool} (s : Nat) (hs : s ≤ 1) (hcmp : cmp = 2 ^ s)
    (hshift : shift = s) :
    (rewrite ns order vars usePower cmp shift fitsSigned fitsUnsigned ty left right).Suits ns ty fitsUnsigned
      (expressionValues ns order vars left) (expressionValues ns order vars right) := by
  simp only [rewrite]
  by_cases hbits : 128 ≤ ty.bits ns
  · rw [if_pos hbits]
    split
    next c k hpower =>
      cases usePower with
      | false => cases hpower
      | true =>
        obtain ⟨v, hconst, hfind⟩ := Option.bind_eq_some_iff.mp hpower
        obtain ⟨rfl, j, hj, hc, hk⟩ := findPower_spec hfind hcmp hshift
        exact ⟨hbits, hconst, j, by omega, hc, hk⟩
    next =>
      cases hsigned : ty.isSignedInt ns with
      | true =>
        rw [if_pos rfl]
        split
        next =>
          split
          next => exact ⟨hbits, hsigned⟩
          next => trivial
        next => trivial
      | false =>
        rw [if_neg Bool.false_ne_true]
        split
        next hfits => exact ⟨hbits, hsigned, hfits⟩
        next => trivial
  · rw [if_neg hbits]
    trivial

/-- When the operation is one of 64 bits without signs -/
def Operation.fitsUnsigned : Operation → Nat → Nat → Bool
  | multiply _ => fun l r => l * r ≤ 2 ^ 64 - 1
  | _ => fun l r => fitsUint64 l && fitsUint64 r

theorem Operation.suits (o : Operation) : (o.rewrite ns order vars ty left right).Suits ns ty o.fitsUnsigned
    (expressionValues ns order vars left) (expressionValues ns order vars right) := by
  cases o with
  | multiply overflowing =>
    simp only [Operation.rewrite, multiplyRewrite]
    exact suits_rewrite 1 le_rfl rfl rfl
  | divide =>
    simp only [Operation.rewrite, divideRewrite]
    exact suits_rewrite 1 le_rfl rfl rfl
  | modulo =>
    simp only [Operation.rewrite, moduloRewrite]
    exact suits_rewrite 0 (Nat.zero_le _) rfl rfl

/-! ## Values of the operands -/

theorem eval_resize {extend : UnaryOp} {width targetWidth : Nat} (h : targetWidth < width) :
    (e.resize extend width target targetWidth).eval ns env =
      (e.eval ns env).map (target.wrap ns) := by
  unfold Expression.resize
  rw [if_pos h]
  rfl

theorem eval_cast (htarget : target = .int 64 ∨ target = .uint 64) (hint : IsInteger e.ty)
    (hbits : 128 ≤ e.ty.bits ns) :
    (e.cast ns target).eval ns env = (e.eval ns env).map (target.wrap ns) := by
  have h64 : target.bits ns = 64 := by
    obtain rfl | rfl := htarget
    · rfl
    · rfl
  have hne : e.ty ≠ target := by
    intro heq
    rw [heq, h64] at hbits
    omega
  unfold Expression.cast
  rw [if_neg hne]
  split
  next ty v n heq =>
    show some (Ty.wrap ns (.uint n) _) = some (Ty.wrap ns (.uint n) (ty.wrap ns v))
    rw [wrap_narrow (h64 ▸ (by omega : 64 ≤ 128).trans hbits)]
    obtain rfl : n = 64 := h64
    split
    next => exact congrArg some (Int.emod_emod_of_dvd v (Int.dvd_refl _))
    next => rfl
  next ty v n heq =>
    show some (Ty.wrap ns (.int n) v) = some (Ty.wrap ns (.int n) (ty.wrap ns v))
    rw [wrap_narrow (h64 ▸ (by omega : 64 ≤ 128).trans hbits)]
  next =>
    split
    case h_7 =>
      obtain ⟨n, hty⟩ | ⟨n, hty⟩ | hty := integer_cases hint
      all_goals obtain rfl | rfl := htarget
      all_goals simp_all
    all_goals
      refine eval_resize ?_
      simp_all [Ty.bits]
      omega

theorem wrap_of_apply {op : BinaryOp} {operand : Ty} (hint : IsInteger op.ty)
    (h : op.apply ns operand x y = some v) : op.ty.wrap ns v = v := by
  cases op <;> simp only [BinaryOp.apply, BinaryOp.ty, IsInteger, Option.ite_none_left_eq_some,
    Option.some.injEq, reduceCtorEq] at h hint ⊢
  all_goals first
    | (obtain rfl := h; exact wrap_wrap _ _ _)
    | (obtain ⟨-, rfl⟩ := h; exact wrap_wrap _ _ _)

/-- The value of an expression is one of its type. -/
theorem wrap_of_eval (hint : IsInteger e.ty) (h : e.eval ns env = some x) : e.ty.wrap ns x = x := by
  cases e with
  | boolLiteral b => cases hint
  | binary op left right =>
    cases hop : op.onIntegers with
    | true =>
      rw [eval_binary hop] at h
      obtain ⟨a, -, h⟩ := Option.bind_eq_some_iff.mp h
      obtain ⟨b, -, h⟩ := Option.bind_eq_some_iff.mp h
      exact wrap_of_apply hint h
    | false =>
      cases op <;> cases hop
      all_goals
        cases h
        exact wrap_wrap _ _ _
  | unary op expr =>
    cases op <;> simp only [Expression.eval, Option.map_eq_some_iff, Option.some.injEq] at h
    all_goals first
      | exact hint.elim
      | (obtain rfl := h; exact wrap_wrap _ _ _)
      | (obtain ⟨a, -, rfl⟩ := h; exact wrap_wrap _ _ _)
  | _ =>
    cases h
    exact wrap_wrap _ _ _

/-! ## The filter -/

theorem filter_eq (h : operation e = some (o, ty, left, right)) :
    filter ns order vars e =
      match o.rewrite ns order vars ty left right with
      | .keep => e
      | .power cmp shift =>
        .binary (o.powerOp (ty.isSignedInt ns) ty) left (.numberLiteral ty (o.powerLiteral cmp shift))
      | .int64 => narrowed ns (.signExt ty) o.int64Op (.int 64) left right
      | .uint64 => narrowed ns (.zeroExt ty) o.uint64Op (.uint 64) left right := by
  unfold operation at h
  split at h <;> cases h
  all_goals rfl

theorem filter_of_none (h : operation e = none) : filter ns order vars e = e := by
  unfold filter
  split <;> first | rfl | cases h

theorem filter_ty : (filter ns order vars e).ty = e.ty := by
  cases h : operation e with
  | none => rw [filter_of_none h]
  | some p =>
    obtain ⟨o, ty, left, right⟩ := p
    have hty : e.ty = ty := by
      unfold operation at h
      split at h <;> cases h
      all_goals rfl
    rw [filter_eq h, hty]
    split
    next => exact hty
    next => cases o <;> rfl
    next => rfl
    next => rfl

theorem eval_operation (o : Operation) (signed : Bool) :
    (Expression.binary (o.op signed ty) left right).eval ns env =
      (left.eval ns env).bind fun x => (right.eval ns env).bind fun y =>
        (o.op signed ty).apply ns left.ty x y := by
  refine eval_binary ?_
  cases o <;> cases signed <;> rfl

section Narrow

variable (hleft : IsInteger left.ty) (hright : IsInteger right.ty) (hlbits : 128 ≤ left.ty.bits ns)
  (hrbits : 128 ≤ right.ty.bits ns)

include hleft hright hlbits hrbits

theorem eval_int64 (o : Operation) :
    (narrowed ns (.signExt ty) o.int64Op (.int 64) left right).eval ns env =
      (left.eval ns env).bind fun x => (right.eval ns env).bind fun y => o.int64Value ns ty x y := by
  have hop : o.int64Op.onIntegers = true := by cases o <;> rfl
  have hty : o.int64Op.ty = .int 64 := by cases o <;> rfl
  have hoperand : ∀ operand a b, o.int64Op.apply ns operand a b = o.int64Op.apply ns (.int 64) a b := by
    intro operand a b
    cases o <;> rfl
  show Option.map (fun v => ty.wrap ns (v.bmod (2 ^ o.int64Op.ty.bits ns))) (Expression.eval ns env _) = _
  rw [eval_binary hop, eval_cast (.inl rfl) hleft hlbits, eval_cast (.inl rfl) hright hrbits,
    hty]
  cases left.eval ns env with
  | none => rfl
  | some x =>
    cases right.eval ns env with
    | none => rfl
    | some y => exact congrArg (Option.map _) (hoperand _ _ _)

theorem eval_uint64 (o : Operation) :
    (narrowed ns (.zeroExt ty) o.uint64Op (.uint 64) left right).eval ns env =
      (left.eval ns env).bind fun x => (right.eval ns env).bind fun y => o.uint64Value ns ty x y := by
  have hop : o.uint64Op.onIntegers = true := by cases o <;> rfl
  have hty : o.uint64Op.ty = .uint 64 := by cases o <;> rfl
  have hoperand : ∀ operand a b, o.uint64Op.apply ns operand a b = o.uint64Op.apply ns (.uint 64) a b := by
    intro operand a b
    cases o <;> rfl
  show Option.map (fun v => ty.wrap ns (pattern (o.uint64Op.ty.bits ns) v)) (Expression.eval ns env _) = _
  rw [eval_binary hop, eval_cast (.inr rfl) hleft hlbits, eval_cast (.inr rfl) hright hrbits,
    hty]
  cases left.eval ns env with
  | none => rfl
  | some x =>
    cases right.eval ns env with
    | none => rfl
    | some y => exact congrArg (Option.map _) (hoperand _ _ _)

end Narrow

theorem eval_power (o : Operation) {signed : Bool} :
    (Expression.binary (o.powerOp signed ty) left (.numberLiteral ty v)).eval ns env =
      (left.eval ns env).bind fun x => (o.powerOp signed ty).apply ns left.ty x (ty.wrap ns v) := by
  have hop : (o.powerOp signed ty).onIntegers = true := by cases o <;> rfl
  rw [eval_binary hop]
  rfl

/-! ## Values -/

theorem bind_eq_bind_iff {f g : Int → Int → Option Int} :
    ((a.bind fun x => b.bind (f x)) = a.bind fun x => b.bind (g x)) ↔
      ∀ x y, a = some x → b = some y → f x y = g x y := by
  cases a <;> cases b <;> simp

theorem keeps_iff_of_not_drops (h : r.drops = false) :
    o.Keeps ns ty a b r ↔ ∀ x y, a = some x → b = some y → o.Agrees ns ty x y r := by
  constructor
  · intro hkeeps x y ha hb
    exact (hkeeps x ha).1 y hb
  · intro hagrees x ha
    refine ⟨fun y => hagrees x y ha, fun hdrops => ?_⟩
    cases h.symm.trans hdrops

section Rewrites

variable (hint : IsInteger ty) (hl : left.ty = ty) (hr : right.ty = ty)

include hint hl hr

theorem power_keeps_iff {j : Nat} (hj : j < ty.bits ns)
    (htrust : ∀ x y, left.eval ns env = some x → right.eval ns env = some y → y = 2 ^ j) :
    (Expression.binary (o.powerOp (ty.isSignedInt ns) ty) left
        (.numberLiteral ty (o.powerLiteral (2 ^ j) j))).eval ns env =
      (Expression.binary (o.op (ty.isSignedInt ns) ty) left right).eval ns env ↔
        o.Keeps ns ty (left.eval ns env) (right.eval ns env) (.power (2 ^ j) j) := by
  rw [eval_power, eval_operation]
  cases hx : left.eval ns env with
  | none => exact iff_of_true rfl nofun
  | some x =>
    cases hy : right.eval ns env with
    | none =>
      refine iff_of_false ?_ fun hkeeps => ?_
      · cases o <;> exact Option.some_ne_none _
      · cases (hkeeps x rfl).2 rfl
    | some y =>
      obtain rfl := htrust x y hx hy
      have hwx := wrap_of_eval (hl ▸ hint) hx
      have hwy := wrap_of_eval (hr ▸ hint) hy
      rw [hl] at hwx
      rw [hr] at hwy
      refine (power_iff o hj hwx hwy).trans ?_
      constructor
      · intro hagrees a ha
        cases ha
        refine ⟨fun b hb => ?_, fun _ => rfl⟩
        cases hb
        exact hagrees
      · intro hkeeps
        exact (hkeeps x rfl).1 _ rfl

theorem int64_keeps_iff (hbits : 128 ≤ ty.bits ns) (hsigned : ty.isSignedInt ns = true)
    (htrust : ∀ x y, left.eval ns env = some x → right.eval ns env = some y → o.Trusts x y .int64) :
    (narrowed ns (.signExt ty) o.int64Op (.int 64) left right).eval ns env =
      (Expression.binary (o.op true ty) left right).eval ns env ↔
        o.Keeps ns ty (left.eval ns env) (right.eval ns env) .int64 := by
  rw [eval_int64 (hl ▸ hint) (hr ▸ hint) (hl ▸ hbits) (hr ▸ hbits), eval_operation, bind_eq_bind_iff,
    keeps_iff_of_not_drops rfl]
  exact forall₄_congr fun x y hx hy => int64_iff hbits o hsigned (htrust x y hx hy)

theorem uint64_keeps_iff (hbits : 128 ≤ ty.bits ns) (hsigned : ty.isSignedInt ns = false)
    (htrust : ∀ x y, left.eval ns env = some x → right.eval ns env = some y → o.Trusts x y .uint64) :
    (narrowed ns (.zeroExt ty) o.uint64Op (.uint 64) left right).eval ns env =
      (Expression.binary (o.op false ty) left right).eval ns env ↔
        o.Keeps ns ty (left.eval ns env) (right.eval ns env) .uint64 := by
  have hnonneg : ∀ e : Expression, ∀ v, e.ty = ty → e.eval ns env = some v → 0 ≤ v := by
    intro e v hty hv
    have hwrap := wrap_of_eval (hty ▸ hint) hv
    rw [hty, wrap_unsigned hsigned] at hwrap
    rw [← hwrap]
    exact Int.emod_nonneg v (by positivity)
  rw [eval_uint64 (hl ▸ hint) (hr ▸ hint) (hl ▸ hbits) (hr ▸ hbits), eval_operation, bind_eq_bind_iff,
    keeps_iff_of_not_drops rfl]
  exact forall₄_congr fun x y hx hy =>
    uint64_iff hbits o hsigned (hnonneg left x hl hx) (hnonneg right y hr hy) (htrust x y hx hy)

end Rewrites

/-- The filter keeps the value of an expression, if and only if its rewrite agrees. -/
theorem filter_iff (htyped : Typed ns e) (htrusted : Trusted ns order vars env e) :
    (filter ns order vars e).eval ns env = e.eval ns env ↔ Keeps ns order vars env e := by
  cases h : operation e with
  | none =>
    rw [filter_of_none h]
    refine iff_of_true rfl ?_
    intro o ty left right heq
    cases h.symm.trans heq
  | some p =>
    obtain ⟨o, ty, left, right⟩ := p
    obtain ⟨hint, hl, hr, he⟩ := htyped o ty left right h
    have hkeeps : Keeps ns order vars env e ↔ o.Keeps ns ty (left.eval ns env) (right.eval ns env)
        (o.rewrite ns order vars ty left right) := by
      refine ⟨fun hk => hk o ty left right h, fun hk o' ty' left' right' h' => ?_⟩
      cases h.symm.trans h'
      exact hk
    have htrust := htrusted o ty left right
    have hsuits : (o.rewrite ns order vars ty left right).Suits ns ty o.fitsUnsigned
        (expressionValues ns order vars left) (expressionValues ns order vars right) := o.suits
    rw [hkeeps, filter_eq h]
    generalize o.rewrite ns order vars ty left right = r at hkeeps htrust hsuits ⊢
    cases r with
    | keep =>
      refine iff_of_true rfl ((keeps_iff_of_not_drops rfl).mpr fun x y _ _ => ?_)
      cases o <;> trivial
    | power cmp shift =>
      obtain ⟨-, -, j, hj, rfl, rfl⟩ := hsuits
      have hpower : ∀ x y, left.eval ns env = some x → right.eval ns env = some y → y = 2 ^ j := by
        intro x y hx hy
        have hy := htrust x y h hx hy
        cases o <;> exact hy
      rw [he]
      exact power_keeps_iff hint hl hr hj hpower
    | int64 =>
      obtain ⟨hbits, hsigned⟩ := hsuits
      rw [he, hsigned]
      exact int64_keeps_iff hint hl hr hbits hsigned fun x y => htrust x y h
    | uint64 =>
      obtain ⟨hbits, hsigned, -⟩ := hsuits
      rw [he, hsigned]
      exact uint64_keeps_iff hint hl hr hbits hsigned fun x y => htrust x y h

/-! ## `expression_reduce` -/

/-- The operands that go through the filter -/
def filtered : Expression → List Expression
  | .binary (.multiply _ _) left right => [left, right]
  | .binary (.unsignedDivide _) left right => [left, right]
  | .binary (.signedDivide _) left right => [left, right]
  | _ => []

theorem operation_op (o : Operation) (signed : Bool) :
    operation (.binary (o.op signed ty) left right) = some (o, ty, left, right) := by
  cases o <;> cases signed <;> rfl

theorem typed_op (o : Operation) (hint : IsInteger ty) (hl : left.ty = ty) (hr : right.ty = ty) :
    Typed ns (.binary (o.op (ty.isSignedInt ns) ty) left right) := by
  intro o' ty' left' right' h
  cases (operation_op o _).symm.trans h
  exact ⟨hint, hl, hr, rfl⟩

/-- The operands go through the filter, or none does. -/
theorem copyOperands_op (o : Operation) (signed : Bool) (ty : Ty) (left right : Expression)
    (filter : Expression → Expression) :
    (Expression.binary (o.op signed ty) left right).copyOperands filter =
        .binary (o.op signed ty) (filter left) (filter right) ∧
      filtered (.binary (o.op signed ty) left right) = [left, right] ∨
    (Expression.binary (o.op signed ty) left right).copyOperands filter =
        .binary (o.op signed ty) left right := by
  cases o with
  | modulo => cases signed <;> exact .inr rfl
  | multiply overflowing => exact .inl ⟨rfl, rfl⟩
  | divide => cases signed <;> exact .inl ⟨rfl, rfl⟩

/-- The expression whose operands went through the filter -/
theorem copyOperands_spec (h : operation e = some (o, ty, left, right)) (htyped : Typed ns e)
    (hkeep : ∀ d ∈ filtered e, (filter ns order vars d).eval ns env = d.eval ns env) :
    Typed ns (e.copyOperands (filter ns order vars)) ∧
      (e.copyOperands (filter ns order vars)).eval ns env = e.eval ns env := by
  obtain ⟨hint, hl, hr, rfl⟩ := htyped o ty left right h
  obtain ⟨hcopy, hfiltered⟩ | hcopy :=
    copyOperands_op o (ty.isSignedInt ns) ty left right (filter ns order vars)
  · rw [hfiltered] at hkeep
    rw [hcopy]
    refine ⟨typed_op o hint (filter_ty.trans hl) (filter_ty.trans hr), ?_⟩
    rw [eval_operation, eval_operation, hkeep left (by simp), hkeep right (by simp), filter_ty]
  · rw [hcopy]
    exact ⟨htyped, rfl⟩

namespace Sample

def polkadot : Namespace where
  addressLength := 32
  valueLength := 16
  selectorLength := 4
  storageBits := 256
  enumTy := fun _ => .uint 8
  enumBits := fun _ => 8
  userBits := fun _ => 256
  userSigned := fun _ => false

def constant (v : Int) : Value := ⟨BitVec.allOnes 256, bigintToBitarr v 256, 256⟩

/-- The dividend is 100 or 7, and the divisor is 3. -/
def sets : Variables
  | 0 => some [constant 100, constant 7]
  | 1 => some [constant 3]
  | _ => none

def seven : Env := ⟨fun varNo => if varNo = 0 then 7 else 3, fun _ => 0⟩

def dividend : Expression := .variable (.int 256) 0

def divisor : Expression := .variable (.int 256) 1

def quotient : Expression := .binary (.signedDivide (.int 256)) dividend divisor

theorem quotient_rewrite : divideRewrite polkadot id sets (.int 256) dividend divisor = .int64 := by
  decide +kernel

theorem typed_division (e e' : Expression) (h : e.ty = .int 256) (h' : e'.ty = .int 256) :
    Typed polkadot (.binary (.signedDivide (.int 256)) e e') := by
  intro o ty left right heq
  cases heq
  exact ⟨trivial, h, h', rfl⟩

/-- Any integer -/
def anyInteger : Variables
  | 0 => some [Value.unknown 256]
  | _ => none

def minusOne : Env := ⟨fun _ => -1, fun _ => 0⟩

/-- `x / 2` -/
def half : Expression := .binary (.signedDivide (.int 256)) dividend (.numberLiteral (.int 256) 2)

end Sample

end Solang.Codegen.StrengthReduce
