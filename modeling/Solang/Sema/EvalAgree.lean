import Solang.Sema.Eval

/-!
# The two evaluations agree

Whatever both evaluations give is the value over the integers without bounds. It is the value of the
typed expression as long as no operation leaves the range of its type.
-/

namespace Solang.Sema.Constants

/-! ## Typed expressions -/

def Ty.width : Ty → Nat
  | uint bits | int bits | other bits => bits
  | enum _ => 8

/-- The range of a type -/
def Ty.Fits : Ty → Int → Prop
  | int bits, v => -(2 ^ bits) ≤ v * 2 ∧ v * 2 < 2 ^ bits
  | ty, v => 0 ≤ v ∧ v < 2 ^ ty.width

instance (ty : Ty) (v : Int) : Decidable (ty.Fits v) := by
  unfold Ty.Fits
  cases ty <;> exact inferInstanceAs (Decidable (_ ∧ _))

/-- The value modulo the range of a type -/
def Ty.wrap : Ty → Int → Int
  | int bits, v => v.bmod (2 ^ bits)
  | ty, v => v % 2 ^ ty.width

theorem Ty.Fits.wrap {ty : Ty} {v : Int} (h : ty.Fits v) : ty.wrap v = v := by
  cases ty with
  | int bits =>
    refine Int.bmod_eq_of_le_mul_two ?_ ?_
    · push_cast
      exact h.1
    · push_cast
      exact h.2
  | uint bits | enum no | other bits => exact Int.emod_eq_of_lt h.1 h.2

def Expression.ty : Expression → Ty
  | add _ ty _ _ _ | subtract _ ty _ _ _ | multiply _ ty _ _ _ | divide _ ty _ _ | modulo _ ty _ _
  | power _ ty _ _ _ | bitwiseOr _ ty _ _ | bitwiseAnd _ ty _ _ | bitwiseXor _ ty _ _
  | shiftLeft _ ty _ _ | shiftRight _ ty _ _ _ | numberLiteral _ ty _ | zeroExt _ ty _ | signExt _ ty _
  | cast _ ty _ | bitwiseNot _ ty _ | negate _ ty _ _ | constantVariable _ ty _ _ | typeMin _ ty
  | typeMax _ ty | other _ ty => ty
  | not _ _ => .other 1

/-- Arithmetic reverts when the result is out of range, unless it is unchecked. -/
def arithmetic (ty : Ty) (unchecked : Bool) (v : Int) : Option Int :=
  if unchecked then some (ty.wrap v) else if ty.Fits v then some v else none

section Typed

variable (ns : Namespace) (constants : Option Nat → Nat → Option Int)

/-- The value of an expression in Solidity, from those of the constants: `none` when it reverts. -/
def typed : Expression → Option Int
  | .add _ ty unchecked left right => do arithmetic ty unchecked ((← typed left) + (← typed right))
  | .subtract _ ty unchecked left right => do arithmetic ty unchecked ((← typed left) - (← typed right))
  | .multiply _ ty unchecked left right => do arithmetic ty unchecked ((← typed left) * (← typed right))
  | .divide _ ty left right => do
    let l ← typed left
    let r ← typed right
    if r = 0 then none else arithmetic ty false (l.tdiv r)
  | .modulo _ ty left right => do
    let l ← typed left
    let r ← typed right
    if r = 0 then none else arithmetic ty false (l.tmod r)
  | .power _ ty unchecked base exp => do
    let b ← typed base
    let e ← typed exp
    if e < 0 then none else arithmetic ty unchecked (b ^ e.toNat)
  | .bitwiseAnd _ ty left right => do return ty.wrap ((← typed left).land (← typed right))
  | .bitwiseOr _ ty left right => do return ty.wrap ((← typed left).lor (← typed right))
  | .bitwiseXor _ ty left right => do return ty.wrap ((← typed left).xor (← typed right))
  | .shiftLeft _ ty left right => do
    let l ← typed left
    let r ← typed right
    if r < 0 then none else return ty.wrap (l <<< r.toNat)
  | .shiftRight _ ty left right _ => do
    let l ← typed left
    let r ← typed right
    if r < 0 then none else return ty.wrap (l >>> r.toNat)
  | .numberLiteral _ ty value => some (ty.wrap value)
  | .zeroExt _ toTy expr => do return toTy.wrap ((Ty.uint expr.ty.width).wrap (← typed expr))
  | .signExt _ toTy expr => do return toTy.wrap ((Ty.int expr.ty.width).wrap (← typed expr))
  | .cast _ toTy expr => do return toTy.wrap (← typed expr)
  | .not _ expr => do return if (← typed expr) = 0 then 1 else 0
  | .bitwiseNot _ ty expr => do return ty.wrap (← typed expr).not
  | .negate _ ty unchecked expr => do arithmetic ty unchecked (-(← typed expr))
  | .constantVariable _ _ contractNo varNo => constants contractNo varNo
  | .typeMin _ ty => some (typeMinValue ty)
  | .typeMax _ ty => typeMaxValue ns ty
  | .other _ _ => none

/-- What the values of the operands satisfy -/
def Operands (P : Int → Int → Prop) (left right : Expression) : Prop :=
  ∀ l r, typed ns constants left = some l → typed ns constants right = some r → P l r

/-- No operation leaves the range of its type, and no extension changes its operand. -/
def InRange : Expression → Prop
  | .add _ ty _ left right => InRange left ∧ InRange right ∧ Operands ns constants (fun l r => ty.Fits (l + r)) left right
  | .subtract _ ty _ left right =>
    InRange left ∧ InRange right ∧ Operands ns constants (fun l r => ty.Fits (l - r)) left right
  | .multiply _ ty _ left right =>
    InRange left ∧ InRange right ∧ Operands ns constants (fun l r => ty.Fits (l * r)) left right
  | .divide _ ty left right =>
    InRange left ∧ InRange right ∧ Operands ns constants (fun l r => ty.Fits (l.tdiv r)) left right
  | .modulo _ ty left right =>
    InRange left ∧ InRange right ∧ Operands ns constants (fun l r => ty.Fits (l.tmod r)) left right
  | .power _ ty _ base exp =>
    InRange base ∧ InRange exp ∧ Operands ns constants (fun b e => ty.Fits (b ^ e.toNat)) base exp
  | .bitwiseAnd _ ty left right =>
    InRange left ∧ InRange right ∧ Operands ns constants (fun l r => ty.Fits (l.land r)) left right
  | .bitwiseOr _ ty left right =>
    InRange left ∧ InRange right ∧ Operands ns constants (fun l r => ty.Fits (l.lor r)) left right
  | .bitwiseXor _ ty left right =>
    InRange left ∧ InRange right ∧ Operands ns constants (fun l r => ty.Fits (l.xor r)) left right
  | .shiftLeft _ ty left right =>
    InRange left ∧ InRange right ∧ Operands ns constants (fun l r => ty.Fits (l <<< r.toNat)) left right
  | .shiftRight _ ty left right _ =>
    InRange left ∧ InRange right ∧ Operands ns constants (fun l r => ty.Fits (l >>> r.toNat)) left right
  | .numberLiteral _ ty value => ty.Fits value
  | .zeroExt _ toTy expr =>
    InRange expr ∧ ∀ v, typed ns constants expr = some v → (Ty.uint expr.ty.width).Fits v ∧ toTy.Fits v
  | .signExt _ toTy expr =>
    InRange expr ∧ ∀ v, typed ns constants expr = some v → (Ty.int expr.ty.width).Fits v ∧ toTy.Fits v
  | _ => True

end Typed

/-! ## Integers without bounds -/

/-- The value of what both evaluations look into -/
def exact : Expression → Option Int
  | .add _ _ _ left right => do return (← exact left) + (← exact right)
  | .subtract _ _ _ left right => do return (← exact left) - (← exact right)
  | .multiply _ _ _ left right => do return (← exact left) * (← exact right)
  | .divide _ _ left right => do
    let l ← exact left
    let r ← exact right
    if r = 0 then none else return l.tdiv r
  | .modulo _ _ left right => do
    let l ← exact left
    let r ← exact right
    if r = 0 then none else return l.tmod r
  | .power _ _ _ base exp => do
    let b ← exact base
    let e ← exact exp
    if e < 0 then none else return b ^ e.toNat
  | .bitwiseAnd _ _ left right => do return (← exact left).land (← exact right)
  | .bitwiseOr _ _ left right => do return (← exact left).lor (← exact right)
  | .bitwiseXor _ _ left right => do return (← exact left).xor (← exact right)
  | .shiftLeft _ _ left right => do
    let l ← exact left
    let r ← exact right
    if r < 0 then none else return l <<< r.toNat
  | .shiftRight _ _ left right _ => do
    let l ← exact left
    let r ← exact right
    if r < 0 then none else return l >>> r.toNat
  | .numberLiteral _ _ value => some value
  | .zeroExt _ _ expr | .signExt _ _ expr => exact expr
  | _ => none

/-! ### Folding -/

section Folding

variable {loc : Loc} {ty : Ty} {op : Int → Int → Int} {left right : Option Expression} {lit : Expression}
  {flag : Bool} {ds ds' : List Diagnostic}

/-- The literals of the operands, and the result -/
structure Folds (loc : Loc) (ty : Ty) (op : Int → Int → Int) (left right : Option Expression)
    (lit : Expression) (l r : Int) : Prop where
  left : ∃ loc ty, left = some (.numberLiteral loc ty l)
  right : ∃ loc ty, right = some (.numberLiteral loc ty r)
  result : lit = .numberLiteral loc ty (op l r)

theorem foldLiterals_some (h : foldLiterals loc ty op left right = (some lit, flag)) :
    ∃ l r, Folds loc ty op left right lit l r := by
  unfold foldLiterals at h
  split at h
  · exact ⟨_, _, ⟨_, _, rfl⟩, ⟨_, _, rfl⟩, (Option.some.inj (Prod.mk.inj h).1).symm⟩
  · exact absurd (Prod.mk.inj h).1 (by simp)

theorem foldDivision_some (h : foldDivision loc ty op left right ds = ((some lit, flag), ds')) :
    ∃ l r, r ≠ 0 ∧ Folds loc ty op left right lit l r := by
  unfold foldDivision at h
  split at h
  · rename_i loc₁ ty₁ l loc₂ ty₂ r
    by_cases hzero : r = 0
    · rw [if_pos hzero] at h
      have hnone : (none : Option Expression) = some lit := congrArg (·.1.1) h
      exact absurd hnone (by simp)
    · rw [if_neg hzero] at h
      have hfold : foldLiterals loc ty op (some (.numberLiteral loc₁ ty₁ l)) (some (.numberLiteral loc₂ ty₂ r)) =
          (some lit, flag) := congrArg (·.1) h
      obtain ⟨l', r', hfolds⟩ := foldLiterals_some hfold
      obtain ⟨_, _, hr⟩ := hfolds.right
      cases hr
      exact ⟨l', r, hzero, hfolds⟩
  · have hnone : (none : Option Expression) = some lit := congrArg (·.1.1) h
    exact absurd hnone (by simp)

theorem foldBounded_some {bound : Ty} {message : Int → String}
    (h : foldBounded loc ty bound message op left right ds = ((some lit, flag), ds')) :
    ∃ l r loc', overflowDiagnostic r bound loc' = none ∧ Folds loc ty op left right lit l r := by
  unfold foldBounded at h
  split at h
  · rename_i loc₁ ty₁ l rightLoc ty₂ r
    cases hover : overflowDiagnostic r bound rightLoc with
    | some d =>
      rw [hover] at h
      have hnone : (none : Option Expression) = some lit := congrArg (·.1.1) h
      exact absurd hnone (by simp)
    | none =>
      rw [hover] at h
      have hfold : foldLiterals loc ty op (some (.numberLiteral loc₁ ty₁ l))
          (some (.numberLiteral rightLoc ty₂ r)) = (some lit, flag) := congrArg (·.1) h
      obtain ⟨l', r', hfolds⟩ := foldLiterals_some hfold
      obtain ⟨_, _, hr⟩ := hfolds.right
      cases hr
      exact ⟨l', r, rightLoc, hover, hfolds⟩
  · have hnone : (none : Option Expression) = some lit := congrArg (·.1.1) h
    exact absurd hnone (by simp)

theorem foldExtension_some (h : foldExtension loc ty left = (some lit, flag)) :
    ∃ v, (∃ loc ty, left = some (.numberLiteral loc ty v)) ∧ lit = .numberLiteral loc ty v := by
  unfold foldExtension at h
  split at h
  · exact ⟨_, ⟨_, _, rfl⟩, (Option.some.inj (Prod.mk.inj h).1).symm⟩
  · exact absurd (Prod.mk.inj h).1 (by simp)

/-- What fits into an unsigned type is not negative. -/
theorem nonneg_of_overflowDiagnostic {v : Int} {n : Nat}
    (h : overflowDiagnostic v (.uint n) loc = none) : ¬ v < 0 := by
  intro hneg
  unfold overflowDiagnostic at h
  simp only [if_pos hneg] at h
  exact absurd h (by simp)

/-- What is folded is the value without bounds, as a literal of the type of the expression. -/
def FoldsExactly (expr : Expression) : Prop :=
  ∀ lit flag ds ds', evalConstantsInExpression expr ds = ((some lit, flag), ds') →
    ∃ loc v, lit = .numberLiteral loc expr.ty v ∧ exact expr = some v

/-- The values of operands that are folded to literals -/
theorem FoldsExactly.value {expr : Expression} (h : FoldsExactly expr) {v : Int}
    (hlit : ∃ loc ty, (evalConstantsInExpression expr ds).1.1 = some (.numberLiteral loc ty v)) :
    exact expr = some v := by
  obtain ⟨loc, ty, hlit⟩ := hlit
  rcases hr : evalConstantsInExpression expr ds with ⟨⟨folded, flag⟩, ds'⟩
  rw [hr] at hlit
  dsimp only at hlit
  rw [hlit] at hr
  obtain ⟨loc', v', heq, hv⟩ := h _ flag ds ds' hr
  cases heq
  exact hv

theorem Folds.exact {l r : Expression} {ds₁ ds₂ : List Diagnostic} {x y : Int} (hl : FoldsExactly l)
    (hr : FoldsExactly r)
    (h : Folds loc ty op (evalConstantsInExpression l ds₁).1.1 (evalConstantsInExpression r ds₂).1.1 lit x y) :
    Constants.exact l = some x ∧ Constants.exact r = some y :=
  ⟨hl.value h.left, hr.value h.right⟩

theorem foldsExactly (expr : Expression) : FoldsExactly expr := by
  induction expr with
  | add loc ty unchecked left right ihl ihr | subtract loc ty unchecked left right ihl ihr
  | multiply loc ty unchecked left right ihl ihr | bitwiseAnd loc ty left right ihl ihr
  | bitwiseOr loc ty left right ihl ihr | bitwiseXor loc ty left right ihl ihr =>
    intro lit flag ds ds' h
    obtain ⟨x, y, hfolds⟩ := foldLiterals_some (congrArg (·.1) h)
    obtain ⟨hx, hy⟩ := hfolds.exact ihl ihr
    exact ⟨loc, _, hfolds.result, by rw [Constants.exact, hx, hy]; rfl⟩
  | divide loc ty left right ihl ihr | modulo loc ty left right ihl ihr =>
    intro lit flag ds ds' h
    obtain ⟨x, y, hne, hfolds⟩ := foldDivision_some h
    obtain ⟨hx, hy⟩ := hfolds.exact ihl ihr
    exact ⟨loc, _, hfolds.result, by rw [Constants.exact, hx, hy]; exact if_neg hne⟩
  | power loc ty unchecked left right ihl ihr | shiftLeft loc ty left right ihl ihr
  | shiftRight loc ty left right sign ihl ihr =>
    intro lit flag ds ds' h
    obtain ⟨x, y, loc', hover, hfolds⟩ := foldBounded_some h
    obtain ⟨hx, hy⟩ := hfolds.exact ihl ihr
    exact ⟨loc, _, hfolds.result, by
      rw [Constants.exact, hx, hy]
      exact if_neg (nonneg_of_overflowDiagnostic hover)⟩
  | zeroExt loc toTy expr ih | signExt loc toTy expr ih =>
    intro lit flag ds ds' h
    obtain ⟨v, hlit, heq⟩ := foldExtension_some (congrArg (·.1) h)
    exact ⟨loc, v, heq, ih.value hlit⟩
  | numberLiteral loc ty value =>
    intro lit flag ds ds' h
    have hlit : some (Expression.numberLiteral loc ty value) = some lit := congrArg (·.1.1) h
    exact ⟨loc, value, (Option.some.inj hlit).symm, rfl⟩
  | _ =>
    intro lit flag ds ds' h
    have hnone : (none : Option Expression) = some lit := congrArg (·.1.1) h
    exact absurd hnone (by simp)

end Folding

/-! ### Numbers -/

section Numbers

variable {α β : Type} {x : Eval α} {f : α → Eval β} {a b : α} {y : β}

/-- The evaluation gives this result for some diagnostics before it. -/
def Yields (x : Eval α) (a : α) : Prop := ∃ ds ds', x.run ds = some (.ok a, ds')

theorem Yields.of_pure (h : Yields (pure a : Eval α) b) : a = b := by
  obtain ⟨ds, ds', h⟩ := h
  cases h
  rfl

theorem Yields.of_bind (h : Yields (x >>= f) y) : ∃ a, Yields x a ∧ Yields (f a) y := by
  obtain ⟨ds, ds', h⟩ := h
  cases hx : x.run ds with
  | none =>
    have hnone : (x >>= f).run ds = none := by
      show x.run ds >>= _ = none
      rw [hx]
      rfl
    rw [hnone] at h
    exact absurd h (by simp)
  | some r =>
    obtain ⟨r, ds₁⟩ := r
    cases r with
    | error e =>
      have herror : (x >>= f).run ds = some (.error e, ds₁) := by
        show x.run ds >>= _ = _
        rw [hx]
        rfl
      rw [herror] at h
      exact absurd (Option.some.inj h) (by simp)
    | ok a =>
      have hok : (x >>= f).run ds = (f a).run ds₁ := by
        show x.run ds >>= _ = _
        rw [hx]
        rfl
      rw [hok] at h
      exact ⟨a, ⟨ds, ds₁, hx⟩, ds₁, ds', h⟩

theorem not_yields_error {loc : Loc} {message : String} {e : EvaluationError} :
    ¬ Yields (do push loc message; throw e : Eval α) a := by
  rintro ⟨ds, ds', h⟩
  have herror : some (Except.error e, ds ++ [⟨loc, message⟩]) = some (Except.ok a, ds') := h
  exact absurd (Option.some.inj herror) (by simp)

theorem powerLoop_eq (b : Int) (e : Nat) (res : Int) : powerLoop b e res = res * b ^ e := by
  induction e generalizing res with
  | zero => rw [powerLoop, pow_zero, mul_one]
  | succ e ih => rw [powerLoop, ih, pow_succ', mul_assoc]

/-- The results of the operands -/
theorem Yields.operands {l r : Eval (Loc × Int)} {g : Loc × Int → Loc × Int → Eval (Loc × Int)} {result : Loc × Int}
    (h : Yields (do let a ← l; let b ← r; g a b) result) :
    ∃ a b, Yields l a ∧ Yields r b ∧ Yields (g a b) result := by
  obtain ⟨a, ha, h⟩ := h.of_bind
  obtain ⟨b, hb, h⟩ := h.of_bind
  exact ⟨a, b, ha, hb, h⟩

end Numbers

theorem exact_operands {left right : Expression} {f : Int → Int → Option Int} {w : Int}
    (h : (do let l ← exact left; let r ← exact right; f l r) = some w) :
    ∃ l r, exact left = some l ∧ exact right = some r ∧ f l r = some w := by
  obtain ⟨l, hl, h⟩ := Option.bind_eq_some_iff.mp h
  obtain ⟨r, hr, h⟩ := Option.bind_eq_some_iff.mp h
  exact ⟨l, r, hl, hr, h⟩

theorem toU64_some {v : Int} {n : Nat} (h : toU64 v = some n) : v.toNat = n := by
  unfold toU64 at h
  split at h
  · exact Option.some.inj h
  · exact absurd h (by simp)

/-- Whatever number comes out is the value without bounds, where there is one. -/
theorem evalConstNumber_exact {ns : Namespace} {fuel : Nat} {expr : Expression} {loc : Loc} {v w : Int}
    (h : Yields (evalConstNumber ns fuel expr) (loc, v)) (hw : exact expr = some w) : v = w := by
  induction fuel generalizing expr loc v w with
  | zero =>
    obtain ⟨ds, ds', h⟩ := h
    have hnone : none = some (Except.ok (loc, v), ds') := h
    exact absurd hnone (by simp)
  | succ fuel ih =>
    cases expr with
    | add _ _ _ left right | subtract _ _ _ left right | multiply _ _ _ left right
    | bitwiseAnd _ _ left right | bitwiseOr _ _ left right | bitwiseXor _ _ left right =>
      obtain ⟨x, y, hx, hy, hop⟩ := exact_operands hw
      obtain ⟨a, b, ha, hb, h⟩ := Yields.operands h
      obtain ⟨-, rfl⟩ := Prod.mk.inj h.of_pure
      rw [ih ha hx, ih hb hy]
      exact Option.some.inj hop
    | divide _ _ left right | modulo _ _ left right =>
      obtain ⟨x, y, hx, hy, hop⟩ := exact_operands hw
      obtain ⟨b, hb, h⟩ := h.of_bind
      rw [ih hb hy] at h
      by_cases hzero : y = 0
      · rw [if_pos hzero] at h
        exact absurd h not_yields_error
      · rw [if_neg hzero] at h hop
        obtain ⟨a, ha, h⟩ := h.of_bind
        obtain ⟨-, rfl⟩ := Prod.mk.inj h.of_pure
        rw [ih ha hx]
        exact Option.some.inj hop
    | power _ _ _ base exp =>
      obtain ⟨x, y, hx, hy, hop⟩ := exact_operands hw
      obtain ⟨a, b, ha, hb, h⟩ := Yields.operands h
      rw [ih ha hx, ih hb hy] at h
      by_cases hneg : y < 0
      · rw [if_pos hneg] at h
        exact absurd h not_yields_error
      · rw [if_neg hneg] at h hop
        rw [← Option.some.inj hop]
        by_cases hzero : y = 0
        · rw [if_pos hzero] at h
          obtain ⟨-, rfl⟩ := Prod.mk.inj h.of_pure
          rw [hzero, Int.toNat_zero, pow_zero]
        · rw [if_neg hzero] at h
          obtain ⟨-, rfl⟩ := Prod.mk.inj h.of_pure
          rw [powerLoop_eq, ← pow_succ', show (y - 1).toNat + 1 = y.toNat by omega]
    | shiftLeft _ _ left right | shiftRight _ _ left right _ =>
      obtain ⟨x, y, hx, hy, hop⟩ := exact_operands hw
      obtain ⟨a, b, ha, hb, h⟩ := Yields.operands h
      rw [ih ha hx, ih hb hy] at h
      have hnn : ¬ y < 0 := fun hneg => absurd hop (by rw [if_pos hneg]; simp)
      rw [if_neg hnn] at hop
      cases hy64 : toU64 y with
      | none =>
        rw [hy64] at h
        exact absurd h not_yields_error
      | some n =>
        rw [hy64] at h
        obtain ⟨-, rfl⟩ := Prod.mk.inj h.of_pure
        rw [← toU64_some hy64]
        exact Option.some.inj hop
    | numberLiteral _ _ value =>
      obtain ⟨-, rfl⟩ := Prod.mk.inj h.of_pure
      exact Option.some.inj hw
    | zeroExt _ _ expr | signExt _ _ expr =>
      obtain ⟨a, ha, h⟩ := h.of_bind
      obtain ⟨-, rfl⟩ := Prod.mk.inj h.of_pure
      exact ih ha hw
    | _ => exact absurd hw (by simp [exact])

/-! ## Within the range of the types -/

section Range

variable {ns : Namespace} {constants : Option Nat → Nat → Option Int}

theorem arithmetic_of_fits {ty : Ty} {unchecked : Bool} {v : Int} (h : ty.Fits v) :
    arithmetic ty unchecked v = some v := by
  unfold arithmetic
  rw [if_pos h, h.wrap, ite_self]

theorem typed_eq_exact {expr : Expression} {v : Int} (hv : exact expr = some v) (h : InRange ns constants expr) :
    typed ns constants expr = some v ∧ expr.ty.Fits v := by
  induction expr generalizing v with
  | add _ ty _ left right ihl ihr | subtract _ ty _ left right ihl ihr | multiply _ ty _ left right ihl ihr =>
    obtain ⟨x, y, hx, hy, hop⟩ := exact_operands hv
    cases hop
    obtain ⟨hl, hr, hfits⟩ := h
    obtain ⟨hx, -⟩ := ihl hx hl
    obtain ⟨hy, -⟩ := ihr hy hr
    refine ⟨?_, hfits x y hx hy⟩
    rw [typed, hx, hy]
    exact arithmetic_of_fits (hfits x y hx hy)
  | bitwiseAnd _ ty left right ihl ihr | bitwiseOr _ ty left right ihl ihr
  | bitwiseXor _ ty left right ihl ihr =>
    obtain ⟨x, y, hx, hy, hop⟩ := exact_operands hv
    cases hop
    obtain ⟨hl, hr, hfits⟩ := h
    obtain ⟨hx, -⟩ := ihl hx hl
    obtain ⟨hy, -⟩ := ihr hy hr
    refine ⟨?_, hfits x y hx hy⟩
    rw [typed, hx, hy]
    exact congrArg some (hfits x y hx hy).wrap
  | divide _ ty left right ihl ihr | modulo _ ty left right ihl ihr =>
    obtain ⟨x, y, hx, hy, hop⟩ := exact_operands hv
    have hne : y ≠ 0 := fun hzero => absurd hop (by rw [if_pos hzero]; simp)
    rw [if_neg hne] at hop
    cases hop
    obtain ⟨hl, hr, hfits⟩ := h
    obtain ⟨hx, -⟩ := ihl hx hl
    obtain ⟨hy, -⟩ := ihr hy hr
    refine ⟨?_, hfits x y hx hy⟩
    rw [typed, hx, hy]
    exact (if_neg hne).trans (arithmetic_of_fits (hfits x y hx hy))
  | power _ ty _ left right ihl ihr =>
    obtain ⟨x, y, hx, hy, hop⟩ := exact_operands hv
    have hnn : ¬ y < 0 := fun hneg => absurd hop (by rw [if_pos hneg]; simp)
    rw [if_neg hnn] at hop
    cases hop
    obtain ⟨hl, hr, hfits⟩ := h
    obtain ⟨hx, -⟩ := ihl hx hl
    obtain ⟨hy, -⟩ := ihr hy hr
    refine ⟨?_, hfits x y hx hy⟩
    rw [typed, hx, hy]
    exact (if_neg hnn).trans (arithmetic_of_fits (hfits x y hx hy))
  | shiftLeft _ ty left right ihl ihr | shiftRight _ ty left right _ ihl ihr =>
    obtain ⟨x, y, hx, hy, hop⟩ := exact_operands hv
    have hnn : ¬ y < 0 := fun hneg => absurd hop (by rw [if_pos hneg]; simp)
    rw [if_neg hnn] at hop
    cases hop
    obtain ⟨hl, hr, hfits⟩ := h
    obtain ⟨hx, -⟩ := ihl hx hl
    obtain ⟨hy, -⟩ := ihr hy hr
    refine ⟨?_, hfits x y hx hy⟩
    rw [typed, hx, hy]
    exact (if_neg hnn).trans (congrArg some (hfits x y hx hy).wrap)
  | numberLiteral _ ty value =>
    cases hv
    exact ⟨congrArg some (Ty.Fits.wrap h), h⟩
  | zeroExt _ toTy expr ih | signExt _ toTy expr ih =>
    obtain ⟨hexpr, hfits⟩ := h
    obtain ⟨hx, -⟩ := ih hv hexpr
    obtain ⟨hoperand, hresult⟩ := hfits v hx
    refine ⟨?_, hresult⟩
    rw [typed, hx]
    show some (toTy.wrap _) = some v
    rw [hoperand.wrap, hresult.wrap]
  | _ => exact absurd hv (by simp [exact])

end Range

/-! ## What fits into a type -/

theorem bits_le_iff {v : Int} {n : Nat} : bits v ≤ n ↔ v.natAbs < 2 ^ n := Nat.size_le

/-- The bytes of a number with a sign have room for its absolute value, and for one more below zero. -/
theorem signedBytes_le_iff {v : Int} {bytes : Nat} :
    signedBytes v ≤ bytes + 1 ↔ -2 ^ (8 * bytes + 7) ≤ v ∧ v < 2 ^ (8 * bytes + 7) := by
  have hbytes : ∀ m : Nat, m.size / 8 + 1 ≤ bytes + 1 ↔ m < 2 ^ (8 * bytes + 7) := fun m => by
    rw [← Nat.size_le]
    omega
  have hpow : ((2 ^ (8 * bytes + 7) : Nat) : Int) = 2 ^ (8 * bytes + 7) := Int.natCast_pow 2 _
  unfold signedBytes
  by_cases hneg : v < 0
  · rw [if_pos hneg, hbytes]
    omega
  · rw [if_neg hneg, hbytes]
    omega

namespace Sample

/-- `255 << 1` in `uint8` -/
def shifted : Expression :=
  .shiftLeft .codegen (.uint 8) (.numberLiteral .codegen (.uint 8) 255) (.numberLiteral .codegen (.uint 8) 1)

/-- `100 + 55` in `uint8` -/
def sum : Expression :=
  .add .codegen (.uint 8) false (.numberLiteral .codegen (.uint 8) 100) (.numberLiteral .codegen (.uint 8) 55)

def ns : Namespace where
  contracts := []
  constants := []
  enums := []

end Sample

/-- Both evaluations keep the bit that the type has no room for. -/
theorem shift_leaves_range :
    (evalConstNumber Sample.ns 2 Sample.shifted).run [] = some (.ok (.codegen, 510), []) ∧
    evalConstantsInExpression Sample.shifted [] = ((some (.numberLiteral .codegen (.uint 8) 510), true), []) ∧
    typed Sample.ns (fun _ _ => none) Sample.shifted = some 254 :=
  ⟨rfl, rfl, rfl⟩

/-- The two evaluations give the same value, and the literal has the type of the expression. The value
is that of the typed expression when no operation leaves the range of its type. -/
theorem evaluations_agree (ns : Namespace) (fuel : Nat) (expr : Expression) (ds₁ ds₂ : List Diagnostic)
    {ds₁' ds₂' : List Diagnostic} {loc : Loc} {v : Int} {lit : Expression} {flag : Bool}
    (hnumber : (evalConstNumber ns fuel expr).run ds₁ = some (.ok (loc, v), ds₁'))
    (hfolded : evalConstantsInExpression expr ds₂ = ((some lit, flag), ds₂')) :
    (∃ loc', lit = .numberLiteral loc' expr.ty v) ∧
      ∀ constants, InRange ns constants expr → typed ns constants expr = some v ∧ expr.ty.Fits v := by
  obtain ⟨loc', w, hlit, hexact⟩ := foldsExactly expr lit flag ds₂ ds₂' hfolded
  have hvw : v = w := evalConstNumber_exact ⟨ds₁, ds₁', hnumber⟩ hexact
  rw [hvw]
  exact ⟨⟨loc', hlit⟩, fun constants h => typed_eq_exact hexact h⟩

theorem evaluations_agree_sum :
    (∃ loc', Expression.numberLiteral .codegen (.uint 8) 155 = .numberLiteral loc' Sample.sum.ty 155) ∧
      ∀ constants, InRange Sample.ns constants Sample.sum →
        typed Sample.ns constants Sample.sum = some 155 ∧ Sample.sum.ty.Fits 155 :=
  evaluations_agree Sample.ns 2 Sample.sum [] [] rfl rfl

end Solang.Sema.Constants
