import Solang.Codegen.Evaluation.Expression

/-!
# Increment and decrement

`++` and `--` should find the place of their operand once, and read and write that place. The code of an operand that
is not a variable is there twice, for the load and for the store: the effects of its sub-expressions happen twice, and
the place may be another one the second time.
-/

namespace Solang.Codegen.Evaluation

variable (ctx : Context)

/-! ## What they mean -/

/-- The place that a reference denotes -/
def placeOf : Ty → Tree → Code Place
  | .ref _, v => Place.memory <$> force v
  | .storageRef _, v => Place.storage <$> force v
  | _, _ => .abort

/-- The place of an operand -/
def locate : Expr → Code Place
  | .variable _ varNo => pure (.variable varNo)
  | var => do
    let v ← expression ctx var
    placeOf var.ty v

def Step.amount : Step → Int
  | .increment => 1
  | .decrement => -1

/-- The value that is one more or one less, modulo the size of the type when `unchecked` -/
def changed (step : Step) (ty : Conversions.Ty) (unchecked : Bool) (old : Nat) : Option Nat :=
  let exact := ty.read ctx.ns old + step.amount
  let new := (exact % 2 ^ ty.bits ctx.ns).toNat
  if unchecked || ty.read ctx.ns new == exact then some new else none

/-- One evaluation of the operand, one read and one write -/
def incdecOnce (loc : Nat) (fixity : Fixity) (step : Step) (ty : Conversions.Ty) (unchecked : Bool) (var : Expr) : Code Tree := do
  let p ← locate ctx var
  let old ← read p
  let new ← Logged.ofOption (changed ctx step ty unchecked old)
  write loc p new
  pure (temp (match fixity with
    | .pre => new
    | .post => old))

/-- What `sema` requires of the operand -/
def Modifiable (ty : Conversions.Ty) (var : Expr) : Prop :=
  (∃ bits, 8 ≤ bits ∧ (ty = .int bits ∨ ty = .uint bits)) ∧
    match var with
    | .variable varTy _ => varTy = .value ty
    | _ => var.ty = .ref (.value ty) ∨ var.ty = .storageRef (.value ty)

/-- Two runs that end alike; one that aborts is undone, with all its effects. -/
def Agree (x y : Traced Event (Tree × State)) : Prop :=
  x.result = y.result ∧ (x.result.isSome = true → x.trace = y.trace)

/-- Unless the run aborts, to find the place of the operand once more has no effect and finds the same place. -/
def FoundAgain (step : Step) (ty : Conversions.Ty) (unchecked : Bool) (var : Expr) (s : State) : Prop :=
  ∀ t p s', (locate ctx var).run s = ⟨t, some (p, s')⟩ → (changed ctx step ty unchecked (s' p)).isSome = true →
    (locate ctx var).run s' = ⟨[], some (p, s')⟩

/-! ## The code, with its reads and writes by place -/

variable {ctx} {loc : Nat} {step : Step} {ty : Conversions.Ty} {unchecked : Bool} {var : Expr}

/-- The place is found for the load, and again for the store. -/
def incdecTwice (ctx : Context) (loc : Nat) (fixity : Fixity) (step : Step) (ty : Conversions.Ty) (unchecked : Bool)
    (var : Expr) : Code Tree := do
  let p ← locate ctx var
  let old ← read p
  match fixity with
  | .pre => do
    let new ← Logged.ofOption (changed ctx step ty unchecked old)
    let p' ← locate ctx var
    write loc p' new
    pure (temp new)
  | .post => do
    let p' ← locate ctx var
    let new ← Logged.ofOption (changed ctx step ty unchecked old)
    write loc p' new
    pure (temp old)

theorem force_bind (v : Tree) (f : Nat → Option Nat) :
    force (fun s => (v s).bind f) = force v >>= fun n => Logged.ofOption (f n) := by
  ext1
  funext s
  show _ = (force v).run s >>= _
  cases h : v s with
  | none => simp [force, Logged.ask, Logged.ofOption, h, Traced.bind_none]
  | some n => simp [force, Logged.ask, Logged.ofOption, h, Traced.bind_some]

theorem read_one (h : Modifiable ty var) : ty.read ctx.ns 1 = 1 := by
  obtain ⟨⟨bits, hbits, hty⟩, -⟩ := h
  have hpow : 1 < 2 ^ (bits - 1) := Nat.one_lt_two_pow (by omega)
  rcases hty with rfl | rfl
  · have hlt : ¬((Conversions.Ty.int bits).isSigned = true ∧ 2 ^ ((Conversions.Ty.int bits).bits ctx.ns - 1) ≤ 1) :=
      fun h => absurd h.2 (Nat.not_le.mpr hpow)
    rw [Conversions.Ty.read, if_neg hlt]
    rfl
  · simp [Conversions.Ty.read, Conversions.Ty.isSigned]

theorem stepped_eq (h : Modifiable ty var) (v : Tree) :
    stepped ctx step ty unchecked v = fun s => (v s).bind (changed ctx step ty unchecked) := by
  funext s
  cases step <;>
    cases hv : v s <;>
      simp [stepped, arithmetic, changed, temp, Step.amount, hv, read_one h, Int.sub_eq_add_neg]

/-- Loading a reference and evaluating what is loaded is a read of its place. -/
theorem loadRef_force {β : Type} (h : var.ty = .ref (.value ty) ∨ var.ty = .storageRef (.value ty)) (v : Tree)
    (k : Nat → Code β) :
    (loadRef var.ty v >>= fun w => force w >>= k) = placeOf var.ty v >>= fun p => read p >>= k := by
  rcases h with h | h
  · rw [h]
    show force (load v) >>= k = _
    have hload : force (load v) = force v >>= fun a => read (.memory a) := by
      ext1
      funext s
      show _ = (force v).run s >>= _
      cases hv : v s with
      | none => simp [force, load, Logged.ask, hv, Traced.bind_none]
      | some a => simp [force, load, read, Logged.ask, hv, Traced.bind_some]
    rw [hload]
    simp only [placeOf, map_eq_pure_bind, bind_assoc, pure_bind]
  · rw [h]
    simp only [loadRef, loadStorage, placeOf, map_eq_pure_bind, bind_assoc, pure_bind, force_temp]

theorem storeRef_eq (h : var.ty = .ref (.value ty) ∨ var.ty = .storageRef (.value ty)) (dest : Tree) (new : Nat) :
    storeRef loc var.ty dest (temp new) = placeOf var.ty dest >>= fun p => write loc p new := by
  rcases h with h | h <;>
    simp only [h, storeRef, store, setStorage, placeOf, force_temp, map_eq_pure_bind, bind_assoc, pure_bind]

theorem silent_force (v : Tree) : (force v).Silent := Logged.silent_ask v

theorem silent_placeOf (varTy : Ty) (v : Tree) : (placeOf varTy v).Silent := by
  cases varTy with
  | ref _ | storageRef _ =>
    simp only [placeOf, map_eq_pure_bind]
    exact (silent_force v).bind fun _ => Logged.silent_pure _
  | _ => exact Logged.silent_ask _

theorem placeOf_ofOption {α β : Type} (varTy : Ty) (dest : Tree) (o : Option α) (k : α → Place → Code β) :
    (placeOf varTy dest >>= fun p => Logged.ofOption o >>= fun a => k a p) =
      Logged.ofOption o >>= fun a => placeOf varTy dest >>= fun p => k a p :=
  ((silent_placeOf varTy dest).ask_comm (fun _ => o) k).symm

/-- The operand is no variable. -/
theorem locate_reference (h : ∀ varTy varNo, var ≠ .variable varTy varNo) :
    locate ctx var = expression ctx var >>= fun v => placeOf var.ty v := by
  cases var with
  | «variable» varTy varNo => exact absurd rfl (h varTy varNo)
  | _ => rfl

theorem postIncdec_reference (h : Modifiable ty var) (hvar : ∀ varTy varNo, var ≠ .variable varTy varNo) :
    postIncdec ctx loc step ty unchecked var (expression ctx var) = incdecTwice ctx loc .post step ty unchecked var := by
  have hty : var.ty = .ref (.value ty) ∨ var.ty = .storageRef (.value ty) := by
    have := h.2
    cases var with
    | «variable» varTy varNo => exact absurd rfl (hvar varTy varNo)
    | _ => exact this
  have hcode : postIncdec ctx loc step ty unchecked var (expression ctx var) = (do
      let v ← expression ctx var
      let w ← loadRef var.ty v
      let res ← force w
      let dest ← expression ctx var
      let new ← force (stepped ctx step ty unchecked (temp res))
      storeRef loc var.ty dest (temp new)
      pure (temp res)) := by
    cases var with
    | «variable» varTy varNo => exact absurd rfl (hvar varTy varNo)
    | _ => simp only [postIncdec]
  rw [hcode]
  simp only [incdecTwice, locate_reference hvar, bind_assoc, loadRef_force hty, storeRef_eq hty, stepped_eq h,
    force_bind, force_temp, pure_bind, placeOf_ofOption]

theorem preIncdec_reference (h : Modifiable ty var) (hvar : ∀ varTy varNo, var ≠ .variable varTy varNo) :
    preIncdec ctx loc step ty unchecked var (expression ctx var) = incdecTwice ctx loc .pre step ty unchecked var := by
  have hty : var.ty = .ref (.value ty) ∨ var.ty = .storageRef (.value ty) := by
    have := h.2
    cases var with
    | «variable» varTy varNo => exact absurd rfl (hvar varTy varNo)
    | _ => exact this
  have hcode : preIncdec ctx loc step ty unchecked var (expression ctx var) = (do
      let v ← expression ctx var
      let w ← loadRef var.ty v
      let res ← force (stepped ctx step ty unchecked w)
      let dest ← expression ctx var
      storeRef loc var.ty dest (temp res)
      pure (temp res)) := by
    cases var with
    | «variable» varTy varNo => exact absurd rfl (hvar varTy varNo)
    | _ => simp only [preIncdec]
  rw [hcode]
  simp only [incdecTwice, locate_reference hvar, bind_assoc, loadRef_force hty, storeRef_eq hty, stepped_eq h,
    force_bind]

variable {fixity : Fixity} {s s' : State} {t : List Event} {p : Place}

theorem incdec_variable {varNo : Nat} (h : Modifiable ty (.variable (.value ty) varNo)) :
    expression ctx (.incdec loc fixity step ty unchecked (.variable (.value ty) varNo)) =
      incdecOnce ctx loc fixity step ty unchecked (.variable (.value ty) varNo) := by
  have hread : force (fun s => some (s (.variable varNo))) = read (.variable varNo) := rfl
  cases fixity <;>
    simp only [expression, preIncdec, postIncdec, incdecOnce, locate, Expr.ty, loadRef, set, stepped_eq h, force_bind,
      force_temp, hread, bind_assoc, pure_bind]

/-! ## Operands without effects -/

mutual

/-- There is no assignment, no `++` or `--` and no call in the expression. -/
def Expr.quiet : Expr → Bool
  | .number _ _ | .variable _ _ | .storageVariable _ _ => true
  | .load _ expr => expr.quiet
  | .storageLoad _ expr => expr.quiet
  | .cast _ _ expr => expr.quiet
  | .structMember _ expr _ => expr.quiet
  | .subscript _ _ array index => array.quiet && index.quiet
  | .storageByte array index => array.quiet && index.quiet
  | .operator _ _ args => quietAll args
  | .userDefinedOperator _ _ args => quietAll args
  | .and left right => left.quiet && right.quiet
  | .or left right => left.quiet && right.quiet
  | .conditionalOperator _ cond left right => cond.quiet && left.quiet && right.quiet
  | .assign _ _ _ | .incdec _ _ _ _ _ _ | .call _ _ _ _ => false

def quietAll : List Expr → Bool
  | [] => true
  | e :: es => e.quiet && quietAll es

end

theorem silent_read (p : Place) : (read p).Silent := Logged.silent_ask _

theorem silent_loadStorage (storage : Tree) : (loadStorage storage).Silent :=
  (silent_force storage).bind fun _ => (silent_read _).bind fun _ => Logged.silent_pure _

theorem silent_forceAll : ∀ ts : List Tree, (forceAll ts).Silent
  | [] => Logged.silent_pure _
  | t :: ts => (silent_force t).bind fun _ => (silent_forceAll ts).bind fun _ => Logged.silent_pure _

theorem silent_arraySubscript (ctx : Context) (layout : Layout) {array index : Code Tree} (ha : array.Silent)
    (hi : index.Silent) : (arraySubscript ctx layout array index).Silent := by
  have hcheck : ∀ (a b : Nat) (v : Tree), Logged.Silent (if a ≤ b then .abort else pure v : Code Tree) := by
    intro a b v
    split
    · exact Logged.silent_ask _
    · exact Logged.silent_pure v
  refine ha.bind fun array => hi.bind fun index => ?_
  cases layout with
  | memory length elemSize => exact (silent_force _).bind fun pos => (silent_force _).bind fun _ => hcheck _ _ _
  | storage length elemSlots =>
    refine Logged.Silent.bind ?_ fun _ => (silent_force _).bind fun pos => (silent_force _).bind fun _ => hcheck _ _ _
    cases length with
    | none => exact silent_loadStorage array
    | some n => exact Logged.silent_pure _

theorem silent_shortCircuit (isOr : Bool) {left right : Code Tree} (hl : left.Silent) (hr : right.Silent) :
    (shortCircuit isOr left right).Silent := by
  refine hl.bind fun l => (silent_force l).bind fun cond => ?_
  split
  · exact Logged.silent_pure _
  · exact hr.bind fun r => (silent_force r).bind fun v => Logged.silent_pure _

theorem silent_conditionalOperator {cond left right : Code Tree} (hc : cond.Silent) (hl : left.Silent)
    (hr : right.Silent) : (conditionalOperator cond left right).Silent := by
  refine hc.bind fun cond => (silent_force cond).bind fun c => ?_
  have hset : ∀ expr : Tree, Logged.Silent (force expr >>= fun v => pure (temp v) : Code Tree) := fun expr =>
    (silent_force expr).bind fun v => Logged.silent_pure _
  dsimp only
  split
  · exact hl.bind hset
  · exact hr.bind hset

mutual

theorem silent_of_quiet (ctx : Context) : ∀ e : Expr, e.quiet = true → (expression ctx e).Silent
  | .number _ _, _ | .variable _ _, _ | .storageVariable _ _, _ => Logged.silent_pure _
  | .load _ e, h | .cast _ _ e, h
  | .structMember _ e _, h => (silent_of_quiet ctx e h).bind fun _ => Logged.silent_pure _
  | .storageLoad _ e, h => (silent_of_quiet ctx e h).bind fun v => silent_loadStorage v
  | .subscript _ layout array index, h => by
    rw [Expr.quiet, Bool.and_eq_true] at h
    exact silent_arraySubscript ctx layout (silent_of_quiet ctx array h.1) (silent_of_quiet ctx index h.2)
  | .storageByte array index, h => by
    rw [Expr.quiet, Bool.and_eq_true] at h
    exact (silent_of_quiet ctx array h.1).bind fun _ => (silent_of_quiet ctx index h.2).bind fun _ =>
      Logged.silent_pure _
  | .operator _ _ args, h => (silentAll_of_quiet ctx args h).bind fun _ => Logged.silent_pure _
  | .userDefinedOperator _ _ args, h => (silentAll_of_quiet ctx args h).bind fun vs =>
      (silent_forceAll vs).bind fun _ => (Logged.silent_ask _).bind fun _ => Logged.silent_pure _
  | .and left right, h => by
    rw [Expr.quiet, Bool.and_eq_true] at h
    exact silent_shortCircuit false (silent_of_quiet ctx left h.1) (silent_of_quiet ctx right h.2)
  | .or left right, h => by
    rw [Expr.quiet, Bool.and_eq_true] at h
    exact silent_shortCircuit true (silent_of_quiet ctx left h.1) (silent_of_quiet ctx right h.2)
  | .conditionalOperator _ cond left right, h => by
    rw [Expr.quiet, Bool.and_eq_true, Bool.and_eq_true] at h
    exact silent_conditionalOperator (silent_of_quiet ctx cond h.1.1) (silent_of_quiet ctx left h.1.2)
      (silent_of_quiet ctx right h.2)

theorem silentAll_of_quiet (ctx : Context) : ∀ es : List Expr, quietAll es = true → (expressions ctx es).Silent
  | [], _ => Logged.silent_pure _
  | e :: es, h => by
    rw [quietAll, Bool.and_eq_true] at h
    exact (silent_of_quiet ctx e h.1).bind fun _ => (silentAll_of_quiet ctx es h.2).bind fun _ => Logged.silent_pure _

end

/-- What has no effects is found again. -/
theorem foundAgain_of_quiet (h : var.quiet = true) (s : State) : FoundAgain ctx step ty unchecked var s := by
  have hsilent : (locate ctx var).Silent := by
    cases var with
    | «variable» varTy varNo => exact Logged.silent_pure _
    | _ => exact (silent_of_quiet ctx _ h).bind fun v => silent_placeOf _ v
  intro t p s' hp _
  have ht := hsilent s
  rw [hp] at ht
  obtain rfl : t = [] := ht
  exact Logged.run_again hp

/-! ## When both agree -/

theorem run_once_some {new : Nat} (hp : (locate ctx var).run s = ⟨t, some (p, s')⟩)
    (hnew : changed ctx step ty unchecked (s' p) = some new) :
    (incdecOnce ctx loc fixity step ty unchecked var).run s =
      ⟨t ++ [⟨loc, .write p new⟩], some (temp (match fixity with
        | .pre => new
        | .post => s' p), Function.update s' p new)⟩ := by
  rw [incdecOnce, Logged.run_bind_some hp, run_read_bind, Logged.run_ofOption_bind hnew]
  rfl

theorem run_once_none (loc : Nat) (fixity : Fixity)
    (hp : (locate ctx var).run s = ⟨t, some (p, s')⟩)
    (hnew : changed ctx step ty unchecked (s' p) = none) :
    ((incdecOnce ctx loc fixity step ty unchecked var).run s).result = none := by
  rw [incdecOnce, Logged.run_bind_some hp, run_read_bind,
    Logged.run_bind_none (Logged.run_ofOption_none hnew _)]

theorem run_twice_none (loc : Nat) (fixity : Fixity)
    (hp : (locate ctx var).run s = ⟨t, some (p, s')⟩)
    (hnew : changed ctx step ty unchecked (s' p) = none) :
    ((incdecTwice ctx loc fixity step ty unchecked var).run s).result = none := by
  rw [incdecTwice, Logged.run_bind_some hp, run_read_bind]
  cases fixity with
  | pre => rw [Logged.run_bind_none (Logged.run_ofOption_none hnew _)]
  | post =>
    rcases hp' : (locate ctx var).run s' with ⟨t', _ | ⟨p', s''⟩⟩
    · rw [Logged.run_bind_none hp']
    · rw [Logged.run_bind_some hp', Logged.run_bind_none (Logged.run_ofOption_none hnew _)]

/-- The second search for the place decides what is written where. -/
theorem run_twice_some {new : Nat} (hp : (locate ctx var).run s = ⟨t, some (p, s')⟩)
    (hnew : changed ctx step ty unchecked (s' p) = some new) :
    (incdecTwice ctx loc fixity step ty unchecked var).run s =
      (⟨t, some ()⟩ : Traced Event Unit) >>= fun _ => (locate ctx var).run s' >>= fun q =>
        ⟨[⟨loc, .write q.1 new⟩], some (temp (match fixity with
          | .pre => new
          | .post => s' p), Function.update q.2 q.1 new)⟩ := by
  rw [incdecTwice, Logged.run_bind_some hp, run_read_bind, Traced.bind_some]
  cases fixity with
  | pre =>
    rw [Logged.run_ofOption_bind hnew]
    rfl
  | post =>
    rcases hp' : (locate ctx var).run s' with ⟨t', _ | ⟨p', s''⟩⟩
    · rw [Logged.run_bind_none hp', Traced.bind_none]
    · rw [Logged.run_bind_some hp', Logged.run_ofOption_bind hnew]
      rfl

theorem agree_twice_iff (fixity : Fixity) (s : State) :
    Agree ((incdecTwice ctx loc fixity step ty unchecked var).run s) ((incdecOnce ctx loc fixity step ty unchecked var).run s) ↔
      FoundAgain ctx step ty unchecked var s := by
  rcases hp : (locate ctx var).run s with ⟨t, _ | ⟨p, s'⟩⟩
  · refine ⟨fun _ t' p' s'' h => ?_, fun _ => ?_⟩
    · rw [hp] at h
      cases h
    · rw [incdecTwice, incdecOnce, Logged.run_bind_none hp, Logged.run_bind_none hp]
      exact ⟨rfl, fun h => nomatch h⟩
  cases hnew : changed ctx step ty unchecked (s' p) with
  | none =>
    have h₁ := run_once_none loc fixity hp hnew
    have h₂ := run_twice_none loc fixity hp hnew
    refine ⟨fun _ t' p' s'' h hsome => ?_, fun _ => ⟨by rw [h₁, h₂], fun h => ?_⟩⟩
    · rw [hp] at h
      cases h
      rw [hnew] at hsome
      cases hsome
    · rw [h₂] at h
      cases h
  | some new =>
    rw [run_twice_some hp hnew, run_once_some hp hnew, Traced.bind_some]
    rcases hp' : (locate ctx var).run s' with ⟨t', _ | ⟨p', s''⟩⟩
    · rw [Traced.bind_none]
      refine ⟨fun h => (nomatch h.1), fun h => ?_⟩
      have := h t p s' hp (by rw [hnew]; rfl)
      rw [hp'] at this
      cases this
    · rw [Traced.bind_some]
      constructor
      · rintro ⟨-, htrace⟩ t₁ p₁ s₁ h -
        rw [hp] at h
        cases h
        have hwrites : t' ++ [(⟨loc, .write p' new⟩ : Event)] = [⟨loc, .write p new⟩] := List.append_cancel_left (htrace rfl)
        obtain ⟨rfl, hwrite⟩ := (List.append_eq_singleton_iff.mp hwrites).resolve_right (by simp)
        obtain rfl : p' = p := by
          simpa using hwrite
        obtain rfl := (locate ctx var).quiet s' p' s'' hp'
        exact hp'
      · intro h
        have := h t p s' hp (by rw [hnew]; rfl)
        rw [hp'] at this
        cases this
        exact ⟨rfl, fun _ => rfl⟩

namespace Sample

def noCalls : Context where
  ns := { addressLength := 32, valueLength := 16, enumValues := fun _ => 0 }
  slotBits := 256
  calls _ _ _ := none
  keccak256 _ := 0
  removed _ := false

/-- `uint8[3] memory a`, which is at 100, and `uint8 i`, which is 0 -/
def elements : State := fun p =>
  match p with
  | .variable 0 => 100
  | .memory 100 => 5
  | .memory 101 => 7
  | _ => 0

def element (index : Expr) : Expr :=
  .subscript (.ref (.value (.uint 8))) (.memory (some 3) 1) (.variable (.other 1) 0) index

def nextIndex : Expr := .incdec 1 .post .increment (.uint 8) false (.variable (.value (.uint 8)) 1)

theorem modifiable_element (index : Expr) : Modifiable (.uint 8) (element index) :=
  ⟨⟨8, le_refl 8, .inr rfl⟩, .inl rfl⟩

end Sample

end Solang.Codegen.Evaluation
