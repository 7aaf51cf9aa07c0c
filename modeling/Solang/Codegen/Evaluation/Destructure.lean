import Solang.Codegen.Evaluation.IncDec
import Solang.Lib.Except

/-!
# Destructuring assignments

`destructure` and `try_load_and_cast` of `codegen/statements/mod.rs`, for components of value types, and what a tuple
assignment means. Function calls on the right, whose results are values, are left out.

The right sides are put into temporaries one after another. What is a reference to memory or to storage is loaded only
when its turn to be assigned comes, after the assignments before it.
-/

namespace Solang.Codegen.Evaluation

/-- A component on the left, with its location -/
inductive DestructureField where
  | none
  | variableDecl (loc : Nat) (varNo : Nat) (ty : Ty)
  | expression (loc : Nat) (left : Expr)

/-- The right side: `List`, or a `ConditionalOperator` between right sides -/
inductive Values where
  | list (es : List Expr)
  | conditionalOperator (cond : Expr) (left right : Values)

/-- Why there is no code that assigns the value: `runtime_cast` of the emitter has no arm for the types, or a value is
stored whose size is not that of the place. -/
inductive Fault where
  | rejected
  | mistyped
  deriving DecidableEq, Repr

variable (ctx : Context)

/-! ## The code -/

/-- The value that a conversion between value types computes -/
def castValue (source target : Conversions.Ty) (v : Nat) : Option Nat :=
  match (Conversions.castCodegen ctx.ns source target).eval ctx.ns source v with
  | .value n => some n
  | _ => none

/-- Whether the emitter has instructions for the conversion; this depends on the types only. -/
def castAccepted (source target : Conversions.Ty) : Bool :=
  (Conversions.castCodegen ctx.ns source target).eval ctx.ns source 0 != .rejected

/-- What a cast does to a value; only the value types are converted. -/
def convert (source target : Ty) (v : Nat) : Option Nat :=
  match source, target with
  | .value a, .value b => castValue ctx a b v
  | _, _ => some v

/-- `Expression::cast` of a value: the type of the result, and what it does. Nothing is cast to a reference to storage;
a cast to a reference to memory is a `Cast` that the emitter rejects. -/
def castTo (source target : Ty) : Except Fault (Ty × (Nat → Option Nat)) :=
  match source, target with
  | _, .storageRef _ => .ok (source, convert ctx source target)
  | .value a, .value b => if castAccepted ctx a b then .ok (target, convert ctx source target) else .error .rejected
  | _, _ => if source = target then .ok (target, convert ctx source target) else .error .rejected

/-- `try_load_and_cast` of a temporary of the type `source`. What is loaded from storage is not cast. -/
def tryLoadAndCast (source target : Ty) : Except Fault (Ty × (Nat → Code Tree)) :=
  match source, target with
  | .storageRef _, .storageRef _ => .ok (source, fun v => pure (temp v))
  | .storageRef ty, _ => .ok (ty, fun v => loadStorage (temp v))
  | .ref ty, _ => do
    let (ty, convert) ← castTo ctx ty target
    .ok (ty, fun v => pure fun s => (load (temp v) s).bind convert)
  | ty, _ => do
    let (ty, convert) ← castTo ctx ty target
    .ok (ty, fun v => pure fun s => (temp v s).bind convert)

/-- Whether a value of the one type can be stored as one of the other. A reference to storage is as wide as a slot
number. -/
def sameSize : Ty → Ty → Bool
  | .value a, .value b => a.bits ctx.ns == b.bits ctx.ns
  | .storageRef _, .value b => ctx.slotBits == b.bits ctx.ns
  | .other a, .other b => a == b
  | _, _ => false

def Ty.deref : Ty → Ty
  | .ref ty => ty
  | .storageRef ty => ty
  | ty => ty

/-- `assign_single`, with the two ways to set an element -/
def assignTo (loc : Nat) (left : Expr) (cfgRight : Tree) : Code Tree :=
  match left with
  | .storageByte array index => assignStorageByte loc (expression ctx array) (expression ctx index) cfgRight
  | _ => assignSingle loc left (expression ctx left) cfgRight

/-- Whether the component is not assigned: it is empty, or the target is never read. -/
def DestructureField.skipped : DestructureField → Bool
  | .none => true
  | .variableDecl _ varNo _ => ctx.removed varNo
  | .expression _ left => shouldRemoveAssignment ctx left

/-- One turn of the loop of `destructure`, with a temporary of the type `source` -/
def assignField (field : DestructureField) (source : Ty) : Except Fault (Nat → Code Unit) :=
  if field.skipped ctx then .ok fun _ => pure ()
  else
    match field with
    | .none => .ok fun _ => pure ()
    | .variableDecl loc varNo ty => do
      let (castTy, value) ← tryLoadAndCast ctx source ty
      if sameSize ctx castTy ty then
        .ok fun v => do
          let expr ← value v
          set loc varNo expr
      else .error .mistyped
    | .expression loc left => do
      let (castTy, value) ← tryLoadAndCast ctx source left.ty
      if sameSize ctx castTy left.ty.deref then
        .ok fun v => do
          let expr ← value v
          let _ ← assignTo ctx loc left expr
          pure ()
      else .error .mistyped

/-- The loop of `destructure` over the fields, which takes one value for each -/
def assignFields : List DestructureField → List Ty → Except Fault (List Nat → Code Unit)
  | [], _ => .ok fun _ => pure ()
  | _ :: _, [] => .error .rejected
  | field :: fields, source :: sources => do
    let assign ← assignField ctx field source
    let assigns ← assignFields fields sources
    .ok fun
      | [] => pure ()
      | v :: vs => do
        assign v
        assigns vs

/-- The temporaries for the right sides -/
def listValues : List Expr → Code (List Nat)
  | [] => pure []
  | e :: es => do
    let expr ← expression ctx e
    let v ← force expr
    let vs ← listValues es
    pure (v :: vs)

def destructure (fields : List DestructureField) : Values → Except Fault (Code Unit)
  | .list es => do
    let assign ← assignFields ctx fields (es.map Expr.ty)
    .ok do
      let vs ← listValues ctx es
      assign vs
  | .conditionalOperator cond left right => do
    let left ← destructure fields left
    let right ← destructure fields right
    .ok do
      let cond ← expression ctx cond
      let c ← force cond
      if c ≠ 0 then left else right

/-! ## What a tuple assignment means -/

/-- Where the component is assigned to -/
def DestructureField.place : DestructureField → Code Place
  | .none => .abort
  | .variableDecl _ varNo _ => pure (.variable varNo)
  | .expression _ (.storageByte array index) => do
    let array ← Evaluation.expression ctx array
    let index ← Evaluation.expression ctx index
    let slot ← force array
    let offset ← force index
    let length ← read (.storage slot)
    if length ≤ offset then .abort else pure (.storageByte slot offset)
  | .expression _ left => locate ctx left

def DestructureField.ty : DestructureField → Ty
  | .none => .other 0
  | .variableDecl _ _ ty => ty
  | .expression _ left => left.ty.deref

def DestructureField.loc : DestructureField → Nat
  | .none => 0
  | .variableDecl loc _ _ => loc
  | .expression loc _ => loc

/-- The value of a right side in a state; a literal stands for itself, also when it was resolved to the type of a
reference. -/
def content (e : Expr) (v : Nat) (s : State) : Nat :=
  match e, e.ty with
  | .number _ _, _ => v
  | _, .ref _ => s (.memory v)
  | _, .storageRef _ => s (.storage v)
  | _, _ => v

/-- The value, converted to the type of the place -/
def received (field : DestructureField) (e : Expr) (v : Nat) (s : State) : Nat :=
  match e.ty.deref, field.ty with
  | .value source, .value target => Conversions.converted ctx.ns source target (content e v s)
  | _, _ => content e v s

/-- One component after another receives the value that its right side had in the state `s₀`. -/
def receiveFields (s₀ : State) : List DestructureField → List Expr → List Nat → Code Unit
  | field :: fields, e :: es, v :: vs => do
    if field.skipped ctx then pure ()
    else do
      let p ← field.place ctx
      write field.loc p (received ctx field e v s₀)
    receiveFields s₀ fields es vs
  | _, _, _ => pure ()

/-- The right sides are evaluated; the state after that is the one whose values are assigned. -/
def simultaneous (fields : List DestructureField) : Values → Code Unit
  | .list es => do
    let vs ← listValues ctx es
    let s₀ ← Logged.ask some
    receiveFields ctx s₀ fields es vs
  | .conditionalOperator cond left right => do
    let cond ← expression ctx cond
    let c ← force cond
    if c ≠ 0 then simultaneous fields left else simultaneous fields right

/-! ## When the code does that -/

/-- The type of what is assigned to: of a variable, or a reference -/
def DestructureField.target : DestructureField → Ty
  | .none => .other 0
  | .variableDecl _ _ ty => ty
  | .expression _ left => left.ty

/-- The kinds of components for which there is code: what is in memory is not assigned except from storage, and what is
stored, or was loaded from storage, has to have the size of the place already. -/
def supported (target source : Ty) : Bool :=
  match target, source with
  | .storageRef ty, .ref from' => sameSize ctx from' ty
  | .storageRef ty, source => sameSize ctx source ty
  | .ref ty, .storageRef from' => sameSize ctx from' ty
  | .ref _, _ => false
  | target, .storageRef from' => sameSize ctx from' target
  | .value b, .ref (.value a) => castAccepted ctx a b
  | .value b, .value a => castAccepted ctx a b
  | target, .ref from' => from' == target
  | target, source => source == target

/-- The value that is written: `s` is the state when the turn of the component comes, `s₁` the state when its left side
was evaluated as well. From storage to storage it is the number of the slot. -/
def written (target source : Ty) (v : Nat) (s s₁ : State) : Option Nat :=
  match source, target with
  | .storageRef _, .storageRef _ => some v
  | .storageRef _, _ => some (s (.storage v))
  | .ref ty, target => convert ctx ty target (s₁ (.memory v))
  | ty, target => convert ctx ty target v

/-- Each component, when its turn comes, still has the value of the state `s₀`, and its conversion is exact: what is
written is what should be received. -/
def KeepsValues (s₀ : State) : List DestructureField → List Expr → List Nat → State → Prop
  | field :: fields, e :: es, v :: vs, s =>
    if field.skipped ctx then KeepsValues s₀ fields es vs s
    else ∀ t p s₁, (field.place ctx).run s = ⟨t, some (p, s₁)⟩ →
      written ctx field.target e.ty v s s₁ = some (received ctx field e v s₀) ∧
        KeepsValues s₀ fields es vs (Function.update s₁ p (received ctx field e v s₀))
  | _, _, _, _ => True

/-- What is declared, and a variable that is assigned to, is no reference itself. -/
def DestructureField.OfValueType : DestructureField → Prop
  | .none => True
  | .variableDecl _ _ ty => ty.deref = ty
  | .expression _ (.variable ty _) => ty.deref = ty
  | .expression _ _ => True

namespace Values

/-- The fields are of value types, and `sema` has checked that there are as many values as fields. -/
def Matches (fields : List DestructureField) : Values → Prop
  | list es => es.length = fields.length ∧ ∀ field ∈ fields, field.OfValueType
  | conditionalOperator _ left right => left.Matches fields ∧ right.Matches fields

def Supported (fields : List DestructureField) : Values → Prop
  | list es => ∀ p ∈ fields.zip es, p.1.skipped ctx = true ∨ supported ctx p.1.target p.2.ty = true
  | conditionalOperator _ left right => left.Supported fields ∧ right.Supported fields

def Keeps (fields : List DestructureField) : Values → State → Prop
  | list es, s => ∀ t vs s₀, (listValues ctx es).run s = ⟨t, some (vs, s₀)⟩ → KeepsValues ctx s₀ fields es vs s₀
  | conditionalOperator cond left right, s => ∀ t c s',
    (expression ctx cond >>= force).run s = ⟨t, some (c, s')⟩ →
      if c ≠ 0 then left.Keeps fields s' else right.Keeps fields s'

end Values

/-- There is code for the statement, and it does what the statement means. -/
def Assigns (fields : List DestructureField) (e : Values) (s : State) : Prop :=
  ∃ code, destructure ctx fields e = .ok code ∧ code.run s = (simultaneous ctx fields e).run s

end Solang.Codegen.Evaluation

/-!
## When a tuple assignment is simultaneous

One turn of the loop finds the place and writes the value that was found for the component. A run is that of the tuple
assignment if and only if each turn writes what should be received.
-/

namespace Solang.Codegen.Evaluation

variable {ctx : Context} {loc : Nat}

/-! ### Reads and places -/

/-- A value that is found, and then written to the place -/
def writeFound (loc : Nat) (p : Place) (x : Option Nat) : Code Unit := do
  let x ← Logged.ofOption x
  write loc p x

theorem storeRef_temp (ty : Ty) (dest : Tree) (new : Nat) :
    storeRef loc ty dest (temp new) = placeOf ty dest >>= fun p => write loc p new := by
  cases ty with
  | ref _ => simp only [storeRef, store, placeOf, force_temp, map_eq_pure_bind, bind_assoc, pure_bind]
  | storageRef _ => simp only [storeRef, setStorage, placeOf, force_temp, map_eq_pure_bind, bind_assoc, pure_bind]
  | _ =>
    ext1
    rfl

theorem run_locate_of_ne {left : Expr} (h : ∀ ty varNo, left ≠ .variable ty varNo) (s : State) :
    (locate ctx left).run s = (expression ctx left).run s >>= fun q => (placeOf left.ty q.1).run q.2 := by
  rw [locate_reference h, Logged.run_bind]

theorem run_force_write (tree : Tree) (p : Place) (s : State) :
    (force tree >>= fun pos => write loc p pos).run s = (writeFound loc p (tree s)).run s := by
  cases h : tree s with
  | none => rw [force, writeFound, Logged.run_bind_none (Logged.run_ask_none h),
      Logged.run_bind_none (Logged.run_ofOption_none rfl s)]
  | some x => rw [force, Logged.run_ask_bind h, writeFound, Logged.run_ofOption_bind rfl]

/-- The value is found before the place is, or after it. -/
theorem run_place_write (tree : Tree) {place : Code Place} (h : place.Silent) (s : State) :
    (force tree >>= fun pos => place >>= fun p => write loc p pos).run s =
      place.run s >>= fun q => (writeFound loc q.1 (tree q.2)).run q.2 := by
  have hcomm : (force tree >>= fun pos => place >>= fun p => write loc p pos) =
      place >>= fun p => force tree >>= fun pos => write loc p pos := h.ask_comm tree fun pos p => write loc p pos
  rw [hcomm, Logged.run_bind]
  simp only [run_force_write]

theorem run_assignSingle {left : Expr} (h : ∀ ty varNo, left ≠ .variable ty varNo)
    (hbyte : ∀ array index, left ≠ .storageByte array index) (tree : Tree) (s : State) :
    (assignTo ctx loc left tree >>= fun _ => (pure () : Code Unit)).run s =
      (locate ctx left).run s >>= fun q => (writeFound loc q.1 (tree q.2)).run q.2 := by
  have hcode : (assignTo ctx loc left tree >>= fun _ => (pure () : Code Unit)) =
      expression ctx left >>= fun dest => force tree >>= fun pos => placeOf left.ty dest >>= fun p => write loc p pos := by
    have heq : assignTo ctx loc left tree = (do
        let dest ← expression ctx left
        let pos ← force tree
        storeRef loc left.ty dest (temp pos)
        pure (temp pos)) := by
      cases left with
      | «variable» ty varNo => exact absurd rfl (h ty varNo)
      | storageByte array index => exact absurd rfl (hbyte array index)
      | _ => rfl
    rw [heq]
    simp only [bind_assoc, pure_bind, storeRef_temp]
    rfl
  rw [hcode, Logged.run_bind, run_locate_of_ne h, Traced.bind_assoc]
  simp only [run_place_write tree (silent_placeOf left.ty _)]

/-- Where a byte in storage is, which has to be within the bytes -/
def bytePlace (array index : Tree) : Code Place := do
  let slot ← force array
  let offset ← force index
  let length ← read (.storage slot)
  if length ≤ offset then .abort else pure (.storageByte slot offset)

theorem silent_bytePlace (array index : Tree) : (bytePlace array index).Silent := by
  refine (silent_force _).bind fun slot => (silent_force _).bind fun offset => (silent_read _).bind fun length => ?_
  split
  · exact Logged.silent_ask _
  · exact Logged.silent_pure _

theorem run_assignStorageByte (array index : Expr) (tree : Tree) (s : State) :
    (assignTo ctx loc (.storageByte array index) tree >>= fun _ => (pure () : Code Unit)).run s =
      ((DestructureField.expression loc (.storageByte array index)).place ctx).run s >>= fun q =>
        (writeFound loc q.1 (tree q.2)).run q.2 := by
  have hcheck : ∀ length offset slot pos : Nat,
      ((if length ≤ offset then Logged.abort else do
          write loc (.storageByte slot offset) pos
          pure (temp pos)) >>= fun _ => (pure () : Code Unit)) =
        (if length ≤ offset then Logged.abort else pure (.storageByte slot offset)) >>= fun p => write loc p pos := by
    intro length offset slot pos
    split
    · rfl
    · simp only [bind_assoc, pure_bind]
      rfl
  have hcode : (assignTo ctx loc (.storageByte array index) tree >>= fun _ => (pure () : Code Unit)) =
      expression ctx array >>= fun a => expression ctx index >>= fun i =>
        force tree >>= fun pos => bytePlace a i >>= fun p => write loc p pos := by
    simp only [assignTo, assignStorageByte, bytePlace, bind_assoc, hcheck]
  have hplace : (DestructureField.expression loc (.storageByte array index)).place ctx =
      expression ctx array >>= fun a => expression ctx index >>= fun i => bytePlace a i := rfl
  rw [hcode, hplace, Logged.run_bind, Logged.run_bind, Traced.bind_assoc]
  simp only [Logged.run_bind (expression ctx index), Traced.bind_assoc, run_place_write tree (silent_bytePlace _ _)]

theorem run_assignTo (left : Expr) (tree : Tree) (s : State) :
    (assignTo ctx loc left tree >>= fun _ => (pure () : Code Unit)).run s =
      ((DestructureField.expression loc left).place ctx).run s >>= fun q => (writeFound loc q.1 (tree q.2)).run q.2 := by
  cases left with
  | «variable» ty varNo =>
    have hcode : (assignTo ctx loc (.variable ty varNo) tree >>= fun _ => (pure () : Code Unit)) =
        force tree >>= fun pos => write loc (.variable varNo) pos := by
      simp only [assignTo, assignSingle, set, bind_assoc, pure_bind]
      rfl
    rw [hcode, run_force_write]
    rfl
  | storageByte array index => exact run_assignStorageByte array index tree s
  | _ => exact run_assignSingle (by rintro _ _ ⟨⟩) (by rintro _ _ ⟨⟩) tree s

/-! ### One turn -/

variable {source ty : Ty} {field : DestructureField}

theorem castTo_ok {target : Ty} {f : Nat → Option Nat} (h : castTo ctx source target = .ok (ty, f)) :
    f = convert ctx source target := by
  unfold castTo at h
  split at h
  · cases h
    rfl
  · split at h
    · cases h
      rfl
    · cases h
  · split at h
    · cases h
      rfl
    · cases h

/-- What is loaded and cast is the value that `written` describes. -/
theorem run_tryLoadAndCast {target : Ty} {value : Nat → Code Tree}
    (h : tryLoadAndCast ctx source target = .ok (ty, value)) (v : Nat) (s : State) :
    (value v).run s = ⟨[], some (fun s₁ => written ctx target source v s s₁, s)⟩ := by
  cases source with
  | storageRef from' =>
    cases target <;>
      · cases h
        rfl
  | ref from' =>
    obtain ⟨⟨castTy, f⟩, hcast, hok⟩ := Except.bind_eq_ok_iff.mp h
    cases hok
    rw [castTo_ok hcast]
    rfl
  | _ =>
    obtain ⟨⟨castTy, f⟩, hcast, hok⟩ := Except.bind_eq_ok_iff.mp h
    cases hok
    rw [castTo_ok hcast]
    rfl

/-- One turn finds the place, and writes there. -/
theorem run_assignField {assign : Nat → Code Unit} (hskip : field.skipped ctx = false)
    (h : assignField ctx field source = .ok assign) (v : Nat) (s : State) :
    (assign v).run s = (field.place ctx).run s >>= fun q =>
      (writeFound field.loc q.1 (written ctx field.target source v s q.2)).run q.2 := by
  rw [assignField.eq_def, if_neg (by simp [hskip])] at h
  cases field with
  | none => cases hskip
  | variableDecl loc varNo ty =>
    obtain ⟨⟨castTy, value⟩, hcast, hok⟩ := Except.bind_eq_ok_iff.mp h
    dsimp only at hok
    split at hok
    · cases hok
      rw [Logged.run_bind_some (run_tryLoadAndCast hcast v s)]
      show (set loc varNo _).run s = _
      rw [set, run_force_write]
      rfl
    · cases hok
  | expression loc left =>
    obtain ⟨⟨castTy, value⟩, hcast, hok⟩ := Except.bind_eq_ok_iff.mp h
    dsimp only at hok
    split at hok
    · cases hok
      rw [Logged.run_bind_some (run_tryLoadAndCast hcast v s)]
      exact run_assignTo left _ s
    · cases hok

/-! ### Which components have code -/

theorem supported_iff (source target : Ty) :
    (∃ ty value, tryLoadAndCast ctx source target = .ok (ty, value) ∧ sameSize ctx ty target.deref = true) ↔
      supported ctx target source = true := by
  cases target with
  | storageRef t => cases source <;> simp [tryLoadAndCast, castTo, supported, Ty.deref, bind, Except.bind]
  | ref t =>
    cases source with
    | ref from' =>
      have hsize : sameSize ctx (.ref t) t = false := by
        cases t <;> rfl
      by_cases h : from' = .ref t <;> simp [tryLoadAndCast, castTo, supported, Ty.deref, bind, Except.bind, h, hsize]
    | _ => simp [tryLoadAndCast, castTo, supported, Ty.deref, bind, Except.bind]
  | value b =>
    cases source with
    | value a =>
      by_cases h : castAccepted ctx a b = true <;>
        simp [tryLoadAndCast, castTo, supported, Ty.deref, sameSize, bind, Except.bind, h]
    | ref from' =>
      cases from' with
      | value a =>
        by_cases h : castAccepted ctx a b = true <;>
          simp [tryLoadAndCast, castTo, supported, Ty.deref, sameSize, bind, Except.bind, h]
      | _ => simp [tryLoadAndCast, castTo, supported, bind, Except.bind]
    | _ => simp [tryLoadAndCast, castTo, supported, Ty.deref, bind, Except.bind]
  | other n =>
    cases source with
    | other m =>
      by_cases h : m = n <;> simp [tryLoadAndCast, castTo, supported, Ty.deref, sameSize, bind, Except.bind, h]
    | ref from' =>
      by_cases h : from' = .other n <;>
        simp [tryLoadAndCast, castTo, supported, Ty.deref, sameSize, bind, Except.bind, h]
    | _ => simp [tryLoadAndCast, castTo, supported, Ty.deref, bind, Except.bind]

theorem deref_target (h : field.OfValueType) : field.target.deref = field.ty := by
  cases field with
  | none => rfl
  | variableDecl loc varNo ty => exact h
  | expression loc left => rfl

theorem sized_ok_iff {x : Except Fault (Ty × (Nat → Code Tree))}
    {k : (Nat → Code Tree) → Nat → Code Unit} :
    (∃ assign, (x >>= fun p => if sameSize ctx p.1 ty then .ok (k p.2) else .error .mistyped) = .ok assign) ↔
      ∃ castTy value, x = .ok (castTy, value) ∧ sameSize ctx castTy ty = true := by
  constructor
  · rintro ⟨assign, h⟩
    obtain ⟨⟨castTy, value⟩, hcast, hok⟩ := Except.bind_eq_ok_iff.mp h
    dsimp only at hok
    split at hok
    · exact ⟨castTy, value, hcast, ‹_›⟩
    · cases hok
  · rintro ⟨castTy, value, rfl, hsize⟩
    exact ⟨k value, if_pos hsize⟩

theorem assignField_ok_iff (h : field.OfValueType) (source : Ty) :
    (∃ assign, assignField ctx field source = .ok assign) ↔
      field.skipped ctx = true ∨ supported ctx field.target source = true := by
  by_cases hskip : field.skipped ctx = true
  · rw [assignField.eq_def, if_pos hskip]
    exact ⟨fun _ => .inl hskip, fun _ => ⟨_, rfl⟩⟩
  rw [assignField.eq_def, if_neg hskip, or_iff_right hskip, ← supported_iff, deref_target h]
  cases field with
  | none => exact absurd rfl hskip
  | variableDecl loc varNo ty =>
    exact sized_ok_iff (k := fun value v => do
      let expr ← value v
      set loc varNo expr)
  | expression loc left =>
    exact sized_ok_iff (k := fun value v => do
      let expr ← value v
      let _ ← assignTo ctx loc left expr
      pure ())

/-! ### The loop -/

variable {fields : List DestructureField} {es : List Expr}

theorem assignFields_ok_iff (hlen : es.length = fields.length) (h : ∀ field ∈ fields, field.OfValueType) :
    (∃ assign, assignFields ctx fields (es.map Expr.ty) = .ok assign) ↔
      ∀ p ∈ fields.zip es, p.1.skipped ctx = true ∨ supported ctx p.1.target p.2.ty = true := by
  induction fields generalizing es with
  | nil => simp [assignFields]
  | cons field fields ih =>
    cases es with
    | nil => cases hlen
    | cons e es =>
      have ih := ih (Nat.succ.inj hlen) fun f hf => h f (List.mem_cons_of_mem _ hf)
      have hfield : (∃ assign, assignField ctx field e.ty = .ok assign) ↔ _ :=
        assignField_ok_iff (h field List.mem_cons_self) e.ty
      simp only [List.zip_cons_cons, List.forall_mem_cons, ← ih, ← hfield, List.map_cons, assignFields]
      constructor
      · rintro ⟨assign, h⟩
        obtain ⟨a, ha, h⟩ := Except.bind_eq_ok_iff.mp h
        obtain ⟨as, has, -⟩ := Except.bind_eq_ok_iff.mp h
        exact ⟨⟨a, ha⟩, ⟨as, has⟩⟩
      · rintro ⟨⟨a, ha⟩, ⟨as, has⟩⟩
        rw [ha, has]
        exact ⟨_, rfl⟩

/-- Two runs that write and go on are the same if and only if the value is the same, and what follows. -/
theorem write_then_eq_iff (loc : Nat) {p : Place} {x : Option Nat} {y : Nat} {s : State} {f g : State → Traced Event (Unit × State)} :
    ((writeFound loc p x).run s >>= fun r => f r.2) = ((write loc p y).run s >>= fun r => g r.2) ↔
      x = some y ∧ f (Function.update s p y) = g (Function.update s p y) := by
  cases x with
  | none =>
    refine ⟨fun h => ?_, fun h => by cases h.1⟩
    cases congrArg Traced.trace h
  | some x =>
    rw [writeFound, Logged.run_ofOption_bind rfl]
    constructor
    · intro h
      have hx : x = y := by
        have := congrArg (fun t => t.trace.head?) h
        simpa [write, Logged.perform, Traced.bind_some] using this
      subst hx
      exact ⟨rfl, Traced.bind_some_inj.mp h⟩
    · rintro ⟨hx, h⟩
      obtain rfl := Option.some.inj hx
      exact Traced.bind_some_inj.mpr h

/-- The run of the loop is that of the tuple assignment if and only if the components keep their values. -/
theorem run_assignFields_iff (s₀ : State) {assign : List Nat → Code Unit}
    (h : assignFields ctx fields (es.map Expr.ty) = .ok assign) (vs : List Nat) (s : State) :
    (assign vs).run s = (receiveFields ctx s₀ fields es vs).run s ↔ KeepsValues ctx s₀ fields es vs s := by
  induction fields generalizing es assign vs s with
  | nil =>
    cases h
    simp [receiveFields, KeepsValues]
  | cons field fields ih =>
    cases es with
    | nil => cases h
    | cons e es =>
      obtain ⟨a, ha, h⟩ := Except.bind_eq_ok_iff.mp h
      obtain ⟨as, has, h⟩ := Except.bind_eq_ok_iff.mp h
      cases h
      cases vs with
      | nil => simp [receiveFields, KeepsValues]
      | cons v vs =>
        by_cases hskip : field.skipped ctx = true
        · have hfield : assignField ctx field e.ty = .ok fun _ => pure () := by
            rw [assignField.eq_def, if_pos hskip]
          rw [hfield] at ha
          cases ha
          rw [KeepsValues, if_pos hskip, ← ih has vs s, receiveFields, if_pos hskip]
          rfl
        · rw [KeepsValues, if_neg hskip, receiveFields, if_neg hskip]
          rw [Logged.run_bind, Logged.run_bind, run_assignField (by simpa using hskip) ha, Traced.bind_assoc]
          rcases hp : (field.place ctx).run s with ⟨t, _ | ⟨p, s₁⟩⟩
          · refine ⟨fun _ t' p' s' h => (nomatch h), fun _ => rfl⟩
          · have hwrite := write_then_eq_iff field.loc (p := p) (x := written ctx field.target e.ty v s s₁)
              (y := received ctx field e v s₀) (s := s₁) (f := (as vs).run)
              (g := (receiveFields ctx s₀ fields es vs).run)
            rw [ih has vs] at hwrite
            refine Iff.trans Traced.bind_some_inj (hwrite.trans ⟨fun h t' p' s' h' => ?_, fun h => h t p s₁ rfl⟩)
            cases h'
            exact h

/-! ### The statement -/

/-- There is code for the statement if and only if there is for all its components. -/
theorem destructure_ok_iff {e : Values} (h : e.Matches fields) :
    (∃ code, destructure ctx fields e = .ok code) ↔ e.Supported ctx fields := by
  induction e with
  | list es =>
    rw [Values.Supported, ← assignFields_ok_iff h.1 h.2]
    constructor
    · rintro ⟨code, h⟩
      obtain ⟨assign, ha, -⟩ := Except.bind_eq_ok_iff.mp h
      exact ⟨assign, ha⟩
    · rintro ⟨assign, ha⟩
      rw [destructure, ha]
      exact ⟨_, rfl⟩
  | conditionalOperator cond left right ihl ihr =>
    rw [Values.Supported, ← ihl h.1, ← ihr h.2]
    constructor
    · rintro ⟨code, h⟩
      obtain ⟨l, hl, h⟩ := Except.bind_eq_ok_iff.mp h
      obtain ⟨r, hr, -⟩ := Except.bind_eq_ok_iff.mp h
      exact ⟨⟨l, hl⟩, ⟨r, hr⟩⟩
    · rintro ⟨⟨l, hl⟩, ⟨r, hr⟩⟩
      rw [destructure, hl, hr]
      exact ⟨_, rfl⟩

theorem run_destructure_iff {e : Values} {code : Code Unit} (h : destructure ctx fields e = .ok code) (s : State) :
    code.run s = (simultaneous ctx fields e).run s ↔ e.Keeps ctx fields s := by
  induction e generalizing code s with
  | list es =>
    obtain ⟨assign, ha, h⟩ := Except.bind_eq_ok_iff.mp h
    cases h
    rw [simultaneous, Logged.run_bind, Logged.run_bind, Values.Keeps]
    rcases hvs : (listValues ctx es).run s with ⟨t, _ | ⟨vs, s₀⟩⟩
    · refine ⟨fun _ t' vs' s' h => (nomatch h), fun _ => rfl⟩
    · refine Iff.trans Traced.bind_some_inj ((run_assignFields_iff s₀ ha vs s₀).trans ?_)
      refine ⟨fun h t' vs' s' h' => ?_, fun h => h t vs s₀ rfl⟩
      cases h'
      exact h
  | conditionalOperator cond left right ihl ihr =>
    obtain ⟨l, hl, h⟩ := Except.bind_eq_ok_iff.mp h
    obtain ⟨r, hr, h⟩ := Except.bind_eq_ok_iff.mp h
    cases h
    have hcode : (do
        let cond ← expression ctx cond
        let c ← force cond
        if c ≠ 0 then l else r) = (expression ctx cond >>= force) >>= fun c => if c ≠ 0 then l else r := by
      rw [bind_assoc]
    have hmeaning : simultaneous ctx fields (.conditionalOperator cond left right) =
        (expression ctx cond >>= force) >>= fun c =>
          if c ≠ 0 then simultaneous ctx fields left else simultaneous ctx fields right := by
      rw [simultaneous, bind_assoc]
    rw [hcode, hmeaning, Logged.run_bind (expression ctx cond >>= force), Logged.run_bind (expression ctx cond >>= force),
      Values.Keeps]
    rcases hc : (expression ctx cond >>= force).run s with ⟨t, _ | ⟨c, s'⟩⟩
    · refine ⟨fun _ t' c' s' h => (nomatch h), fun _ => rfl⟩
    · refine Iff.trans Traced.bind_some_inj ?_
      have hbranch : (if c ≠ 0 then l else r).run s' = (if c ≠ 0 then simultaneous ctx fields left
          else simultaneous ctx fields right).run s' ↔
          if c ≠ 0 then left.Keeps ctx fields s' else right.Keeps ctx fields s' := by
        split
        · exact ihl hl s'
        · exact ihr hr s'
      refine hbranch.trans ⟨fun h t' c' s'' h' => ?_, fun h => h t c s' rfl⟩
      cases h'
      exact h

namespace Sample

def int32 : Ty := .value (.int 32)

def uint256 : Ty := .value (.uint 256)

/-- `int32 a` and `b`, which are 102 and 3; `uint256 s` and `t` in storage, which are 7 and 9 -/
def swapped : State := fun p =>
  match p with
  | .variable 0 => 102
  | .variable 1 => 3
  | .storage 0 => 7
  | .storage 1 => 9
  | _ => 0

end Sample

end Solang.Codegen.Evaluation
