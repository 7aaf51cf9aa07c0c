import Solang.Sema.BaseArguments

/-!
# Calls of base constructors

The part of `function_cfg` that calls the base constructors from the constructor of the contract that
is created. The arguments are evaluated first, from the derived contracts to their bases, and each is
kept in the variable of its parameter; then the constructors are called, bases first, with what the
variables hold. A parameter without a name has no variable: its argument is `Poison`, which cannot be
emitted.

What an argument expression computes is the function `eval`, and what a constructor does to the state
of the contract is `invoke`; its own variables are not those of the caller.
-/

namespace Solang.Codegen

open Relation Fuel Ways Solang.Sema

/-- `set none` are the instructions of an expression whose value is not kept. -/
inductive BaseInstr (n m : Nat) where
  | set (res : Option Nat) (expr : Argument n m)
  | call (constructorNo : Fin m) (args : List (Option Nat))

/-- The instructions so far, and the arguments that wait for their call. -/
structure BaseCalls (n m : Nat) where
  code : List (BaseInstr n m)
  genBaseArgs : Fin n → Option (Fin m × List (Option Nat))

section Generate

variable {n m : Nat} (h : Hierarchy n m)

def evaluateArgs (c : Fin n) (baseArgs : Fin n → Option (BaseOrModifier n m)) (g : BaseCalls n m)
    (b : Fin n) : BaseCalls n m :=
  if b = c then g
  else
    match baseArgs b with
    | none => g
    | some a =>
      let arguments := (h.functions a.callingConstructorNo).arguments
      { code := g.code ++ List.zipWith BaseInstr.set arguments a.args
        genBaseArgs := Function.update g.genBaseArgs b (some (a.callingConstructorNo, arguments)) }

def callBase (c : Fin n) (g : BaseCalls n m) (b : Fin n) : BaseCalls n m :=
  if b = c then g
  else
    match g.genBaseArgs b with
    | some (k, args) =>
      { code := g.code ++ [.call k args]
        genBaseArgs := Function.update g.genBaseArgs b none }
    | none =>
      match h.noArgsConstructor b with
      | some k => { g with code := g.code ++ [.call k []] }
      | none => g

/-- The calls in the constructor `k` of `c`. Collecting the arguments is asserted to have no errors. -/
def callBaseConstructors (fuel : Nat) (c : Fin n) (k : Option (Fin m)) :
    Option (List (BaseInstr n m)) := do
  let s ← h.collectBaseArgs fuel c k .empty
  if s.diagnostics.isEmpty then
    let order ← h.ns.contractBases fuel c
    let g := order.reverse.foldl (evaluateArgs h c s.baseArgs) ⟨[], fun _ => none⟩
    pure (order.foldl (callBase h c) g).code
  else none

end Generate

structure BaseState (V W : Type) where
  vars : Nat → V
  world : W
  deriving Inhabited

inductive BaseEvent (n m : Nat) (V : Type) where
  | evaluated (a : Argument n m) (v : V)
  | called (constructorNo : Fin m) (args : List V)

section Run

variable {n m : Nat} {V W : Type} (eval : Argument n m → BaseState V W → V × BaseState V W)
  (invoke : Fin m → List V → W → W)

def BaseState.set (σ : BaseState V W) (res : Option Nat) (v : V) : BaseState V W :=
  match res with
  | some x => { σ with vars := Function.update σ.vars x v }
  | none => σ

def BaseInstr.step : BaseInstr n m → BaseState V W → Option (BaseEvent n m V × BaseState V W)
  | .set res a, σ => some (.evaluated a (eval a σ).1, (eval a σ).2.set res (eval a σ).1)
  | .call k args, σ => do
    let vs ← args.mapM (Option.map σ.vars)
    pure (.called k vs, { σ with world := invoke k vs σ.world })

/-- The events of a run, which fails at a `Poison`. -/
def runBase : List (BaseInstr n m) → BaseState V W → Option (List (BaseEvent n m V) × BaseState V W)
  | [], σ => some ([], σ)
  | i :: code, σ => do
    let (e, σ) ← i.step eval invoke σ
    let (es, σ) ← runBase code σ
    pure (e :: es, σ)

end Run

namespace BaseEvent

variable {n m : Nat} {V : Type}

/-- A call of a constructor of `b` -/
def calls (h : Hierarchy n m) (b : Fin n) : BaseEvent n m V → Bool
  | .called k _ => (h.functions k).contractNo = b
  | .evaluated _ _ => false

def evaluates (a : Argument n m) : BaseEvent n m V → Bool
  | .evaluated a' _ => a' = a
  | .called _ _ => false

/-- An argument comes after those of the constructor it stands on, a call after the arguments it passes and
after the calls for the bases of its contract. -/
def MayPrecede (h : Hierarchy n m) : BaseEvent n m V → BaseEvent n m V → Prop
  | .evaluated a _, .evaluated a' _ =>
    ∀ k, a.place.definedConstructorNo = some k → h.given a'.place ≠ some k
  | .evaluated _ _, .called _ _ => True
  | .called k _, .evaluated a _ => h.given a.place ≠ some k
  | .called k _, .called k' _ =>
    ¬ TransGen h.ns.Inherits (h.functions k).contractNo (h.functions k').contractNo

end BaseEvent

section Spec

variable {n m : Nat} {h : Hierarchy n m} {V W : Type} (q : h.Construction)
  (eval : Argument n m → BaseState V W → V × BaseState V W) (invoke : Fin m → List V → W → W)

/-- The events of creating a contract: of every base that declares a constructor one is called, once, and
what is passed to it are the values of the arguments at the place that has arguments for the base. -/
structure Constructs (events : List (BaseEvent n m V)) : Prop where
  calls_once : ∀ b, TransGen h.ns.Inherits q.contractNo b → h.constructors b ≠ [] →
    (events.filter (BaseEvent.calls h b)).length = 1
  evaluates_once : ∀ p, q.Reached p → ∀ k, h.given p = some k → ∀ a ∈ h.args p k,
    (events.filter (BaseEvent.evaluates a)).length = 1
  passes : ∀ k vs, .called k vs ∈ events → ∀ p, q.Reached p → p.base = (h.functions k).contractNo →
    h.given p = some k ∧ List.Forall₂ (fun a v => .evaluated a v ∈ events) (h.args p k) vs
  ordered : events.Pairwise (BaseEvent.MayPrecede h)

/-- A duplicate is reported when two places have arguments for one base, and without an error every run of
the calls creates the bases. -/
def CreatesBases : Prop :=
  (∃ s, Settles (fun fuel => h.collectBaseArgs fuel q.contractNo q.constructorNo .empty) s ∧
    (s.diagnostics ≠ [] ↔ q.TwoPlaces)) ∧
  ∃ ds, Settles (fun fuel => h.checkConstructor fuel q.contractNo q.constructorNo) ds ∧
    (ds = [] → ∃ code,
      Settles (fun fuel => callBaseConstructors h fuel q.contractNo q.constructorNo) code ∧
      ∀ σ, ∃ events σ', runBase eval invoke code σ = some (events, σ') ∧ Constructs q events)

/-- The parameters that arguments are passed for have names. -/
def NamedParameters : Prop :=
  ∀ p, q.Reached p → ∀ k, h.given p = some k → none ∉ (h.functions k).arguments

/-- The parameters and their arguments at the places `ps`. -/
def bindings (h : Hierarchy n m) (ps : List (Place n m)) : List (Option Nat × Argument n m) :=
  ps.flatMap fun p => (h.given p).elim [] fun k => (h.functions k).arguments.zip (h.args p k)

/-- The places with arguments, those for a contract before those for its bases. -/
structure EvaluationOrder (ps : List (Place n m)) : Prop where
  mem_iff : ∀ p, p ∈ ps ↔ q.Reached p
  sorted : ∃ order, Settles (fun fuel => h.ns.contractBases fuel q.contractNo) order ∧
    (ps.map Place.base).Sublist order.reverse

def bindArgument (σ : BaseState V W) (b : Option Nat × Argument n m) : BaseState V W :=
  (eval b.2 σ).2.set b.1 (eval b.2 σ).1

/-- The state after the arguments `bs`, each bound to its parameter. -/
def bindArguments (bs : List (Option Nat × Argument n m)) (σ : BaseState V W) : BaseState V W :=
  bs.foldl (bindArgument eval) σ

/-- A parameter that is bound is left as it is by the arguments after it. -/
def KeepsParameters (bs : List (Option Nat × Argument n m)) : Prop :=
  ∀ σ l x a l', bs = l ++ (some x, a) :: l' →
    (bindArguments eval bs σ).vars x = (bindArguments eval (l ++ [(some x, a)]) σ).vars x

/-- A place that is reached on two ways comes with two places for one base, and without an error
parameters with arguments have names and keep their values while the other arguments are evaluated. -/
def BasesMet : Prop :=
  (q.TwoPlaces ∨ q.OneWay) ∧
  (q.TwoPlaces ∨ q.Missing ∨
    (NamedParameters q ∧ ∀ ps, EvaluationOrder q ps → KeepsParameters eval (bindings h ps)))

end Spec

end Solang.Codegen
