import Solang.Sema.Contracts
import Solang.Lib.Ways

/-!
# Arguments of base constructors

`collect_base_args` and `check_base_args`. Arguments for the constructor of a base stand on a
constructor of a contract deriving from it (`constructor() B(5)`) or in the list of bases of such a
contract (`is B(5)`). The walk starts from a constructor of the contract that is created, and goes
from each place to the constructor called there; a base listed without arguments leads on to its
constructor without parameters.

`Reached` is a place the walk can come to. The walk keeps no marks of its own, so a place with two
ways to it is met twice, and its arguments are taken for a duplicate of themselves.
-/

namespace Solang.Sema

open Relation PostOrder Fuel Ways

/-- A place that can have arguments for the constructor of a base: constructor `k`, or the entry of
`c` for the base. -/
inductive Place (n m : Nat) where
  | modifier (k : Fin m) (base : Fin n)
  | list (c base : Fin n)
  deriving DecidableEq, Repr

namespace Place

variable {n m : Nat}

def base : Place n m → Fin n
  | .modifier _ b => b
  | .list _ b => b

def definedConstructorNo : Place n m → Option (Fin m)
  | .modifier k _ => some k
  | .list _ _ => none

end Place

/-- The argument expression number `i` at a place. -/
structure Argument (n m : Nat) where
  place : Place n m
  i : Nat
  deriving DecidableEq, Repr

/-- A constructor: the variables of its parameters (`symtable.arguments`, none for a parameter without
a name), and the constructor it calls of each base it has arguments for (`bases`). -/
structure Constructor (n m : Nat) where
  contractNo : Fin n
  arguments : List (Option Nat)
  bases : Fin n → Option (Fin m)

/-- The contracts and their constructors once everything is resolved. A place with arguments names the
constructor they match, and has one argument for each of its parameters. -/
structure Hierarchy (n m : Nat) where
  ns : Namespace n
  functions : Fin m → Constructor n m
  constructors : Fin n → List (Fin m)
  /-- `bases[..].constructor` of a contract -/
  baseConstructor : Fin n → Fin n → Option (Fin m)
  acyclic : Acyclic ns.Inherits
  bases_nodup : ∀ c, (ns.bases c).Nodup
  contractNo_of_mem : ∀ {c k}, k ∈ constructors c → (functions k).contractNo = c
  modifier_inherits : ∀ {k b k'}, (functions k).bases b = some k' →
    TransGen ns.Inherits (functions k).contractNo b
  modifier_constructor : ∀ {k b k'}, (functions k).bases b = some k' → k' ∈ constructors b
  list_constructor : ∀ {c b k'}, baseConstructor c b = some k' → k' ∈ constructors b
  /-- Every parameter has a variable of its own -/
  arguments_inj : ∀ {k k' : Fin m} {i i' x : Nat}, (functions k).arguments[i]? = some (some x) →
    (functions k').arguments[i']? = some (some x) → k = k' ∧ i = i'

inductive BaseLoc (n m : Nat) where
  | place (p : Place n m)
  | contract (c : Fin n)
  deriving DecidableEq, Repr

structure BaseDiagnostic (n m : Nat) where
  loc : BaseLoc n m
  message : String
  note : Option (BaseLoc n m × String)
  deriving DecidableEq, Repr

structure BaseOrModifier (n m : Nat) where
  loc : Place n m
  callingConstructorNo : Fin m
  args : List (Argument n m)

/-- `base_args` and the diagnostics of the walk. -/
structure BaseArgs (n m : Nat) where
  baseArgs : Fin n → Option (BaseOrModifier n m)
  diagnostics : List (BaseDiagnostic n m)

namespace BaseArgs

variable {n m : Nat}

def empty : BaseArgs n m := ⟨fun _ => none, []⟩

def insert (s : BaseArgs n m) (b : Fin n) (a : BaseOrModifier n m) : BaseArgs n m :=
  { s with baseArgs := Function.update s.baseArgs b (some a) }

def error (s : BaseArgs n m) (d : BaseDiagnostic n m) : BaseArgs n m :=
  { s with diagnostics := s.diagnostics ++ [d] }

end BaseArgs

namespace Hierarchy

variable {n m : Nat} (h : Hierarchy n m)

/-- The constructor without parameters -/
def noArgsConstructor (c : Fin n) : Option (Fin m) :=
  (h.constructors c).find? fun k => (h.functions k).arguments.isEmpty

def constructorNeedsArguments (c : Fin n) : Bool :=
  !(h.constructors c).isEmpty && (h.noArgsConstructor c).isNone

/-- The arguments at a place for the constructor `k`. -/
def args (p : Place n m) (k : Fin m) : List (Argument n m) :=
  (List.range (h.functions k).arguments.length).map (Argument.mk p)

def duplicate (p : Place n m) (prev : BaseOrModifier n m) : BaseDiagnostic n m where
  loc := .place p
  message := "duplicate argument for base contract '" ++ (h.ns.contracts p.base).id ++ "'"
  note := some (.place prev.loc,
    "previous argument for base contract '" ++ (h.ns.contracts p.base).id ++ "'")

/-- Arguments at the place `p` for the constructor `k` of its base, which `walk` goes on to. -/
def addBaseArgs (walk : Fin n → Option (Fin m) → BaseArgs n m → Option (BaseArgs n m))
    (s : BaseArgs n m) (p : Place n m) (k : Fin m) : Option (BaseArgs n m) :=
  match s.baseArgs p.base with
  | some prev => some (s.error (h.duplicate p prev))
  | none => walk p.base (some k) (s.insert p.base ⟨p, k, h.args p k⟩)

/-- `collect_base_args`. The constructor's `bases` are in the order of the contract numbers. -/
def collectBaseArgs : Nat → Fin n → Option (Fin m) → BaseArgs n m → Option (BaseArgs n m)
  | 0, _, _, _ => none
  | fuel + 1, c, k, s => do
    let s ← match k with
      | none => some s
      | some k => (List.finRange n).foldlM (fun s b =>
          match (h.functions k).bases b with
          | none => some s
          | some k' => h.addBaseArgs (collectBaseArgs fuel) s (.modifier k b) k') s
    (h.ns.bases c).foldlM (fun s b =>
      match h.baseConstructor c b with
      | some k' => h.addBaseArgs (collectBaseArgs fuel) s (.list c b) k'
      | none => collectBaseArgs fuel b (h.noArgsConstructor b) s) s

def missing (c b : Fin n) : BaseDiagnostic n m where
  loc := .contract c
  message := "missing arguments to base contract '" ++ (h.ns.contracts b).id ++ "' constructor"
  note := none

/-- The errors for one constructor of contract `c`. -/
def checkConstructor (fuel : Nat) (c : Fin n) (k : Option (Fin m)) :
    Option (List (BaseDiagnostic n m)) := do
  let order ← h.ns.contractBases fuel c
  let baseArgsNeeded := order.filter fun b => b ≠ c && h.constructorNeedsArguments b
  let s ← h.collectBaseArgs fuel c k .empty
  pure (s.diagnostics ++ (baseArgsNeeded.filter fun b => (s.baseArgs b).isNone).map (h.missing c))

def checkBaseArgs (fuel : Nat) (c : Fin n) : Option (List (BaseDiagnostic n m)) :=
  if !(h.ns.contracts c).isConcrete then some []
  else if (h.constructors c).isEmpty then h.checkConstructor fuel c none
  else (h.constructors c).foldlM (fun ds k => do
    let ds' ← h.checkConstructor fuel c (some k)
    pure (ds ++ ds')) []

/-- The constructor called at a place that has arguments. -/
def given : Place n m → Option (Fin m)
  | .modifier k b => (h.functions k).bases b
  | .list c b => h.baseConstructor c b

/-- The places the constructor `k` of `c` leads to. -/
def places (c : Fin n) (k : Option (Fin m)) : List (Place n m) :=
  (k.elim [] fun k => ((List.finRange n).filter fun b => ((h.functions k).bases b).isSome).map
    (Place.modifier k)) ++ (h.ns.bases c).map (Place.list c)

/-- The places after `p`: those of the constructor called at `p`. -/
def next (p : Place n m) : List (Place n m) :=
  h.places p.base ((h.given p).or (h.noArgsConstructor p.base))

/-- What collecting adds for a place with arguments. -/
def entry (p : Place n m) : Option (BaseOrModifier n m) :=
  (h.given p).map fun k => ⟨p, k, h.args p k⟩

/-- One round of the loops of `collect_base_args`. -/
def visit (fuel : Nat) (s : BaseArgs n m) (p : Place n m) : Option (BaseArgs n m) :=
  match h.given p with
  | some k => h.addBaseArgs (h.collectBaseArgs fuel) s p k
  | none => h.collectBaseArgs fuel p.base (h.noArgsConstructor p.base) s

theorem collectBaseArgs_succ (fuel : Nat) (c : Fin n) (k : Option (Fin m)) (s : BaseArgs n m) :
    h.collectBaseArgs (fuel + 1) c k s = (h.places c k).foldlM (h.visit fuel) s := by
  have hlist : ∀ s, (h.ns.bases c).foldlM (fun s b =>
      match h.baseConstructor c b with
      | some k' => h.addBaseArgs (h.collectBaseArgs fuel) s (.list c b) k'
      | none => h.collectBaseArgs fuel b (h.noArgsConstructor b) s) s
      = ((h.ns.bases c).map (Place.list c)).foldlM (h.visit fuel) s := by
    intro s
    rw [List.foldlM_map]
    rfl
  have hstep := collectBaseArgs.eq_def h (fuel + 1) c k s
  simp only [hlist] at hstep
  rw [hstep, places, List.foldlM_append]
  cases k with
  | none => rfl
  | some k =>
    refine congrArg (· >>= _) ?_
    rw [Option.elim_some, List.foldlM_map, List.foldlM_filter]
    refine congrArg (fun f => List.foldlM f s (List.finRange n)) ?_
    funext s b
    simp only [visit, given]
    cases (h.functions k).bases b <;> rfl

/-- No place of `l` is for a base that has arguments, and no two are for the same. -/
def Fresh (s : BaseArgs n m) (l : List (Place n m)) : Prop :=
  (l.map Place.base).Nodup ∧ ∀ p ∈ l, s.baseArgs p.base = none

/-- The walk comes to the places `l`. -/
structure Collected (s : BaseArgs n m) (l : List (Place n m)) (s' : BaseArgs n m) : Prop where
  fresh : Fresh s l → s'.diagnostics = s.diagnostics ∧ ∀ b a, s'.baseArgs b = some a ↔
    s.baseArgs b = some a ∨ ∃ p ∈ l, p.base = b ∧ h.entry p = some a
  not_fresh : ¬ Fresh s l → s'.diagnostics ≠ []
  keeps : s.diagnostics ≠ [] → s'.diagnostics ≠ []

namespace Collected

variable {h} {s s₁ s₂ : BaseArgs n m} {l l' : List (Place n m)} {p : Place n m}

theorem nil (s : BaseArgs n m) : h.Collected s [] s where
  fresh _ := ⟨rfl, fun b a => by simp⟩
  not_fresh hf := absurd ⟨List.nodup_nil, List.forall_mem_nil _⟩ hf
  keeps hs := hs

theorem fresh_append (hc : h.Collected s l s₁) (hl : ∀ p ∈ l, (h.given p).isSome) (hf : Fresh s l)
    (l' : List (Place n m)) : Fresh s (l ++ l') ↔ Fresh s₁ l' := by
  have hnone : ∀ b, s₁.baseArgs b = none ↔ s.baseArgs b = none ∧ ∀ p ∈ l, p.base ≠ b := by
    intro b
    rw [Option.eq_none_iff_forall_ne_some, Option.eq_none_iff_forall_ne_some]
    constructor
    · refine fun hb => ⟨fun a ha => hb a (((hc.fresh hf).2 b a).mpr (.inl ha)), fun p hp hpb => ?_⟩
      obtain ⟨k, hk⟩ := Option.isSome_iff_exists.mp (hl p hp)
      exact hb ⟨p, k, h.args p k⟩ (((hc.fresh hf).2 b _).mpr (.inr ⟨p, hp, hpb, by rw [entry, hk]; rfl⟩))
    · rintro ⟨hs, hb⟩ a ha
      obtain ha | ⟨p, hp, hpb, -⟩ := ((hc.fresh hf).2 b a).mp ha
      · exact hs a ha
      · exact hb p hp hpb
  unfold Fresh
  simp only [hnone, List.map_append, List.nodup_append, List.forall_mem_append, hf.1, true_and]
  constructor
  · rintro ⟨⟨hnd, hdis⟩, -, hs⟩
    refine ⟨hnd, fun p hp => ⟨hs p hp, fun q hq => ?_⟩⟩
    exact hdis _ (List.mem_map_of_mem hq) _ (List.mem_map_of_mem hp)
  · rintro ⟨hnd, hs⟩
    refine ⟨⟨hnd, fun b hb b' hb' => ?_⟩, hf.2, fun p hp => (hs p hp).1⟩
    obtain ⟨q, hq, rfl⟩ := List.mem_map.mp hb
    obtain ⟨p, hp, rfl⟩ := List.mem_map.mp hb'
    exact (hs p hp).2 q hq

theorem append (hc : h.Collected s l s₁) (hc' : h.Collected s₁ l' s₂)
    (hl : ∀ p ∈ l, (h.given p).isSome) : h.Collected s (l ++ l') s₂ := by
  by_cases hf : Fresh s l
  · have hiff := hc.fresh_append hl hf l'
    refine ⟨fun hff => ?_, fun hff => hc'.not_fresh fun hf' => hff (hiff.mpr hf'),
      fun hs => hc'.keeps (hc.keeps hs)⟩
    obtain ⟨hd, hb⟩ := hc.fresh hf
    obtain ⟨hd', hb'⟩ := hc'.fresh (hiff.mp hff)
    refine ⟨hd'.trans hd, fun b a => ?_⟩
    simp only [hb', hb, List.mem_append, or_assoc, or_and_right, exists_or]
  · have hne := hc'.keeps (hc.not_fresh hf)
    refine ⟨fun hff => absurd ?_ hf, fun _ => hne, fun hs => hc'.keeps (hc.keeps hs)⟩
    obtain ⟨hnd, hs⟩ := hff
    rw [List.map_append] at hnd
    exact ⟨hnd.of_append_left, fun p hp => hs p (List.mem_append_left l' hp)⟩

/-- A place for a base that has no arguments yet -/
theorem insert {k : Fin m} (hk : h.given p = some k) (hp : s.baseArgs p.base = none) :
    h.Collected s [p] (s.insert p.base ⟨p, k, h.args p k⟩) where
  fresh _ := by
    refine ⟨rfl, fun b a => ?_⟩
    have hentry : h.entry p = some ⟨p, k, h.args p k⟩ := by rw [entry, hk]; rfl
    by_cases hb : b = p.base
    · subst hb
      simp [BaseArgs.insert, hp, hentry, eq_comm]
    · simp [BaseArgs.insert, hb, Ne.symm hb]
  not_fresh hf := by
    refine absurd ⟨List.nodup_singleton _, fun q hq => ?_⟩ hf
    rw [List.mem_singleton.mp hq]
    exact hp
  keeps hs := hs

/-- A place for a base that has arguments, and what comes after it -/
theorem duplicate {d : BaseDiagnostic n m} {a : BaseOrModifier n m} (hp : s.baseArgs p.base = some a)
    (hc : h.Collected (s.error d) l' s₂) : h.Collected s (p :: l) s₂ := by
  have hne : s₂.diagnostics ≠ [] := hc.keeps (by simp [BaseArgs.error])
  refine ⟨fun hf => ?_, fun _ => hne, fun _ => hne⟩
  have hnone := hf.2 p List.mem_cons_self
  rw [hp] at hnone
  cases hnone

end Collected

/-- Every place leads to bases of its own base. -/
theorem inherits_of_mem_places {c : Fin n} {k : Option (Fin m)} {p : Place n m}
    (hk : ∀ k' ∈ k, (h.functions k').contractNo = c) (hp : p ∈ h.places c k) :
    TransGen h.ns.Inherits c p.base := by
  obtain hp | hp := List.mem_append.mp hp
  · cases k with
    | none => exact absurd hp List.not_mem_nil
    | some k =>
      obtain ⟨b, hb, rfl⟩ := List.mem_map.mp hp
      obtain ⟨k', hk'⟩ := Option.isSome_iff_exists.mp (List.mem_filter.mp hb).2
      exact hk k rfl ▸ h.modifier_inherits hk'
  · obtain ⟨b, hb, rfl⟩ := List.mem_map.mp hp
    exact .single hb

theorem places_nodup (c : Fin n) (k : Option (Fin m)) : (h.places c k).Nodup := by
  have hlist : ((h.ns.bases c).map (Place.list (m := m) c)).Nodup :=
    (h.bases_nodup c).map fun b b' hb => by cases hb; rfl
  cases k with
  | none => exact hlist
  | some k =>
    refine List.nodup_append.mpr ⟨?_, hlist, ?_⟩
    · exact ((List.nodup_finRange n).filter _).map fun b b' hb => by cases hb; rfl
    · intro p hp q hq hpq
      obtain ⟨b, -, rfl⟩ := List.mem_map.mp hp
      obtain ⟨b', -, rfl⟩ := List.mem_map.mp hq
      cases hpq

theorem noArgsConstructor_spec {c : Fin n} {k : Fin m} (hk : h.noArgsConstructor c = some k) :
    k ∈ h.constructors c ∧ (h.functions k).arguments = [] := by
  refine ⟨List.mem_of_find?_eq_some hk, ?_⟩
  have hempty := List.find?_some hk
  exact List.isEmpty_iff.mp hempty

theorem mem_constructors_of_given {p : Place n m} {k : Fin m} (hk : h.given p = some k) :
    k ∈ h.constructors p.base := by
  cases p with
  | modifier k' b => exact h.modifier_constructor hk
  | list c b => exact h.list_constructor hk

theorem contractNo_called {p : Place n m} {k : Fin m}
    (hk : k ∈ (h.given p).or (h.noArgsConstructor p.base)) : (h.functions k).contractNo = p.base := by
  cases hp : h.given p with
  | some k' =>
    rw [hp, Option.some_or] at hk
    obtain rfl := Option.some.inj hk
    exact h.contractNo_of_mem (h.mem_constructors_of_given hp)
  | none =>
    rw [hp, Option.none_or] at hk
    exact h.contractNo_of_mem (h.noArgsConstructor_spec hk).1

theorem inherits_of_mem_next {p q : Place n m} (hp : p ∈ h.next q) :
    TransGen h.ns.Inherits q.base p.base :=
  h.inherits_of_mem_places (fun _ hk => h.contractNo_called hk) hp

theorem next_wellFounded : WellFounded fun p q => p ∈ h.next q := by
  have htrans : Acyclic (TransGen h.ns.Inherits) := by
    intro c hc
    rw [transGen_eq_self] at hc
    exact h.acyclic c hc
  exact Subrelation.wf (fun hp => h.inherits_of_mem_next hp) (InvImage.wf Place.base htrans.wellFounded)

theorem exists_visits {es l : List (Place n m)} (hm : Meets h.next (fun p => (h.given p).isSome) es l) :
    ∀ s, ∃ s', h.Collected s l s' ∧ Settles (fun fuel => es.foldlM (h.visit fuel) s) s' := by
  induction hm with
  | nil => exact fun s => ⟨s, .nil s, settles_const s⟩
  | @skip p es l l' hp hl _ ih ih' =>
    intro s
    obtain ⟨s₁, hc, hs⟩ := ih s
    obtain ⟨s₂, hc', hs'⟩ := ih' s₁
    refine ⟨s₂, hc.append hc' hl.marked_of_mem, Settles.bind (hs.succ fun fuel => ?_) hs'⟩
    rw [Bool.not_eq_true, Option.isSome_eq_false_iff, Option.isNone_iff_eq_none] at hp
    simp only [visit, hp, collectBaseArgs_succ, next, Option.none_or]
  | @mark p es l l' hp hl _ ih ih' =>
    intro s
    obtain ⟨k, hk⟩ := Option.isSome_iff_exists.mp hp
    cases hb : s.baseArgs p.base with
    | some prev =>
      obtain ⟨s₂, hc, hs⟩ := ih' (s.error (h.duplicate p prev))
      refine ⟨s₂, .duplicate hb hc, Settles.bind (settles_const _ |>.succ fun fuel => ?_) hs⟩
      simp only [visit, hk, addBaseArgs, hb]
    | none =>
      obtain ⟨s₁, hc, hs⟩ := ih (s.insert p.base ⟨p, k, h.args p k⟩)
      obtain ⟨s₂, hc', hs'⟩ := ih' s₁
      have hone := (Collected.insert hk hb).append hc (List.forall_mem_singleton.mpr hp)
      refine ⟨s₂, hone.append hc' (List.forall_mem_cons.mpr ⟨hp, hl.marked_of_mem⟩),
        Settles.bind (hs.succ fun fuel => ?_) hs'⟩
      simp only [visit, hk, addBaseArgs, hb, collectBaseArgs_succ, next, Option.some_or]

/-- A contract to create and the constructor it is created with; a contract without constructors has a
default one. -/
structure Construction where
  contractNo : Fin n
  constructorNo : Option (Fin m)
  declared : constructorNo.elim (h.constructors contractNo = []) (· ∈ h.constructors contractNo)

namespace Construction

variable {h} (q : h.Construction)

def places : List (Place n m) := h.places q.contractNo q.constructorNo

/-- The place `p` has arguments, and creating the contract leads there. -/
def Reached (p : Place n m) : Prop := (h.given p).isSome ∧ Leads h.next q.places p

/-- Two places have arguments for one base. -/
def TwoPlaces : Prop := ∃ p p', q.Reached p ∧ q.Reached p' ∧ p ≠ p' ∧ p.base = p'.base

/-- No place with arguments is reached on two ways. -/
def OneWay : Prop := Ways.OneWay h.next (fun p => (h.given p).isSome) q.places

/-- A base whose constructors all have parameters, and no place has arguments for it. -/
def Missing : Prop := ∃ b, TransGen h.ns.Inherits q.contractNo b ∧ h.constructorNeedsArguments b = true ∧
  ∀ p, q.Reached p → p.base ≠ b

/-- No errors -/
def Accepted : Prop := q.OneWay ∧ ¬ q.TwoPlaces ∧ ¬ q.Missing

theorem contractNo_eq : ∀ k ∈ q.constructorNo, (h.functions k).contractNo = q.contractNo := by
  intro k hk
  have hdecl := q.declared
  rw [hk] at hdecl
  exact h.contractNo_of_mem hdecl

theorem inherits_of_reached {p : Place n m} (hp : q.Reached p) :
    TransGen h.ns.Inherits q.contractNo p.base := by
  refine hp.2.of_forall (fun p hp => h.inherits_of_mem_places q.contractNo_eq hp) fun p hp d hd => ?_
  exact hp.trans (h.inherits_of_mem_next hd)

/-- Collecting the arguments ends. It reports a duplicate when two places have arguments for one base, and
also when a place is reached on two ways; else it has the arguments of every place. -/
theorem collects : ∃ s, Settles (fun fuel => h.collectBaseArgs fuel q.contractNo q.constructorNo .empty) s ∧
    (s.diagnostics = [] ↔ q.OneWay ∧ ¬ q.TwoPlaces) ∧
    (s.diagnostics = [] → ∀ b a, s.baseArgs b = some a ↔
      ∃ p, q.Reached p ∧ p.base = b ∧ h.entry p = some a) := by
  obtain ⟨l, hl⟩ :=
    @exists_meets _ h.next (fun p => (h.given p).isSome) h.next_wellFounded q.places
  obtain ⟨s, hc, hs⟩ := h.exists_visits hl .empty
  have hmem : ∀ p, p ∈ l ↔ q.Reached p := fun p =>
    ⟨fun hp => ⟨hl.marked_of_mem p hp, (hl.mem_iff (hl.marked_of_mem p hp)).mp hp⟩,
      fun hp => (hl.mem_iff hp.1).mpr hp.2⟩
  have hfresh : s.diagnostics = [] ↔ Fresh .empty l := by
    refine ⟨fun hd => ?_, fun hf => (hc.fresh hf).1⟩
    by_contra hf
    exact hc.not_fresh hf hd
  have hnodup : Fresh .empty l ↔ l.Nodup ∧ ¬ q.TwoPlaces := by
    constructor
    · rintro ⟨hnd, -⟩
      refine ⟨hnd.of_map, fun ⟨p, p', hp, hp', hne, hb⟩ => hne ?_⟩
      exact List.inj_on_of_nodup_map hnd ((hmem p).mpr hp) ((hmem p').mpr hp') hb
    · rintro ⟨hnd, htwo⟩
      refine ⟨hnd.map_on fun p hp p' hp' hb => ?_, fun _ _ => rfl⟩
      by_contra hne
      exact htwo ⟨p, p', (hmem p).mp hp, (hmem p').mp hp', hne, hb⟩
  refine ⟨s, hs.succ fun fuel => h.collectBaseArgs_succ fuel _ _ _, ?_, fun hd b a => ?_⟩
  · rw [hfresh, hnodup, hl.nodup_iff (h.places_nodup _ _) fun p => h.places_nodup _ _]
    exact Iff.rfl
  · rw [(hc.fresh (hfresh.mp hd)).2]
    simp [BaseArgs.empty, hmem]

theorem entry_of_given {p : Place n m} (hp : (h.given p).isSome) : ∃ a, h.entry p = some a := by
  obtain ⟨k, hk⟩ := Option.isSome_iff_exists.mp hp
  exact ⟨⟨p, k, h.args p k⟩, by rw [entry, hk]; rfl⟩

/-- When a constructor has no errors -/
theorem checkConstructor_settles : ∃ ds,
    Settles (fun fuel => h.checkConstructor fuel q.contractNo q.constructorNo) ds ∧
    (ds = [] ↔ q.Accepted) := by
  obtain ⟨s, hs, hdup, hargs⟩ := q.collects
  obtain ⟨order, hlin, hord⟩ := Namespace.contractBases_settles h.acyclic q.contractNo
  refine ⟨_, hord.bind (hs.bind (settles_const _)), ?_⟩
  rw [List.append_eq_nil_iff, hdup, and_assoc, Accepted]
  refine and_congr_right fun hone => and_congr_right fun htwo => ?_
  have hnone : ∀ b, s.baseArgs b = none ↔ ∀ p, q.Reached p → p.base ≠ b := by
    intro b
    rw [Option.eq_none_iff_forall_ne_some]
    constructor
    · intro hb p hp hpb
      obtain ⟨a, ha⟩ := entry_of_given hp.1
      exact hb a ((hargs (hdup.mpr ⟨hone, htwo⟩) b a).mpr ⟨p, hp, hpb, ha⟩)
    · intro hb a ha
      obtain ⟨p, hp, hpb, -⟩ := (hargs (hdup.mpr ⟨hone, htwo⟩) b a).mp ha
      exact hb p hp hpb
  rw [List.map_eq_nil_iff, List.filter_eq_nil_iff, Missing, not_exists]
  refine forall_congr' fun b => ?_
  rw [List.mem_filter, Option.isNone_iff_eq_none, hnone, hlin.mem_iff]
  have hself : ¬ TransGen h.ns.Inherits b b := h.acyclic b
  constructor
  · rintro hb ⟨hbase, hneeds, hp⟩
    have hne : b ≠ q.contractNo := by
      rintro rfl
      exact hself hbase
    exact hb ⟨.inr hbase, by simp [hne, hneeds]⟩ hp
  · rintro hb ⟨hbase, hneeds⟩ hp
    simp only [Bool.and_eq_true, decide_eq_true_eq] at hneeds
    exact hb ⟨hbase.resolve_left hneeds.1, hneeds.2, hp⟩

/-- The constructors of a contract one after the other -/
theorem checkConstructors_settles (h : Hierarchy n m) {c : Fin n} (l : List (Fin m))
    (hl : ∀ k ∈ l, k ∈ h.constructors c) : ∀ ds₀, ∃ ds,
    Settles (fun fuel => l.foldlM (fun ds k => do
      let ds' ← h.checkConstructor fuel c (some k)
      pure (ds ++ ds')) ds₀) ds ∧
    (ds = [] ↔ ds₀ = [] ∧ ∀ k (hk : k ∈ h.constructors c), k ∈ l →
      (⟨c, some k, hk⟩ : h.Construction).Accepted) := by
  induction l with
  | nil => exact fun ds₀ => ⟨ds₀, settles_const ds₀, by simp⟩
  | cons k l ih =>
    intro ds₀
    have hk := hl k List.mem_cons_self
    obtain ⟨ds', hs', hds'⟩ := (⟨c, some k, hk⟩ : h.Construction).checkConstructor_settles
    obtain ⟨ds, hs, hds⟩ := ih (fun k' hk' => hl k' (List.mem_cons_of_mem k hk')) (ds₀ ++ ds')
    refine ⟨ds, Settles.bind (hs'.bind (settles_const (ds₀ ++ ds'))) hs, ?_⟩
    rw [hds, List.append_eq_nil_iff, hds', and_assoc]
    refine and_congr_right fun _ => ⟨fun ⟨hone, hrest⟩ k' hk' hmem => ?_,
      fun hall => ⟨?_, fun k' hk' hmem => ?_⟩⟩
    · obtain rfl | hmem := List.mem_cons.mp hmem
      · exact hone
      · exact hrest k' hk' hmem
    · exact hall k hk List.mem_cons_self
    · exact hall k' hk' (List.mem_cons_of_mem k hmem)

/-- A contract that can be created has no errors when none of its constructors has. -/
theorem checkBaseArgs_settles (h : Hierarchy n m) {c : Fin n} (hc : (h.ns.contracts c).isConcrete) :
    ∃ ds, Settles (fun fuel => h.checkBaseArgs fuel c) ds ∧ (ds = [] ↔
      ∀ q : h.Construction, q.contractNo = c → q.Accepted) := by
  simp only [checkBaseArgs, hc, Bool.not_true, Bool.false_eq_true, if_false, List.isEmpty_iff]
  by_cases hnone : h.constructors c = []
  · obtain ⟨ds, hs, hds⟩ := (⟨c, none, hnone⟩ : h.Construction).checkConstructor_settles
    refine ⟨ds, by simpa only [if_pos hnone] using hs,
      hds.trans ⟨fun hok q hq => ?_, fun hok => hok _ rfl⟩⟩
    obtain ⟨c', k, hk⟩ := q
    subst hq
    cases k with
    | none => exact hok
    | some k => exact absurd (hnone ▸ hk) List.not_mem_nil
  · simp only [if_neg hnone]
    obtain ⟨ds, hs, hds⟩ := checkConstructors_settles h (h.constructors c) (fun _ hk => hk) []
    refine ⟨ds, hs, hds.trans ⟨fun hok q hq => ?_, fun hok => ⟨rfl, fun k hk _ => hok _ rfl⟩⟩⟩
    obtain ⟨c', k, hk⟩ := q
    subst hq
    cases k with
    | none => exact absurd hk hnone
    | some k => exact hok.2 k hk hk

end Construction

end Hierarchy

end Solang.Sema
