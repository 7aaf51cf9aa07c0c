import Solang.Codegen.Accounts.CollectionEnds

/-!
# The collection of accounts reaches a fixpoint

At the end a function should have the accounts of the functions it calls, with
flags that are as strong (`Program.Fixpoint`).

It has the accounts, because the last pass added none. For the flags this is not
enough: the loop does not notice that a pass has made a flag stronger. And what is
called through a dispatch of modifiers is not collected. The fixpoint is reached
when only graphs of functions take part and no flag has far to go
(`Program.Settled`).
-/

namespace Solang.Codegen.Accounts

open Sema (SolanaAccount)
open Relation

namespace Program

variable (p : Program)

/-- A block that can be reached in the graph `v` of a contract calls the graph `w`. -/
def CallsCfg (c v w : Nat) : Prop :=
  ∃ b, ReflTransGen (fun x y => y ∈ ((p.cfg c v).block x).successors) 0 b ∧
    ∃ args, Instr.call (.static w) args ∈ ((p.cfg c v).block b).instr

/-- The graphs of a function: the one it is called by, and behind a dispatch of modifiers the
ones that are no function by themselves -/
inductive Belongs (c f : Nat) : Nat → Prop where
  | entry {v : Nat} : (f, some v) ∈ (p.contract c).allFunctions → Belongs c f v
  | inner {v w : Nat} : Belongs c f v → (p.cfg c v).functionNo = .none → p.CallsCfg c v w →
    (∀ g, (g, some w) ∉ (p.contract c).allFunctions) → Belongs c f w

/-- A function of the contract calls another one. -/
def Calls (c f g : Nat) : Prop :=
  ∃ v w, p.Belongs c f v ∧ p.CallsCfg c v w ∧ (g, some w) ∈ (p.contract c).allFunctions

/-- A caller has the accounts of the functions it calls, with flags that are as strong. -/
def Fixpoint (c : Nat) (d : RecurseData) : Prop :=
  ∀ f g, p.Calls c f g → ∀ name e, d.get (g, name) = some e →
    ∃ e', d.get (f, name) = some e' ∧ Weaker e e'

/-! ## Where accounts come from -/

/-- The graph `w` of the contract `c'` is looked at when the accounts of `c` are collected. -/
inductive Visited (c : Nat) : Nat → Nat → Prop where
  | first {f v : Nat} : (f, some v) ∈ (p.contract c).allFunctions → Visited c c v
  | next {c' v c'' w : Nat} : Visited c c' v → .enqueue (c'', some w) ∈ p.checkFunction c' v →
    Visited c c'' w

/-- The collection does this for the function. -/
def Does (c f : Nat) (op : Op) : Prop :=
  ∃ c' v, p.Visited c c' v ∧ (p.cfg c' v).functionNo.number = some f ∧ op ∈ p.checkFunction c' v

/-- An account comes with a call from an account of another function. -/
inductive Flow (c : Nat) : Key → Key → Prop where
  | merge {f g : Nat} {name : String} : p.Does c f (.merge g) → Flow c (f, name) (g, name)
  | transfer {f c' g : Nat} {name : String} : p.Does c f (.transfer c' g) →
    Flow c (f, name) (g, name)
  | data {f c' g : Nat} : p.Does c f (.transfer c' g) →
    Flow c (f, (p.contract c').id ++ "_dataAccount") (g, "dataAccount")

/-- An account that a function has before the collection, or for an expression of its own -/
def Source (c : Nat) (d : RecurseData) (q : Key) (s : SolanaAccount) : Prop :=
  d.get q = some s ∨ p.Does c q.1 (.add q.2 s)

/-- The sources that an account may come from -/
def Origin (c : Nat) (d : RecurseData) (q : Key) (s : SolanaAccount) : Prop :=
  ∃ r, ReflTransGen (p.Flow c) q r ∧ p.Source c d r s

/-- All sources of the account have the same flags. -/
def Uniform (c : Nat) (d : RecurseData) (q : Key) : Prop :=
  ∀ s s', p.Origin c d q s → p.Origin c d q s' → Weaker s s'

/-- The flags of all sources are there to begin with, in the function or in one that it
calls. -/
def Near (c : Nat) (d : RecurseData) (q : Key) : Prop :=
  ∀ s, p.Origin c d q s →
    (s.isSigner = true → ∃ g e, (g = q.1 ∨ p.Calls c q.1 g) ∧ d.get (g, q.2) = some e ∧
      e.isSigner = true) ∧
    (s.isWriter = true → ∃ g e, (g = q.1 ∨ p.Calls c q.1 g) ∧ d.get (g, q.2) = some e ∧
      e.isWriter = true)

/-- Only graphs of functions are looked at, and no flag has far to go. -/
structure Settled (c : Nat) (d : RecurseData) : Prop where
  entries : ∀ f v, (f, some v) ∈ (p.contract c).allFunctions →
    (p.cfg c v).functionNo = .solidityFunction f
  functions : ∀ c' v, p.Visited c c' v → (p.cfg c' v).functionNo ≠ .none
  flags : ∀ f name, f ∈ (p.contract c).allFunctions.map (·.1) →
    p.Uniform c d (f, name) ∨ p.Near c d (f, name)

end Program

namespace Program

variable {p : Program} {c v w : Nat}

/-- What the collection does for a call -/
theorem mem_checkFunction_of_calls (h : p.CallsCfg c v w) :
    .enqueue (c, some v) ∈ p.checkFunction c v ∧
      ∀ op ∈ p.mergeOps c w, op ∈ p.checkFunction c v := by
  obtain ⟨b, hreach, args, hi⟩ := h
  have hne : (p.cfg c v).blocks ≠ [] := by
    intro hnil
    simp [Cfg.block, hnil] at hi
  have horder := mem_order_of_reach hne hreach
  refine ⟨mem_checkFunction.mpr ⟨b, horder, _, hi, ?_⟩, fun op hop =>
    mem_checkFunction.mpr ⟨b, horder, _, hi, ?_⟩⟩
  · simp [checkInstruction]
  · simp [checkInstruction, hop]

end Program

/-! ## Nothing comes from elsewhere -/

/-- The account comes from the sources of `q`. -/
structure Comes (p : Program) (c : Nat) (init : RecurseData) (q : Key) (e : SolanaAccount) :
    Prop where
  base : ∃ s, p.Origin c init q s ∧ Weaker s e
  signer : e.isSigner = true → ∃ s, p.Origin c init q s ∧ s.isSigner = true
  writer : e.isWriter = true → ∃ s, p.Origin c init q s ∧ s.isWriter = true

def Orig (p : Program) (c : Nat) (init d : RecurseData) : Prop :=
  ∀ q e, d.get q = some e → Comes p c init q e

section Origins

variable {p : Program} {c : Nat} {init d d' : RecurseData} {q r : Key} {e : SolanaAccount}

theorem Comes.of_source (h : p.Source c init q e) : Comes p c init q e := by
  have horigin : p.Origin c init q e := ⟨q, .refl, h⟩
  exact ⟨⟨e, horigin, .refl e⟩, fun he => ⟨e, horigin, he⟩, fun he => ⟨e, horigin, he⟩⟩

theorem Program.Origin.flow {s : SolanaAccount} (hflow : p.Flow c q r)
    (h : p.Origin c init r s) : p.Origin c init q s := by
  obtain ⟨t, hreach, hsource⟩ := h
  exact ⟨t, .head hflow hreach, hsource⟩

theorem Comes.flow (hflow : p.Flow c q r) (h : Comes p c init r e) : Comes p c init q e where
  base := by
    obtain ⟨s, hs, hw⟩ := h.base
    exact ⟨s, hs.flow hflow, hw⟩
  signer he := by
    obtain ⟨s, hs, hflag⟩ := h.signer he
    exact ⟨s, hs.flow hflow, hflag⟩
  writer he := by
    obtain ⟨s, hs, hflag⟩ := h.writer he
    exact ⟨s, hs.flow hflow, hflag⟩

theorem Comes.joined (horig : Orig p c init d) {name : String}
    (h : Comes p c init (d.astNo, name) e) :
    Comes p c init (d.astNo, name) (d.joined name e) where
  base := by
    obtain ⟨s, hs, hw⟩ := h.base
    exact ⟨s, hs, hw.trans (RecurseData.weaker_joined name e)⟩
  signer hflag := by
    cases hold : d.get (d.astNo, name) with
    | none =>
      refine h.signer ?_
      simpa [RecurseData.joined, hold] using hflag
    | some old =>
      have hor : e.isSigner = true ∨ old.isSigner = true := by
        simpa [RecurseData.joined, hold] using hflag
      exact hor.elim h.signer (horig _ old hold).signer
  writer hflag := by
    cases hold : d.get (d.astNo, name) with
    | none =>
      refine h.writer ?_
      simpa [RecurseData.joined, hold] using hflag
    | some old =>
      have hor : e.isWriter = true ∨ old.isWriter = true := by
        simpa [RecurseData.joined, hold] using hflag
      exact hor.elim h.writer (horig _ old hold).writer

theorem Orig.of_get (h : Orig p c init d) (hget : d'.get = d.get) : Orig p c init d' := by
  intro q e he
  rw [hget] at he
  exact h q e he

theorem Orig.adds {S : String → SolanaAccount → Prop} (h : Orig p c init d)
    (hS : ∀ name a, S name a → Comes p c init (d.astNo, name) a)
    (hadds : RecurseData.Adds S d d') : Orig p c init d' := by
  induction hadds with
  | refl => exact h
  | @add d₁ name a hadds hs ih =>
    intro q e he
    rw [RecurseData.get_addAccount] at he
    by_cases hq : q = (d₁.astNo, name)
    · rw [if_pos hq] at he
      cases he
      subst hq
      have hname := hS name a hs
      rw [← hadds.astNo_eq] at hname
      exact hname.joined ih
    · rw [if_neg hq] at he
      exact ih q e he

/-- An operation that is done for a function gives it only what comes from its sources. -/
theorem Orig.exec (h : Orig p c init d) {op : Op} (hdoes : p.Does c d.astNo op) :
    Orig p c init (d.exec p op) := by
  cases op with
  | add name a =>
    refine h.adds ?_ (RecurseData.exec_adds (by simp))
    rintro n b ⟨rfl, rfl⟩
    exact .of_source (.inr hdoes)
  | merge g =>
    refine h.adds ?_ (RecurseData.exec_adds (by simp))
    intro n b hget
    exact (h _ _ hget).flow (.merge hdoes)
  | transfer c' g =>
    refine h.adds ?_ (RecurseData.exec_adds (by simp))
    rintro n b (hget | ⟨rfl, hget⟩)
    · exact (h _ _ hget).flow (.transfer hdoes)
    · exact (h _ _ hget).flow (.data hdoes)
  | enqueue x => exact h.of_get (RecurseData.exec_enqueue x).1

theorem Orig.execAll (h : Orig p c init d) {ops : List Op}
    (hdoes : ∀ op ∈ ops, p.Does c d.astNo op) : Orig p c init (d.execAll p ops) := by
  induction ops generalizing d with
  | nil => exact h
  | cons op ops ih =>
    refine ih (h.exec (hdoes op (by simp))) fun x hx => ?_
    rw [RecurseData.exec_astNo]
    exact hdoes x (by simp [hx])

end Origins

/-! ## The passes -/

section Passes

variable {p : Program} {c : Nat} {init d : RecurseData} {queue : List (Nat × Option Nat)}

theorem number_of_ne_none {f : ASTFunction} (h : f ≠ .none) : ∃ no, f.number = some no := by
  cases f with
  | none => exact absurd rfl h
  | solidityFunction no | yulFunction no => exact ⟨no, rfl⟩

theorem Orig.visit (hset : p.Settled c init) {c' v : Nat} (hvisited : p.Visited c c' v)
    (h : Orig p c init d) : Orig p c init (d.visit p (c', some v)) := by
  obtain ⟨f, hf⟩ := number_of_ne_none (hset.functions c' v hvisited)
  rw [RecurseData.visit_some]
  have henter : Orig p c init (d.enter p c' v) := h.of_get (RecurseData.enter_same c' v).1
  refine henter.execAll fun op hop => ?_
  rw [RecurseData.enter_astNo, hf]
  exact ⟨c', v, hvisited, hf, hop⟩

theorem Orig.pass (hset : p.Settled c init)
    (hvisited : ∀ c' v, (c', some v) ∈ queue → p.Visited c c' v) (h : Orig p c init d) :
    Orig p c init (d.pass p queue) := by
  induction queue generalizing d with
  | nil => exact h
  | cons x queue ih =>
    refine ih (fun c' v hmem => hvisited c' v (by simp [hmem])) ?_
    obtain ⟨c', v⟩ := x
    cases v with
    | none => exact h
    | some v => exact h.visit hset (hvisited c' v (by simp))

/-- What every pass starts with -/
structure Ready (p : Program) (c : Nat) (init : RecurseData) (queue : List (Nat × Option Nat))
    (d : RecurseData) : Prop where
  visited : ∀ c' v, (c', some v) ∈ queue → p.Visited c c' v
  callers : ∀ f v w, (f, some v) ∈ (p.contract c).allFunctions → p.CallsCfg c v w →
    (c, some v) ∈ queue
  orig : Orig p c init d

theorem mem_firstQueue {x : Nat × Option Nat} :
    x ∈ p.firstQueue c ↔ ∃ f, x.1 = c ∧ (f, x.2) ∈ (p.contract c).allFunctions := by
  obtain ⟨c', v⟩ := x
  simp only [Program.firstQueue, List.mem_eraseDups, List.mem_map, Prod.mk.injEq, Prod.exists]
  constructor
  · rintro ⟨f, v', hmem, rfl, rfl⟩
    exact ⟨f, rfl, hmem⟩
  · rintro ⟨f, rfl, hmem⟩
    exact ⟨f, v, hmem, rfl, rfl⟩

theorem ready_first : Ready p c init (p.firstQueue c) init where
  visited c' v hmem := by
    obtain ⟨f, rfl, hf⟩ := mem_firstQueue.mp hmem
    exact .first hf
  callers f v w hf _ := mem_firstQueue.mpr ⟨f, rfl, hf⟩
  orig _ _ he := .of_source (.inl he)

theorem Ready.next (hset : p.Settled c init) (hempty : d.nextQueue = [])
    (h : Ready p c init queue d) :
    Ready p c init (d.pass p queue).nextQueue (d.next p queue) where
  visited c' v hmem := by
    obtain ⟨⟨c'', w⟩, hy, hop⟩ := (mem_nextQueue_iff hempty).mp hmem
    cases w with
    | none => simp [Program.opsOf] at hop
    | some w => exact .next (h.visited c'' w hy) hop
  callers f v w hf hcalls := by
    refine (mem_nextQueue_iff hempty).mpr ⟨_, h.callers f v w hf hcalls, ?_⟩
    exact (Program.mem_checkFunction_of_calls hcalls).1
  orig := (h.orig.pass hset h.visited).of_get rfl

/-- After a pass a caller has what a function that it calls had before. -/
theorem covers_pass {f g v : Nat} (hno : (p.cfg c v).functionNo = .solidityFunction f)
    (hmem : (c, some v) ∈ queue) (hmerge : .merge g ∈ p.checkFunction c v) {name : String}
    {e : SolanaAccount} (he : d.get (g, name) = some e) :
    ∃ e', (d.pass p queue).get (f, name) = some e' ∧ Weaker e e' := by
  obtain ⟨l₁, l₂, rfl⟩ := List.append_of_mem hmem
  have hbefore : Grows d ((d.pass p l₁).enter p c v) :=
    (RecurseData.grows_pass l₁).trans (RecurseData.grows_enter c v)
  obtain ⟨e₁, he₁, hw₁⟩ := hbefore.mono _ _ he
  obtain ⟨e₂, he₂, hw₂⟩ := RecurseData.covers_execAll (p := p) hmerge he₁
  have hast : ((d.pass p l₁).enter p c v).astNo = f := by
    rw [RecurseData.enter_astNo, hno]
    rfl
  rw [hast] at he₂
  have heq : d.pass p (l₁ ++ (c, some v) :: l₂) =
      ((d.pass p l₁).visit p (c, some v)).pass p l₂ := by
    unfold RecurseData.pass
    rw [List.foldl_append, List.foldl_cons]
  have hafter : Grows ((d.pass p l₁).visit p (c, some v)) (d.pass p (l₁ ++ (c, some v) :: l₂)) := by
    rw [heq]
    exact RecurseData.grows_pass l₂
  obtain ⟨e₃, he₃, hw₃⟩ := hafter.mono _ _ he₂
  exact ⟨e₃, he₃, (hw₁.trans hw₂).trans hw₃⟩

end Passes

/-! ## The last pass -/

section Last

variable {p : Program} {c f g : Nat} {init d : RecurseData} {queue : List (Nat × Option Nat)}

/-- Without a dispatch of modifiers a function has one graph. -/
theorem Program.Belongs.entry_of_settled (hset : p.Settled c init) {v : Nat}
    (h : p.Belongs c f v) : (f, some v) ∈ (p.contract c).allFunctions := by
  induction h with
  | entry h => exact h
  | inner _ hnone _ _ ih =>
    rw [hset.entries _ _ ih] at hnone
    cases hnone

/-- A call between functions of the contract -/
theorem Program.Calls.spec (hset : p.Settled c init) (h : p.Calls c f g) :
    ∃ v w, (f, some v) ∈ (p.contract c).allFunctions ∧ p.CallsCfg c v w ∧
      .merge g ∈ p.checkFunction c v := by
  obtain ⟨v, w, hbelongs, hcalls, hw⟩ := h
  refine ⟨v, w, hbelongs.entry_of_settled hset, hcalls, ?_⟩
  refine (mem_checkFunction_of_calls hcalls).2 _ ?_
  unfold mergeOps
  rw [hset.entries _ _ hw]
  simp

theorem Program.Calls.flow (hset : p.Settled c init) (h : p.Calls c f g) (name : String) :
    p.Flow c (f, name) (g, name) := by
  obtain ⟨v, w, hf, -, hmerge⟩ := h.spec hset
  refine .merge ⟨c, v, .first hf, ?_, hmerge⟩
  rw [hset.entries _ _ hf]
  rfl

variable {name : String} {e : SolanaAccount}

theorem Ready.covers (hset : p.Settled c init) (h : Ready p c init queue d) (hcalls : p.Calls c f g)
    (he : d.get (g, name) = some e) :
    ∃ e', (d.pass p queue).get (f, name) = some e' ∧ Weaker e e' := by
  obtain ⟨v, w, hf, hcfg, hmerge⟩ := hcalls.spec hset
  exact covers_pass (hset.entries _ _ hf) (h.callers _ _ _ hf hcfg) hmerge he

/-- The flags that are there to begin with are there after the first pass. -/
theorem covers_first (hset : p.Settled c init) (hgrows : Grows (init.pass p (p.firstQueue c)) d)
    (hg : g = f ∨ p.Calls c f g) (he : init.get (g, name) = some e) :
    ∃ e', d.get (f, name) = some e' ∧ Weaker e e' := by
  have hfirst : ∃ e', (init.pass p (p.firstQueue c)).get (f, name) = some e' ∧ Weaker e e' := by
    obtain rfl | hcalls := hg
    · exact (RecurseData.grows_pass _).mono _ _ he
    · exact ready_first.covers hset hcalls he
  obtain ⟨e₁, he₁, hw₁⟩ := hfirst
  obtain ⟨e₂, he₂, hw₂⟩ := hgrows.mono _ _ he₁
  exact ⟨e₂, he₂, hw₁.trans hw₂⟩

/-- The flags that an account of a called function has, the caller has as well. -/
theorem weaker_of_settled (hset : p.Settled c init)
    (hgrows : Grows (init.pass p (p.firstQueue c)) d) (horig : Orig p c init d)
    (hcalls : p.Calls c f g) {e' : SolanaAccount} (he : d.get (g, name) = some e)
    (he' : d.get (f, name) = some e') : Weaker e e' := by
  have hcomes : Comes p c init (f, name) e := (horig _ _ he).flow (hcalls.flow hset name)
  have hmem : f ∈ (p.contract c).allFunctions.map (·.1) := by
    obtain ⟨v, w, hf, -⟩ := hcalls.spec hset
    exact List.mem_map.mpr ⟨_, hf, rfl⟩
  have hsame : ∀ {g' : Nat} {s : SolanaAccount}, (g' = f ∨ p.Calls c f g') →
      init.get (g', name) = some s → Weaker s e' := by
    intro g' s hg' hs
    obtain ⟨e₁, he₁, hw⟩ := covers_first hset hgrows hg' hs
    rw [he'] at he₁
    cases he₁
    exact hw
  obtain huniform | hnear := hset.flags f name hmem
  · obtain ⟨s', hs', hw⟩ := (horig _ _ he').base
    constructor
    · intro hflag
      obtain ⟨s, hs, hsflag⟩ := hcomes.signer hflag
      exact ((huniform s s' hs hs').trans hw).1 hsflag
    · intro hflag
      obtain ⟨s, hs, hsflag⟩ := hcomes.writer hflag
      exact ((huniform s s' hs hs').trans hw).2 hsflag
  · constructor
    · intro hflag
      obtain ⟨s, hs, hsflag⟩ := hcomes.signer hflag
      obtain ⟨g', a, hg', ha, haflag⟩ := (hnear s hs).1 hsflag
      exact (hsame hg' ha).1 haflag
    · intro hflag
      obtain ⟨s, hs, hsflag⟩ := hcomes.writer hflag
      obtain ⟨g', a, hg', ha, haflag⟩ := (hnear s hs).2 hsflag
      exact (hsame hg' ha).2 haflag

theorem fixpoint_of_last (hset : p.Settled c init) (h : Ready p c init queue d)
    (hadded : (d.pass p queue).accountsAdded = d.accountsAdded)
    (hgrows : Grows (init.pass p (p.firstQueue c)) (d.pass p queue)) :
    p.Fixpoint c (d.pass p queue) := by
  intro f g hcalls name e he
  have hbefore : (d.get (g, name)).isSome :=
    (RecurseData.grows_pass queue).counted hadded _ (Option.isSome_of_eq_some he)
  obtain ⟨e₀, he₀⟩ := Option.isSome_iff_exists.mp hbefore
  obtain ⟨e', he', -⟩ := h.covers hset hcalls he₀
  exact ⟨e', he', weaker_of_settled hset hgrows (h.orig.pass hset h.visited) hcalls he he'⟩

end Last

/-- The collection ends, and when no flag has far to go it ends with a fixpoint. -/
theorem Program.collect_fixpoint (p : Program) (c : Nat) (accounts : AccountTable) :
    ∃ d, Fuel.Settles (fun fuel => p.collectAccountsFromContract c accounts fuel) d ∧
      (p.Settled c (p.initial c accounts) → p.Fixpoint c d) := by
  obtain ⟨queue, d, hready, hadded, hgrows, hsettles⟩ := p.collect_settles
    (J := fun queue d => p.Settled c (p.initial c accounts) →
      Ready p c (p.initial c accounts) queue d)
    (fun _ _ hempty hready hset => (hready hset).next hset hempty) fun _ => ready_first
  exact ⟨_, hsettles, fun hset => fixpoint_of_last hset (hready hset) hadded hgrows⟩

/-! ## Three functions -/

namespace Sample

/-- Of the functions 0, 1 and 2, each calls the next. -/
def program : Program where
  contracts := [{
    id := "C"
    allFunctions := [(0, some 0), (1, some 1), (2, some 2)]
    cfg := [⟨.solidityFunction 0, [⟨[.call (.static 1) []], []⟩]⟩,
      ⟨.solidityFunction 1, [⟨[.call (.static 2) []], []⟩]⟩,
      ⟨.solidityFunction 2, [⟨[], []⟩]⟩] }]
  functions no := { name := "", isPublic := no == 0, ty := .function, hasPayerAnnotation := false }
  accountFromNumber _ := none

def dataAccount (isWriter : Bool) : AccountMap where
  entries := [("dataAccount", { isSigner := false, isWriter, generated := true })]
  nodup := List.nodup_singleton _

/-- All functions write the data account. -/
def writers : AccountTable := fun _ => dataAccount true

/-- The last function writes the data account, the others read it. -/
def readers : AccountTable := fun no => dataAccount (no == 2)

theorem checkFunction_program : program.checkFunction 0 0 =
      [.enqueue (0, some 1), .enqueue (0, some 0), .merge 1] ∧
    program.checkFunction 0 1 = [.enqueue (0, some 2), .enqueue (0, some 1), .merge 2] ∧
    program.checkFunction 0 2 = [] := ⟨rfl, rfl, rfl⟩

theorem visited_program {c v : Nat} (h : program.Visited 0 c v) :
    c = 0 ∧ (v = 0 ∨ v = 1 ∨ v = 2) := by
  obtain ⟨h0, h1, h2⟩ := checkFunction_program
  induction h with
  | first hmem =>
    simp [program, Program.contract] at hmem
    omega
  | next _ hop ih =>
    obtain ⟨rfl, rfl | rfl | rfl⟩ := ih
    · simp [h0] at hop
      omega
    · simp [h1] at hop
      omega
    · simp [h2] at hop

theorem not_does_add {f : Nat} {name : String} {a : SolanaAccount} :
    ¬ program.Does 0 f (.add name a) := by
  obtain ⟨h0, h1, h2⟩ := checkFunction_program
  rintro ⟨c, v, hvisited, -, hop⟩
  obtain ⟨rfl, rfl | rfl | rfl⟩ := visited_program hvisited
  · simp [h0] at hop
  · simp [h1] at hop
  · simp [h2] at hop

theorem get_initial_writers {q : Key} {a : SolanaAccount}
    (h : (program.initial 0 writers).get q = some a) : a.isSigner = false ∧ a.isWriter = true := by
  have hentries : ∀ no, ((program.initial 0 writers).accounts no).entries =
      (dataAccount true).entries := by
    intro no
    unfold Program.initial
    dsimp only
    split
    · unfold Program.prepare
      dsimp only
      split
      · rfl
      · rfl
    · rfl
  have hmem := AccountMap.get_eq_some_iff.mp h
  rw [hentries] at hmem
  simp [dataAccount] at hmem
  rw [hmem.2]
  exact ⟨rfl, rfl⟩

theorem settled_writers : program.Settled 0 (program.initial 0 writers) where
  entries f v h := by
    simp only [program, Program.contract, List.getD_cons_zero, List.mem_cons, Prod.mk.injEq,
      Option.some.injEq, List.not_mem_nil, or_false] at h
    obtain ⟨rfl, rfl⟩ | ⟨rfl, rfl⟩ | ⟨rfl, rfl⟩ := h <;> rfl
  functions c v h := by
    obtain ⟨rfl, rfl | rfl | rfl⟩ := visited_program h <;> intro heq <;> cases heq
  flags f name _ := by
    refine .inl fun s s' hs hs' => ?_
    have hsource : ∀ {s}, program.Origin 0 (program.initial 0 writers) (f, name) s →
        s.isSigner = false ∧ s.isWriter = true := by
      rintro s ⟨r, -, hget | hdoes⟩
      · exact get_initial_writers hget
      · exact absurd hdoes not_does_add
    exact ⟨fun h => by simp [(hsource hs).1] at h, fun _ => (hsource hs').2⟩

theorem collect_fixpoint_writers : ∃ d,
    Fuel.Settles (fun fuel => program.collectAccountsFromContract 0 writers fuel) d ∧
      program.Fixpoint 0 d := by
  obtain ⟨d, hsettles, hfix⟩ := program.collect_fixpoint 0 writers
  exact ⟨d, hsettles, hfix settled_writers⟩

theorem calls_program : program.Calls 0 0 1 := by
  refine ⟨0, 1, .entry (by simp [program, Program.contract]), ⟨0, .refl, [], ?_⟩, ?_⟩
  · exact List.mem_singleton.mpr rfl
  · simp [program, Program.contract]

/-- The second function writes the data account at the end, the first one reads it. -/
theorem not_fixpoint_readers : ¬ ∃ d,
    Fuel.Settles (fun fuel => program.collectAccountsFromContract 0 readers fuel) d ∧
      program.Fixpoint 0 d := by
  rintro ⟨d, hsettles, hfix⟩
  have hend : Fuel.Settles (fun fuel => program.collectAccountsFromContract 0 readers fuel)
      ((program.initial 0 readers).pass program (program.firstQueue 0)) := by
    refine (Fuel.settles_const _).succ fun fuel => ?_
    unfold Program.collectAccountsFromContract
    rw [RecurseData.loop]
    exact if_pos ⟨rfl, rfl⟩
  rw [hsettles.unique hend] at hfix
  obtain ⟨e', he', hweaker⟩ := hfix 0 1 calls_program "dataAccount"
    { isSigner := false, isWriter := true, generated := true } rfl
  have hreader : e' = { isSigner := false, isWriter := false, generated := true } :=
    (Option.some.inj he').symm
  subst hreader
  exact absurd (hweaker.2 rfl) (by decide)

end Sample

end Solang.Codegen.Accounts
