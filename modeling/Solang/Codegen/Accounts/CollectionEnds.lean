import Solang.Codegen.Accounts.CollectionGrows

/-!
# The collection of accounts ends

Every account that can be added is under a name of a finite set, in a function of a
finite set, so that only finitely many are added. After the first pass the queue only
gets longer, because a function that queues another one queues itself.
-/

namespace Solang.Codegen.Accounts

open Sema (SolanaAccount)

/-- The function whose accounts are read -/
def Op.target : Op → Option Nat
  | .merge functionNo | .transfer _ functionNo => some functionNo
  | _ => none

/-- A name that is not one of the accounts that are read -/
def Op.newName (p : Program) : Op → Option String
  | .add name _ => some name
  | .transfer contractNo _ => some ((p.contract contractNo).id ++ "_dataAccount")
  | _ => none

def Op.queued : Op → Option (Nat × Option Nat)
  | .enqueue x => some x
  | _ => none

namespace Program

variable (p : Program)

/-- All graphs of the program -/
def graphs : List (Nat × Nat) :=
  (List.range p.contracts.length).flatMap fun c =>
    (List.range (p.contract c).cfg.length).map fun v => (c, v)

def allOps : List Op := p.graphs.flatMap fun x => p.checkFunction x.1 x.2

/-- The functions whose accounts are read or written -/
def touched : List Nat :=
  0 :: p.graphs.filterMap (fun x => (p.cfg x.1 x.2).functionNo.number) ++
    p.allOps.filterMap Op.target

def names (d : RecurseData) : List String :=
  p.touched.flatMap (fun f => (d.accounts f).entries.map (·.1)) ++
    p.allOps.filterMap (Op.newName p)

def keys (d : RecurseData) : Finset Key := p.touched.toFinset ×ˢ (p.names d).toFinset

def queueable : Finset (Nat × Option Nat) := (p.allOps.filterMap Op.queued).toFinset

variable {p} {c v : Nat} {op : Op}

theorem mem_graphs_of_cfg (h : p.cfg c v ≠ ⟨.none, []⟩) : (c, v) ∈ p.graphs := by
  have hv : v < (p.contract c).cfg.length := by
    by_contra hle
    exact h (by simp [cfg, List.getD_eq_getElem?_getD, Nat.not_lt.mp hle])
  have hc : c < p.contracts.length := by
    by_contra hle
    simp [contract, List.getD_eq_getElem?_getD, Nat.not_lt.mp hle] at hv
  refine List.mem_flatMap.mpr ⟨c, List.mem_range.mpr hc, ?_⟩
  exact List.mem_map.mpr ⟨v, List.mem_range.mpr hv, rfl⟩

theorem mem_allOps (h : op ∈ p.checkFunction c v) : op ∈ p.allOps := by
  refine List.mem_flatMap.mpr ⟨(c, v), mem_graphs_of_cfg fun hcfg => ?_, h⟩
  simp [checkFunction, hcfg, Cfg.order] at h

theorem mem_allOps_of_opsOf {x : Nat × Option Nat} (h : op ∈ p.opsOf x) : op ∈ p.allOps := by
  obtain ⟨c, v⟩ := x
  cases v with
  | none => simp [opsOf] at h
  | some v => exact mem_allOps h

theorem zero_mem_touched : 0 ∈ p.touched := by simp [touched]

theorem mem_touched_of_number {f : Nat} (h : (p.cfg c v).functionNo.number = some f) :
    f ∈ p.touched := by
  have hmem : (c, v) ∈ p.graphs := mem_graphs_of_cfg fun hcfg => by
    simp [hcfg, ASTFunction.number] at h
  have hf : f ∈ p.graphs.filterMap (fun x => (p.cfg x.1 x.2).functionNo.number) :=
    List.mem_filterMap.mpr ⟨_, hmem, h⟩
  simp [touched, hf]

theorem mem_touched_of_target {f : Nat} (hop : op ∈ p.allOps) (h : op.target = some f) :
    f ∈ p.touched := by
  have hf : f ∈ p.allOps.filterMap Op.target := List.mem_filterMap.mpr ⟨op, hop, h⟩
  simp [touched, hf]

theorem mem_names_of_newName {d : RecurseData} {name : String} (hop : op ∈ p.allOps)
    (h : op.newName p = some name) : name ∈ p.names d :=
  List.mem_append_right _ (List.mem_filterMap.mpr ⟨op, hop, h⟩)

end Program

/-! ## A bound on what is added -/

def RecurseData.Has (d : RecurseData) (q : Key) : Prop := (d.get q).isSome = true

/-- `init` is the data before the first pass. -/
structure Bounded (p : Program) (init d : RecurseData) : Prop where
  astNo : d.astNo ∈ p.touched
  names : ∀ f ∈ p.touched, ∀ name, d.Has (f, name) → name ∈ p.names init
  count : d.accountsAdded + unknown RecurseData.Has (p.keys init) d ≤ (p.keys init).card

theorem Grows.has {d d' : RecurseData} (h : Grows d d') {q : Key} (hq : d.Has q) : d'.Has q := by
  obtain ⟨e, he⟩ := Option.isSome_iff_exists.mp hq
  obtain ⟨e', he', -⟩ := h.mono q e he
  exact Option.isSome_iff_exists.mpr ⟨e', he'⟩

namespace Bounded

variable {p : Program} {init d d' : RecurseData}

theorem addAccount (h : Bounded p init d) {name : String} (hname : name ∈ p.names init)
    (a : SolanaAccount) : Bounded p init (d.addAccount name a) where
  astNo := h.astNo
  names f hf n hn := by
    unfold RecurseData.Has at hn
    rw [RecurseData.get_addAccount] at hn
    by_cases hq : (f, n) = (d.astNo, name)
    · cases hq
      exact hname
    · rw [if_neg hq] at hn
      exact h.names f hf n hn
  count := by
    have hcount := h.count
    have hgrows : Grows d (d.addAccount name a) := RecurseData.grows_addAccount name a
    by_cases hold : d.Has (d.astNo, name)
    · have hle := unknown_le (U := p.keys init) fun q => hgrows.has (q := q)
      have hadded : (d.addAccount name a).accountsAdded = d.accountsAdded :=
        if_neg (by simpa [RecurseData.Has, RecurseData.get] using Option.ne_none_iff_isSome.mpr hold)
      omega
    · have hkey : (d.astNo, name) ∈ p.keys init := by
        simp [Program.keys, h.astNo, hname]
      have hnew : (d.addAccount name a).Has (d.astNo, name) := by
        unfold RecurseData.Has
        rw [RecurseData.get_addAccount, if_pos rfl]
        rfl
      have hlt := unknown_lt (fun q => hgrows.has (q := q)) hkey hnew hold
      have hadded : (d.addAccount name a).accountsAdded = d.accountsAdded + 1 :=
        if_pos (by simpa [RecurseData.Has, RecurseData.get] using hold)
      omega

theorem adds (h : Bounded p init d) {S : String → SolanaAccount → Prop}
    (hS : ∀ name a, S name a → name ∈ p.names init) (hadds : RecurseData.Adds S d d') :
    Bounded p init d' := by
  induction hadds with
  | refl => exact h
  | add _ hs ih => exact ih.addAccount (hS _ _ hs) _

theorem of_same (h : Bounded p init d) (hget : d'.get = d.get)
    (hadded : d'.accountsAdded = d.accountsAdded) (hast : d'.astNo ∈ p.touched) :
    Bounded p init d' where
  astNo := hast
  names f hf n hn := by
    unfold RecurseData.Has at hn
    rw [hget] at hn
    exact h.names f hf n hn
  count := by
    rw [hadded]
    refine Nat.le_trans (Nat.add_le_add_left (unknown_le fun q hq => ?_) _) h.count
    unfold RecurseData.Has at hq ⊢
    rwa [hget]

theorem exec (h : Bounded p init d) {op : Op} (hop : op ∈ p.allOps) :
    Bounded p init (d.exec p op) := by
  have hread : ∀ {g n b}, op.target = some g → d.get (g, n) = some b → n ∈ p.names init :=
    fun htarget hget =>
      h.names _ (Program.mem_touched_of_target hop htarget) _ (Option.isSome_of_eq_some hget)
  cases op with
  | add name a =>
    refine h.adds ?_ (RecurseData.exec_adds (by simp))
    rintro n b ⟨rfl, -⟩
    exact Program.mem_names_of_newName hop rfl
  | merge g =>
    refine h.adds ?_ (RecurseData.exec_adds (by simp))
    intro n b hget
    exact hread rfl hget
  | transfer c g =>
    refine h.adds ?_ (RecurseData.exec_adds (by simp))
    rintro n b (hget | ⟨rfl, -⟩)
    · exact hread rfl hget
    · exact Program.mem_names_of_newName hop rfl
  | enqueue x =>
    obtain ⟨hget, hadded, hast⟩ := RecurseData.exec_enqueue (p := p) (d := d) x
    exact h.of_same hget hadded (hast ▸ h.astNo)

theorem execAll (h : Bounded p init d) {ops : List Op} (hops : ∀ op ∈ ops, op ∈ p.allOps) :
    Bounded p init (d.execAll p ops) := by
  induction ops generalizing d with
  | nil => exact h
  | cons op ops ih => exact ih (h.exec (hops op (by simp))) fun x hx => hops x (by simp [hx])

theorem enter (h : Bounded p init d) (c v : Nat) : Bounded p init (d.enter p c v) := by
  obtain ⟨hget, hadded, -⟩ := RecurseData.enter_same (p := p) (d := d) c v
  refine h.of_same hget hadded ?_
  rw [RecurseData.enter_astNo]
  cases hno : (p.cfg c v).functionNo.number with
  | none => exact h.astNo
  | some f => exact Program.mem_touched_of_number hno

theorem visit (h : Bounded p init d) (x : Nat × Option Nat) : Bounded p init (d.visit p x) := by
  obtain ⟨c, v⟩ := x
  cases v with
  | none => exact h
  | some v =>
    rw [RecurseData.visit_some]
    exact (h.enter c v).execAll fun op hop => Program.mem_allOps hop

theorem pass (h : Bounded p init d) (queue : List (Nat × Option Nat)) :
    Bounded p init (d.pass p queue) := by
  induction queue generalizing d with
  | nil => exact h
  | cons x queue ih => exact ih (h.visit x)

theorem initial {c : Nat} {accounts : AccountTable} :
    Bounded p (p.initial c accounts) (p.initial c accounts) where
  astNo := Program.zero_mem_touched
  names f hf name hname := by
    obtain ⟨e, he⟩ := Option.isSome_iff_exists.mp hname
    refine List.mem_append_left _ (List.mem_flatMap.mpr ⟨f, hf, List.mem_map.mpr ⟨(name, e), ?_, rfl⟩⟩)
    exact AccountMap.get_eq_some_iff.mp he
  count := by
    classical
    show 0 + _ ≤ _
    rw [Nat.zero_add]
    exact Finset.card_le_card (Finset.filter_subset _ _)

end Bounded

/-! ## The loop -/

/-- The data when the next pass starts -/
def RecurseData.next (p : Program) (d : RecurseData) (queue : List (Nat × Option Nat)) :
    RecurseData := { d.pass p queue with nextQueue := [] }

/-- The queue from the second pass on: who has put an element there is in it too. -/
structure Steady (p : Program) (init : RecurseData) (queue : List (Nat × Option Nat))
    (d : RecurseData) : Prop where
  nodup : queue.Nodup
  queueable : ∀ x ∈ queue, .enqueue x ∈ p.allOps
  again : ∀ x ∈ queue, ∃ y ∈ queue, .enqueue x ∈ p.opsOf y
  empty : d.nextQueue = []
  bounded : Bounded p init d

section Loop

variable {p : Program} {init d : RecurseData} {queue : List (Nat × Option Nat)}

theorem mem_nextQueue_iff (hempty : d.nextQueue = []) {x : Nat × Option Nat} :
    x ∈ (d.pass p queue).nextQueue ↔ ∃ y ∈ queue, .enqueue x ∈ p.opsOf y := by
  rw [RecurseData.mem_nextQueue_pass, hempty]
  simp

theorem self_mem_opsOf {x y : Nat × Option Nat} (h : .enqueue x ∈ p.opsOf y) :
    .enqueue y ∈ p.opsOf y := by
  obtain ⟨c, v⟩ := y
  cases v with
  | none => simp [Program.opsOf] at h
  | some v => exact Program.self_mem_checkFunction h

theorem steady_next (hempty : d.nextQueue = []) (hbounded : Bounded p init d) :
    Steady p init (d.pass p queue).nextQueue (d.next p queue) where
  nodup := RecurseData.nodup_nextQueue_pass (by rw [hempty]; exact List.nodup_nil) queue
  queueable x hx := by
    obtain ⟨y, -, hxy⟩ := (mem_nextQueue_iff hempty).mp hx
    exact Program.mem_allOps_of_opsOf hxy
  again x hx := by
    obtain ⟨y, hy, hxy⟩ := (mem_nextQueue_iff hempty).mp hx
    exact ⟨y, (mem_nextQueue_iff hempty).mpr ⟨y, hy, self_mem_opsOf hxy⟩, hxy⟩
  empty := rfl
  bounded := (hbounded.pass queue).of_same rfl rfl (hbounded.pass queue).astNo

/-- What is left to add and to queue -/
def left (p : Program) (init : RecurseData) (queue : List (Nat × Option Nat)) (d : RecurseData) :
    Nat := ((p.keys init).card - d.accountsAdded) + (p.queueable.card - queue.length)

theorem Steady.length_le (h : Steady p init queue d) : queue.length ≤ p.queueable.card := by
  rw [← List.toFinset_card_of_nodup h.nodup]
  refine Finset.card_le_card fun x hx => ?_
  rw [List.mem_toFinset] at hx
  exact List.mem_toFinset.mpr (List.mem_filterMap.mpr ⟨_, h.queueable x hx, rfl⟩)

theorem Steady.length_le_next (h : Steady p init queue d) :
    queue.length ≤ (d.pass p queue).nextQueue.length := by
  refine (List.Nodup.subperm h.nodup fun x hx => ?_).length_le
  exact (mem_nextQueue_iff h.empty).mpr (h.again x hx)

theorem Steady.left_lt (h : Steady p init queue d)
    (hgoes : ¬ (d.accountsAdded = (d.pass p queue).accountsAdded ∧
      queue.length = (d.pass p queue).nextQueue.length)) :
    left p init (d.pass p queue).nextQueue (d.next p queue) < left p init queue d := by
  have hnext : Steady p init (d.pass p queue).nextQueue (d.next p queue) :=
    steady_next h.empty h.bounded
  have hlen := h.length_le_next
  have hlen' := hnext.length_le
  have hadded : d.accountsAdded ≤ (d.pass p queue).accountsAdded := (RecurseData.grows_pass queue).added
  have hcount := hnext.bounded.count
  have hsame : (d.next p queue).accountsAdded = (d.pass p queue).accountsAdded := rfl
  unfold left
  omega

/-- One round of the loop -/
def round (p : Program) (s : List (Nat × Option Nat) × RecurseData) :
    RecurseData ⊕ (List (Nat × Option Nat) × RecurseData) :=
  if s.2.accountsAdded = (s.2.pass p s.1).accountsAdded ∧
      s.1.length = (s.2.pass p s.1).nextQueue.length then .inl (s.2.pass p s.1)
  else .inr ((s.2.pass p s.1).nextQueue, s.2.next p s.1)

theorem loop_eq_round (fuel : Nat) (s : List (Nat × Option Nat) × RecurseData) :
    s.2.loop p (fuel + 1) s.1 s.2.accountsAdded =
      (round p s).elim some fun s' => s'.2.loop p fuel s'.1 s'.2.accountsAdded := by
  rw [RecurseData.loop]
  unfold round
  split
  · rfl
  · rfl

/-- The loop ends with a pass that adds no account; `J` is what a pass keeps. -/
theorem loop_settles {J : List (Nat × Option Nat) → RecurseData → Prop}
    (hJ : ∀ queue d, d.nextQueue = [] → J queue d →
      J (d.pass p queue).nextQueue (d.next p queue))
    (hsteady : Steady p init queue d) (h : J queue d) :
    ∃ queue' d', J queue' d' ∧ (d'.pass p queue').accountsAdded = d'.accountsAdded ∧
      Fuel.Settles (fun fuel => d.loop p fuel queue d.accountsAdded) (d'.pass p queue') := by
  have hkeeps : ∀ s s', Steady p init s.1 s.2 ∧ J s.1 s.2 → round p s = .inr s' →
      (Steady p init s'.1 s'.2 ∧ J s'.1 s'.2) ∧ left p init s'.1 s'.2 < left p init s.1 s.2 := by
    rintro ⟨queue₁, d₁⟩ s' ⟨hs, hJ₁⟩ hround
    unfold round at hround
    split at hround
    next => cases hround
    next hgoes =>
      cases hround
      exact ⟨⟨steady_next hs.empty hs.bounded, hJ _ _ hs.empty hJ₁⟩, hs.left_lt hgoes⟩
  obtain ⟨⟨queue', d'⟩, x, ⟨-, hJ'⟩, hround, hsettles⟩ := Fuel.settles_loop
    (fun fuel s => s.2.loop p fuel s.1 s.2.accountsAdded) loop_eq_round
    (fun s => Steady p init s.1 s.2 ∧ J s.1 s.2) (fun s => left p init s.1 s.2) hkeeps (queue, d)
    ⟨hsteady, h⟩
  unfold round at hround
  split at hround
  next hstop =>
    cases hround
    exact ⟨queue', d', hJ', hstop.1.symm, hsettles⟩
  next => cases hround

end Loop

/-- The collection ends with a pass that adds no account, after the pass over the functions of
the contract. -/
theorem Program.collect_settles {p : Program} {c : Nat} {accounts : AccountTable}
    {J : List (Nat × Option Nat) → RecurseData → Prop}
    (hJ : ∀ queue d, d.nextQueue = [] → J queue d →
      J (d.pass p queue).nextQueue (d.next p queue))
    (h : J (p.firstQueue c) (p.initial c accounts)) :
    ∃ queue d, J queue d ∧ (d.pass p queue).accountsAdded = d.accountsAdded ∧
      Grows ((p.initial c accounts).pass p (p.firstQueue c)) (d.pass p queue) ∧
      Fuel.Settles (fun fuel => p.collectAccountsFromContract c accounts fuel) (d.pass p queue) := by
  have hfirst := fun fuel => loop_eq_round (p := p) fuel (p.firstQueue c, p.initial c accounts)
  by_cases hstop : (p.initial c accounts).accountsAdded =
      ((p.initial c accounts).pass p (p.firstQueue c)).accountsAdded ∧
      (p.firstQueue c).length = ((p.initial c accounts).pass p (p.firstQueue c)).nextQueue.length
  · refine ⟨_, _, h, hstop.1.symm, .refl _, (Fuel.settles_const _).succ fun fuel => ?_⟩
    unfold round at hfirst
    rw [if_pos hstop] at hfirst
    exact hfirst fuel
  · have hkeeps : ∀ queue d, d.nextQueue = [] →
        J queue d ∧ Grows ((p.initial c accounts).pass p (p.firstQueue c)) d →
        J (d.pass p queue).nextQueue (d.next p queue) ∧
          Grows ((p.initial c accounts).pass p (p.firstQueue c)) (d.next p queue) := by
      rintro queue d hempty ⟨hJ', hgrows⟩
      exact ⟨hJ queue d hempty hJ', (hgrows.trans (RecurseData.grows_pass queue)).trans
        (.of_get rfl rfl)⟩
    have hbounded : Bounded p (p.initial c accounts) (p.initial c accounts) := .initial
    obtain ⟨queue, d, ⟨hJ', hgrows⟩, hadded, hsettles⟩ :=
      loop_settles hkeeps (steady_next rfl hbounded) ⟨hJ _ _ rfl h, .of_get rfl rfl⟩
    refine ⟨queue, d, hJ', hadded, hgrows.trans (RecurseData.grows_pass queue),
      hsettles.succ fun fuel => ?_⟩
    unfold round at hfirst
    rw [if_neg hstop] at hfirst
    exact hfirst fuel

end Solang.Codegen.Accounts
