import Solang.Stdlib.AccountHeapCorrect

/-!
# Runs on the account data

The heap is kept in the account from one call of the contract to the next: whatever blocks
are allocated, freed and reallocated, the chunk list stays in order, and no call
changes a block that it is not about.
-/

namespace Solang.Stdlib.AccountHeap

open Memory

inductive Call where
  | alloc (size : Nat)
  | free (offset : Nat)
  | realloc (offset size : Nat)

/-- The account data, and the blocks that were returned and not given back -/
structure State where
  mem : Memory
  live : List Nat

namespace State

variable (A : Account)

/-- Offset 0 is no block. -/
def add (live : List Nat) (res : Nat) : List Nat := if res = 0 then live else res :: live

def drop (live : List Nat) (offset : Nat) : List Nat := live.filter (· ≠ offset)

def step (s : State) : Call → Outcome × State
  | .alloc size =>
    match alloc A.dataLen s.mem size with
    | (.ok res, m) => (.ok res, ⟨m, add s.live res⟩)
    | (r, m) => (r, ⟨m, s.live⟩)
  | .free offset => (.ok 0, ⟨AccountHeap.free s.mem offset, drop s.live offset⟩)
  | .realloc offset size =>
    match realloc A.dataLen s.mem offset size with
    | (.ok res, m) => (.ok res, ⟨m, add (drop s.live offset) res⟩)
    | (r, m) => (r, ⟨m, s.live⟩)

/-- The calls one after the other, if each of them ends -/
def run (s : State) : List Call → Option State
  | [] => some s
  | call :: calls =>
    match s.step A call with
    | (.diverges, _) => none
    | (_, s) => run s calls

/-- Blocks are given back once, and are of less than `2 ^ 31` bytes. -/
def Valid (s : State) : Call → Prop
  | .alloc size => size < 2 ^ 31
  | .free offset => offset = 0 ∨ offset ∈ s.live
  | .realloc offset size => (offset = 0 ∨ offset ∈ s.live) ∧ size < 2 ^ 31

instance (s : State) (call : Call) : Decidable (s.Valid call) :=
  match call with
  | .alloc _ => inferInstanceAs (Decidable (_ < _))
  | .free _ => inferInstanceAs (Decidable (_ ∨ _))
  | .realloc _ _ => inferInstanceAs (Decidable (_ ∧ _))

def ValidRun (s : State) : List Call → Prop
  | [] => True
  | call :: calls => s.Valid call ∧ ValidRun (s.step A call).2 calls

instance decidableValidRun (s : State) : (calls : List Call) → Decidable (s.ValidRun A calls)
  | [] => .isTrue trivial
  | call :: calls =>
    have := decidableValidRun (s.step A call).2 calls
    inferInstanceAs (Decidable (_ ∧ _))

end State

namespace State

/-- A call on account data of any length -/
def stepIn (dataLen : Nat) (s : State) : Call → Outcome × State
  | .alloc size =>
    match alloc dataLen s.mem size with
    | (.ok res, m) => (.ok res, ⟨m, add s.live res⟩)
    | (r, m) => (r, ⟨m, s.live⟩)
  | .free offset => (.ok 0, ⟨AccountHeap.free s.mem offset, drop s.live offset⟩)
  | .realloc offset size =>
    match realloc dataLen s.mem offset size with
    | (.ok res, m) => (.ok res, ⟨m, add (drop s.live offset) res⟩)
    | (r, m) => (r, ⟨m, s.live⟩)

theorem stepIn_eq_step (A : Account) (s : State) (call : Call) :
    s.stepIn A.dataLen call = s.step A call := by
  cases call <;> rfl

/-- Blocks are given back once. -/
def Owns (s : State) : Call → Prop
  | .alloc _ => True
  | .free offset => offset = 0 ∨ offset ∈ s.live
  | .realloc offset _ => offset = 0 ∨ offset ∈ s.live

/-- No sum of the call is cut off at 32 bits. -/
def InRange (dataLen : Nat) (s : State) : Call → Prop
  | .alloc size => AllocInRange dataLen s.mem size
  | .free _ => True
  | .realloc offset size =>
    size = 0 ∨ (if offset = 0 then AllocInRange dataLen s.mem size
      else ReallocInRange dataLen s.mem offset size)

end State

variable {A : Account} {G : Region} {s : State} {m m' : Memory} {cs cs' : List Chunk} {call : Call}
  {live live' : List Nat}

/-! ## The invariant -/

/-- The live blocks are chunks that are taken. -/
def LiveIn (A : Account) (cs : List Chunk) (live : List Nat) : Prop :=
  live.Nodup ∧ ∀ b ∈ live, ∃ c, (b, c) ∈ placed A.heapOffset cs ∧ Taken c

/-- The same of chunks from an offset on -/
def LiveAt (off : Nat) (cs : List Chunk) (live : List Nat) : Prop :=
  live.Nodup ∧ ∀ b ∈ live, ∃ c, (b, c) ∈ placed off cs ∧ Taken c

/-- The account data is a list of chunks from the heap's offset on up to a trailing chunk inside the
account: each is linked to the next one, which starts where it ends, and back; each holds a block
that is not empty, or is free; no two neighbours are free. -/
def Inv (A : Account) (s : State) : Prop :=
  ∃ cs, Rep A s.mem cs ∧ Apart cs ∧ LiveIn A cs s.live

/-- The same for an account of any length, with offsets of 32 bits -/
def Region.Inv (G : Region) (s : State) : Prop :=
  ∃ cs, G.Holds s.mem cs ∧ Apart cs ∧ LiveAt G.heapOffset cs s.live

/-- The account as it is made: zero, with room for a chunk -/
def Fresh (A : Account) (s : State) : Prop :=
  heapOffset s.mem = A.heapOffset ∧ header s.mem A.heapOffset = ⟨0, 0, 0, 0⟩ ∧
    A.heapOffset + sizeofChunk ≤ A.dataLen ∧ s.live = []

theorem inv_fresh (h : Fresh A s) : Inv A s := by
  obtain ⟨hoff, hhead, hfits, hlive⟩ := h
  refine ⟨[], ⟨hoff, hhead, hfits, nofun⟩, apart_nil, ?_⟩
  rw [hlive]
  exact ⟨List.nodup_nil, nofun⟩

theorem LiveAt.sublist {block : Option Nat} (h : LiveAt G.heapOffset cs live)
    (hk : Keeps m m' G.heapOffset cs cs' block) (hsub : live'.Sublist live)
    (hne : ∀ b ∈ live', some b ≠ block) : LiveAt G.heapOffset cs' live' := by
  refine ⟨hsub.nodup h.1, fun b hb => ?_⟩
  obtain ⟨c, hc, hct⟩ := h.2 b (hsub.subset hb)
  exact ⟨c, (hk b c hc hct (hne b hb)).1, hct⟩

theorem LiveAt.add {block : Option Nat} {res size : Nat} (h : LiveAt G.heapOffset cs live)
    (hk : Keeps m m' G.heapOffset cs cs' block) (hsub : live'.Sublist live)
    (hne : ∀ b ∈ live', some b ≠ block) (hnew : NewBlock G cs cs' block res size) :
    LiveAt G.heapOffset cs' (State.add live' res) := by
  obtain ⟨hnodup, hin⟩ := h.sublist hk hsub hne
  obtain ⟨⟨e, he, het, -⟩, hother⟩ := hnew
  have hpos := (placed_bound he).1
  unfold State.add
  rw [if_neg (by omega)]
  refine ⟨List.nodup_cons.mpr ⟨fun hmem => ?_, hnodup⟩, List.forall_mem_cons.mpr ⟨⟨e, he, het⟩, hin⟩⟩
  obtain ⟨c, hc, hct⟩ := h.2 res (hsub.subset hmem)
  exact hne res hmem (hother c hc hct)

theorem sublist_drop (live : List Nat) (offset : Nat) : (State.drop live offset).Sublist live :=
  List.filter_sublist

theorem ne_of_mem_drop {offset : Nat} :
    ∀ b ∈ State.drop live offset, some b ≠ some offset := by
  intro b hb
  simpa using (List.mem_filter.mp hb).2

/-! ## One call -/

/-- The block that the call is about -/
def Call.block : Call → Option Nat
  | .alloc _ => none
  | .free offset => some offset
  | .realloc offset _ => some offset

/-- The length and the bytes that the block gets back from the call -/
def Call.Returns (s s' : State) : Call → Nat → Prop
  | .alloc size, res => len s'.mem res = size
  | .realloc offset size, res => len s'.mem res = size ∧
    ∀ i < min (len s.mem offset) size, s'.mem (res + i) = s.mem (offset + i)
  | _, _ => True

/-- What a call does to the chunks `cs` -/
structure Stepped (G : Region) (s : State) (cs : List Chunk) (call : Call) (r : Outcome)
    (s' : State) : Prop where
  ends : r ≠ .diverges
  change : ∃ cs', Change G s.mem s'.mem cs cs' call.block ∧ Apart cs' ∧ LiveAt G.heapOffset cs' s'.live
  kept : ∀ b ∈ s.live, some b ≠ call.block → b ∈ s'.live
  returns : ∀ res, r = .ok res → call.Returns s s' res
  small : r = .tooSmall → s' = s

variable {block : Nat} {size : Nat}

/-- Nothing happens. -/
theorem stepped_idle (h : G.Holds s.mem cs) (hapart : Apart cs) (hlive : LiveAt G.heapOffset cs s.live)
    {r : Outcome} (hr : r ≠ .diverges) (hret : ∀ res, r = .ok res → call.Returns s s res) :
    Stepped G s cs call r s :=
  ⟨hr, ⟨cs, ⟨Edit.refl h.tiles, h.offsets, .inl le_rfl⟩, hapart, hlive⟩, fun _ hb _ => hb, hret,
    fun _ => rfl⟩

theorem drop_zero (hlive : LiveAt G.heapOffset cs live) : State.drop live 0 = live := by
  refine List.filter_eq_self.mpr fun b hb => ?_
  obtain ⟨c, hc, -⟩ := hlive.2 b hb
  have hbound := (placed_bound hc).1
  simp only [ne_eq, decide_not, Bool.not_eq_true', decide_eq_false_iff_not]
  omega

theorem mem_add {b res : Nat} (h : b ∈ live) : b ∈ State.add live res := by
  unfold State.add
  split
  next => exact h
  next => exact List.mem_cons_of_mem _ h

theorem mem_drop {b : Nat} (h : b ∈ live) (hne : some b ≠ some block) : b ∈ State.drop live block :=
  List.mem_filter.mpr ⟨h, by simpa using hne⟩

/-- The chunk of a live block -/
theorem LiveAt.split (h : LiveAt G.heapOffset cs live) (hb : block ∈ live) :
    ∃ as c bs, cs = as ++ c :: bs ∧ Taken c ∧ block = endOf G.heapOffset as + 16 := by
  obtain ⟨c, hc, hct⟩ := h.2 block hb
  obtain ⟨as, bs, hcs, hb⟩ := exists_of_mem_placed hc
  exact ⟨as, c, bs, hcs, hct, hb⟩

section Step

variable (h : G.Holds s.mem cs) (hapart : Apart cs) (hlive : LiveAt G.heapOffset cs s.live)

include h hapart hlive

/-- A block is given back. -/
theorem stepped_free (hcall : call.block = some block) (hb : block = 0 ∨ block ∈ s.live)
    (hret : ∀ s', call.Returns s s' 0) :
    Stepped G s cs call (.ok 0) ⟨free s.mem block, State.drop s.live block⟩ := by
  have hreturns : ∀ s' res, Outcome.ok 0 = .ok res → call.Returns s s' res := by
    rintro s' res ⟨⟩
    exact hret s'
  obtain rfl | hb := hb
  · rw [drop_zero hlive]
    exact stepped_idle h hapart hlive nofun (hreturns s)
  · obtain ⟨as, c, bs, rfl, hct, rfl⟩ := hlive.split hb
    obtain ⟨hchange, hcs'⟩ := free_spec h hct hapart
    refine ⟨nofun, ⟨_, ?_, hcs', ?_⟩, ?_, hreturns _, nofun⟩
    · simp only [hcall]
      exact hchange
    · exact hlive.sublist hchange.edit.keeps (sublist_drop _ _) ne_of_mem_drop
    · intro b hb hne
      exact mem_drop hb (by rwa [hcall] at hne)

/-- A new block is made. -/
theorem stepped_alloc (hrange : AllocInRange G.dataLen s.mem size)
    (hret : ∀ res m', len m' res = size → call.Returns s ⟨m', State.add s.live res⟩ res) :
    match alloc G.dataLen s.mem size with
    | (.ok res, m) => Stepped G s cs call (.ok res) ⟨m, State.add s.live res⟩
    | (r, m) => Stepped G s cs call r ⟨m, s.live⟩ := by
  by_cases h0 : size = 0
  · subst h0
    have hzero : alloc G.dataLen s.mem 0 = (.ok 0, s.mem) := rfl
    rw [hzero]
    refine stepped_idle h hapart hlive nofun ?_
    rintro res ⟨⟩
    exact hret 0 s.mem rfl
  · obtain hsmall | ⟨res, m', cs', halloc, hchange, hcs', hnew⟩ :=
      alloc_spec h hapart (Nat.pos_of_ne_zero h0) hrange
    · rw [hsmall]
      exact stepped_idle h hapart hlive nofun nofun
    · rw [halloc]
      refine ⟨nofun, ⟨cs', hchange.weaken _, hcs', ?_⟩, fun b hb _ => mem_add hb, ?_, nofun⟩
      · exact hlive.add hchange.edit.keeps (List.Sublist.refl _) nofun hnew
      · rintro _ ⟨⟩
        obtain ⟨⟨e, he, -, hlen⟩, -⟩ := hnew
        exact hret res m' (by rw [len_eq (h.change hchange) he, hlen])

theorem stepped_realloc (hb : block ∈ s.live) (hpos : 0 < size)
    (hrange : ReallocInRange G.dataLen s.mem block size) :
    match realloc G.dataLen s.mem block size with
    | (.ok res, m) => Stepped G s cs (.realloc block size) (.ok res)
        ⟨m, State.add (State.drop s.live block) res⟩
    | (r, m) => Stepped G s cs (.realloc block size) r ⟨m, s.live⟩ := by
  obtain ⟨as, c, bs, rfl, hct, rfl⟩ := hlive.split hb
  have hlen := len_eq h (mem_placed G.heapOffset as bs c)
  obtain hsmall | ⟨new, m', hr, ⟨cs', hchange, hcs', hnew⟩, hpay⟩ := realloc_spec h hct hapart hpos hrange
  · rw [hsmall]
    exact stepped_idle h hapart hlive nofun nofun
  · rw [hr]
    refine ⟨nofun, ⟨cs', hchange, hcs', ?_⟩, fun b hb hne => mem_add (mem_drop hb hne), ?_, nofun⟩
    · exact hlive.add hchange.edit.keeps (sublist_drop _ _) ne_of_mem_drop hnew
    · rintro _ ⟨⟩
      obtain ⟨⟨e, he, -, hsz⟩, -⟩ := hnew
      refine ⟨by rw [len_eq (h.change hchange) he, hsz], fun i hi => ?_⟩
      rw [hlen] at hi
      exact hpay i hi

theorem step_spec (hv : s.Owns call) (hrange : s.InRange G.dataLen call) :
    Stepped G s cs call (s.stepIn G.dataLen call).1 (s.stepIn G.dataLen call).2 := by
  cases call with
  | alloc size =>
    have hreturns : ∀ res m', len m' res = size →
        (Call.alloc size).Returns s ⟨m', State.add s.live res⟩ res := fun _ _ hlen => hlen
    have hstep := stepped_alloc h hapart hlive hrange hreturns
    simp only [State.stepIn]
    generalize alloc G.dataLen s.mem size = p at hstep ⊢
    obtain ⟨_ | _ | _, m⟩ := p <;> exact hstep
  | free offset => exact stepped_free h hapart hlive rfl hv fun _ => trivial
  | realloc offset size =>
    by_cases h0 : size = 0
    · subst h0
      exact stepped_free h hapart hlive rfl hv fun _ => ⟨rfl, by simp⟩
    · have hstep : match realloc G.dataLen s.mem offset size with
          | (.ok res, m) => Stepped G s cs (.realloc offset size) (.ok res)
              ⟨m, State.add (State.drop s.live offset) res⟩
          | (r, m) => Stepped G s cs (.realloc offset size) r ⟨m, s.live⟩ := by
        have hrange := hrange.resolve_left h0
        obtain rfl | hb := hv
        · have halloc : realloc G.dataLen s.mem 0 size = alloc G.dataLen s.mem size := by
            unfold realloc
            rw [if_neg h0, if_pos rfl]
          rw [halloc, drop_zero hlive]
          refine stepped_alloc h hapart hlive (by rwa [if_pos rfl] at hrange) fun res m' hlen => ⟨hlen, fun i hi => ?_⟩
          simp [len] at hi
        · have hne : offset ≠ 0 := by
            obtain ⟨c, hc, -⟩ := hlive.2 offset hb
            have hbound := (placed_bound hc).1
            omega
          exact stepped_realloc h hapart hlive hb (Nat.pos_of_ne_zero h0) (by rwa [if_neg hne] at hrange)
      simp only [State.stepIn]
      generalize realloc G.dataLen s.mem offset size = p at hstep ⊢
      obtain ⟨_ | _ | _, m⟩ := p <;> exact hstep

end Step

/-! ## Runs -/

/-- Where accounts and blocks are of less than `2 ^ 31` bytes, no sum is cut off. -/
theorem inRange_of_valid (h : Rep A s.mem cs) (hlive : LiveIn A cs s.live) (hv : s.Valid call) :
    s.InRange A.dataLen call := by
  have hlen := A.dataLen_lt
  cases call with
  | alloc size => exact allocInRange_of_lt h hv
  | free offset => trivial
  | realloc offset size =>
    have halloc := allocInRange_of_lt h hv.2
    refine .inr ?_
    split
    next => exact halloc
    next h0 =>
      obtain ⟨c, hc, -⟩ := hlive.2 offset (hv.1.resolve_left h0)
      have hbound := (placed_bound hc).2
      have hfits := h.tiles.fits
      have hsize := hv.2
      unfold ReallocInRange
      simp only [sizeofChunk]
      by_cases hroom : (header s.mem (header s.mem (sub32 offset 16)).offsetNext).allocated = 0 ∧
          (header s.mem (header s.mem (sub32 offset 16)).offsetNext).offsetNext = 0 ∧
          add32 offset (roundUp size) + 16 < A.dataLen
      · exact .inr (.inr (.inl ⟨hroom.1, hroom.2.1, hroom.2.2, by omega⟩))
      · exact .inr (.inr (.inr ⟨hroom, halloc⟩))

theorem owns_of_valid (hv : s.Valid call) : s.Owns call := by
  cases call with
  | alloc size => trivial
  | free offset => exact hv
  | realloc offset size => exact hv.1

theorem step_of_valid (h : Rep A s.mem cs) (hapart : Apart cs) (hlive : LiveIn A cs s.live)
    (hv : s.Valid call) : Stepped A.region s cs call (s.step A call).1 (s.step A call).2 := by
  have hstep := step_spec h.holds hapart hlive (owns_of_valid hv)
    (inRange_of_valid h hlive hv)
  rwa [show A.region.dataLen = A.dataLen from rfl, State.stepIn_eq_step] at hstep

theorem inv_step (h : Inv A s) (hv : s.Valid call) :
    (s.step A call).1 ≠ .diverges ∧ Inv A (s.step A call).2 := by
  obtain ⟨cs, hrep, hapart, hlive⟩ := h
  have hstep := step_of_valid hrep hapart hlive hv
  obtain ⟨cs', hchange, hcs', hlive'⟩ := hstep.change
  exact ⟨hstep.ends, cs', (hrep.holds.change hchange).rep, hcs', hlive'⟩

/-- Every call of a run ends, and the chunk list is kept. -/
theorem run_keeps_chunks (A : Account) (s : State) (calls : List Call) (h : Inv A s)
    (hvalid : s.ValidRun A calls) : ∃ s', s.run A calls = some s' ∧ Inv A s' := by
  induction calls generalizing s with
  | nil => exact ⟨s, rfl, h⟩
  | cons call calls ih =>
    obtain ⟨hv, hrest⟩ := hvalid
    obtain ⟨hends, hinv⟩ := inv_step h hv
    obtain ⟨s', hrun, hinv'⟩ := ih _ hinv hrest
    refine ⟨s', ?_, hinv'⟩
    rw [State.run]
    generalize s.step A call = p at hends hrun ⊢
    obtain ⟨_ | _ | _, s1⟩ := p
    · exact hrun
    · exact hrun
    · exact absurd rfl hends

/-- The block holds the same bytes as the other one did. -/
def Same (m m' : Memory) (b b' n : Nat) : Prop := ∀ i < n, m' (b' + i) = m (b + i)

/-- The length and the bytes of every other block stay; live blocks are apart and inside the account;
the new block has the length and the old bytes; an account that is too small stays as it is. -/
theorem step_keeps_data (A : Account) (s : State) (call : Call) (h : Inv A s) (hv : s.Valid call) :
    let r := (s.step A call).1
    let s' := (s.step A call).2
    (∀ b ∈ s.live, some b ≠ call.block →
      b ∈ s'.live ∧ len s'.mem b = len s.mem b ∧ Same s.mem s'.mem b b (len s.mem b)) ∧
    (∀ b ∈ s'.live, A.heapOffset ≤ b ∧ b + len s'.mem b ≤ A.dataLen ∧
      ∀ b' ∈ s'.live, b ≠ b' → b + len s'.mem b ≤ b' ∨ b' + len s'.mem b' ≤ b) ∧
    (∀ offset size res, call = .realloc offset size → r = .ok res →
      len s'.mem res = size ∧ Same s.mem s'.mem offset res (min (len s.mem offset) size)) ∧
    (r = .tooSmall → s' = s) := by
  intro r s'
  obtain ⟨cs, hrep, hapart, hlive⟩ := h
  have hstep := step_of_valid hrep hapart hlive hv
  obtain ⟨cs', hchange, -, hlive'⟩ := hstep.change
  have hrep' := hrep.holds.change hchange
  -- the length of a block is at most the capacity of its chunk
  have hchunk : ∀ b ∈ s'.live, ∃ c, (b, c) ∈ placed A.heapOffset cs' ∧ len s'.mem b ≤ c.capacity := by
    intro b hb
    obtain ⟨c, hc, -⟩ := hlive'.2 b hb
    exact ⟨c, hc, len_le hrep' hc⟩
  refine ⟨?_, ?_, ?_, hstep.small⟩
  · intro b hb hne
    obtain ⟨c, hc, hct⟩ := hlive.2 b hb
    obtain ⟨hc', hagree⟩ := hchange.edit.keeps b c hc hct hne
    have hcap := len_le hrep.holds hc
    refine ⟨hstep.kept b hb hne, by rw [len_eq hrep' hc', len_eq hrep.holds hc], fun i hi => ?_⟩
    exact hagree _ (by omega) (by omega)
  · intro b hb
    obtain ⟨c, hc, hcap⟩ := hchunk b hb
    have hbound := placed_bound hc
    have hfits := hrep'.rep.tiles.fits
    refine ⟨by omega, by omega, fun b' hb' hne => ?_⟩
    obtain ⟨c', hc', hcap'⟩ := hchunk b' hb'
    have hdis := placed_disjoint hc hc' hne
    omega
  · rintro offset size res rfl hr
    exact hstep.returns res hr

/-! ## Samples -/

namespace Sample

/-- 256 bytes, with the heap right behind the header -/
def account : Account := ⟨256, 16, by decide, by decide, by decide⟩

def fresh : State := ⟨fun x => if x = 12 then 16 else 0, []⟩

theorem inv_sample : Inv account fresh :=
  inv_fresh ⟨by decide, by decide, by decide, rfl⟩

/-- The first block is given back; the second one has to move to grow, and grows again where it is; a
block is taken from the free chunk, and it cannot grow. -/
def growing : List Call :=
  [.alloc 10, .alloc 20, .alloc 5, .free 32, .realloc 64 30, .realloc 128 90, .alloc 1,
    .realloc 32 300]

theorem run_keeps_chunks_growing :
    Inv account fresh ∧ fresh.ValidRun account growing ∧
      ∃ s', fresh.run account growing = some s' ∧ Inv account s' :=
  ⟨inv_sample, by decide +kernel,
    run_keeps_chunks account fresh growing inv_sample (by decide +kernel)⟩

/-- Two blocks -/
def two : State := ((fresh.step account (.alloc 10)).2.step account (.alloc 20)).2

theorem inv_two : Inv account two :=
  (inv_step (inv_step inv_sample (by decide)).2 (by decide +kernel)).2

/-- The first one moves. -/
theorem step_keeps_data_two :
    Inv account two ∧ two.Valid (.realloc 32 40) ∧
      (∀ b ∈ two.live, some b ≠ some 32 →
        b ∈ (two.step account (.realloc 32 40)).2.live ∧
          len (two.step account (.realloc 32 40)).2.mem b = len two.mem b ∧
          Same two.mem (two.step account (.realloc 32 40)).2.mem b b (len two.mem b)) :=
  ⟨inv_two, by decide +kernel,
    (step_keeps_data account two (.realloc 32 40) inv_two (by decide +kernel)).1⟩

end Sample

end Solang.Stdlib.AccountHeap
