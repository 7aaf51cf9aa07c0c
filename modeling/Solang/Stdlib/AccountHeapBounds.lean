import Solang.Stdlib.AccountHeapRuns

/-!
# Blocks inside the account

The checks of the account's length add 32-bit numbers. In a run of which no sum is cut off, every block
that is returned is inside the account, with the header behind it, whatever the lengths of the account
and of the block.
-/

namespace Solang.Stdlib.AccountHeap

open Memory

variable {G : Region} {s : State} {m : Memory} {cs : List Chunk} {call : Call} {dataLen : Nat}

/-! ## Bounds -/

/-- The block has its header before it, and the header of the next chunk behind it, inside the account. -/
def BlockInside (dataLen : Nat) (m : Memory) (res size : Nat) : Prop :=
  let next := (header m (res - sizeofChunk)).offsetNext
  sizeofChunk ≤ res ∧ res + size ≤ next ∧ next + sizeofChunk ≤ dataLen

/-- The size that is asked for -/
def Call.size : Call → Nat
  | .alloc size => size
  | .free _ => 0
  | .realloc _ size => size

/-- The account is too small, or the block is inside it. -/
def Call.InBounds (dataLen : Nat) (call : Call) (r : Outcome) (s' : State) : Prop :=
  call.size = 0 ∨ r = .tooSmall ∨ ∃ res, r = .ok res ∧ BlockInside dataLen s'.mem res call.size

namespace State

/-- Every call of the run returns a block inside the account, if any. -/
def StaysInBounds (dataLen : Nat) (s : State) : List Call → Prop
  | [] => True
  | call :: calls =>
    call.InBounds dataLen (s.stepIn dataLen call).1 (s.stepIn dataLen call).2 ∧
      StaysInBounds dataLen (s.stepIn dataLen call).2 calls

def OwnsRun (dataLen : Nat) (s : State) : List Call → Prop
  | [] => True
  | call :: calls => s.Owns call ∧ OwnsRun dataLen (s.stepIn dataLen call).2 calls

def InRangeRun (dataLen : Nat) (s : State) : List Call → Prop
  | [] => True
  | call :: calls => s.InRange dataLen call ∧ InRangeRun dataLen (s.stepIn dataLen call).2 calls

end State

/-- The account as it is made: zero, with room for a chunk -/
def Region.Fresh (G : Region) (s : State) : Prop :=
  AccountHeap.heapOffset s.mem = G.heapOffset ∧ header s.mem G.heapOffset = ⟨0, 0, 0, 0⟩ ∧
    G.heapOffset + sizeofChunk ≤ G.dataLen ∧ s.live = []

theorem Region.inv_fresh (h : G.Fresh s) : G.Inv s := by
  obtain ⟨hoff, hhead, hfits, hlive⟩ := h
  refine ⟨[], ⟨hoff, ⟨hhead, hfits, nofun⟩, ?_⟩, apart_nil, ?_⟩
  · have hlt := load_lt s.mem 12 4
    rw [show s.mem.load 12 4 = G.heapOffset from hoff] at hlt
    exact hlt
  · rw [hlive]
    exact ⟨List.nodup_nil, nofun⟩

theorem Region.Holds.blockInside {b : Nat} {c : Chunk} (h : G.Holds m cs)
    (hb : (b, c) ∈ placed G.heapOffset cs) : BlockInside G.dataLen m b (len m b) := by
  have hlen := len_le h hb
  obtain ⟨as, bs, rfl, rfl⟩ := exists_of_mem_placed hb
  have hhead := h.tiles.seam.2.head
  have hbound := h.tiles.seam.2.bound
  unfold BlockInside
  simp only [sizeofChunk, Nat.add_sub_cancel, hhead]
  omega

/-- The block that is returned is live. -/
theorem mem_live_of_ok {res : Nat} (hsize : call.size ≠ 0) (hres : res ≠ 0)
    (h : (s.stepIn dataLen call).1 = .ok res) : res ∈ (s.stepIn dataLen call).2.live := by
  have hadd : ∀ live : List Nat, res ∈ State.add live res := fun live => by
    unfold State.add
    rw [if_neg hres]
    exact List.mem_cons_self
  cases call with
  | alloc size =>
    simp only [State.stepIn] at h ⊢
    generalize alloc dataLen s.mem size = p at h ⊢
    obtain ⟨_ | _ | _, m⟩ := p
    · cases h
      exact hadd _
    · cases h
    · cases h
  | free offset => exact absurd rfl hsize
  | realloc offset size =>
    simp only [State.stepIn] at h ⊢
    generalize realloc dataLen s.mem offset size = p at h ⊢
    obtain ⟨_ | _ | _, m⟩ := p
    · cases h
      exact hadd _
    · cases h
    · cases h

/-- One call -/
theorem step_in_bounds (h : G.Inv s) (hown : s.Owns call) (hrange : s.InRange G.dataLen call) :
    call.InBounds G.dataLen (s.stepIn G.dataLen call).1 (s.stepIn G.dataLen call).2 ∧
      G.Inv (s.stepIn G.dataLen call).2 := by
  obtain ⟨cs, hrep, hapart, hlive⟩ := h
  have hstep := step_spec hrep hapart hlive hown hrange
  obtain ⟨cs', hchange, hcs', hlive'⟩ := hstep.change
  have hrep' := hrep.change hchange
  refine ⟨?_, cs', hrep', hcs', hlive'⟩
  by_cases hsize : call.size = 0
  · exact .inl hsize
  refine .inr ?_
  cases hr : (s.stepIn G.dataLen call).1 with
  | tooSmall => exact .inl rfl
  | diverges => exact absurd hr hstep.ends
  | ok res =>
    right
    have hlen : len (s.stepIn G.dataLen call).2.mem res = call.size := by
      have hreturns := hstep.returns res hr
      cases call with
      | alloc size => exact hreturns
      | free offset => exact absurd rfl hsize
      | realloc offset size => exact hreturns.1
    have hres : res ≠ 0 := by
      rintro rfl
      exact hsize hlen.symm
    obtain ⟨c, hc, -⟩ := hlive'.2 res (mem_live_of_ok hsize hres hr)
    have hinside := hrep'.blockInside hc
    rw [hlen] at hinside
    exact ⟨res, rfl, hinside⟩

theorem Region.Inv.staysInBounds {calls : List Call} (h : G.Inv s)
    (hown : s.OwnsRun G.dataLen calls) (hrange : s.InRangeRun G.dataLen calls) :
    s.StaysInBounds G.dataLen calls := by
  induction calls generalizing s with
  | nil => trivial
  | cons call calls ih =>
    obtain ⟨hbounds, hinv⟩ := step_in_bounds h hown.1 hrange.1
    exact ⟨hbounds, ih hinv hown.2 hrange.2⟩

/-- In every run from the account as it is made of which no sum is cut off at 32 bits, every block that
is returned is inside the account. -/
theorem run_stays_in_bounds (G : Region) (s : State) (calls : List Call) (h : G.Fresh s)
    (hown : s.OwnsRun G.dataLen calls) (hrange : s.InRangeRun G.dataLen calls) :
    s.StaysInBounds G.dataLen calls :=
  (Region.inv_fresh h).staysInBounds hown hrange

/-! ## Samples -/

instance (dataLen : Nat) (m : Memory) (size offset : Nat) : Decidable (FitsAt dataLen m size offset) :=
  inferInstanceAs (Decidable (ite _ _ _))

instance (dataLen : Nat) (m : Memory) (size : Nat) : Decidable (AllocInRange dataLen m size) :=
  inferInstanceAs (Decidable (_ ∨ _))

instance (dataLen : Nat) (m : Memory) (offset size : Nat) :
    Decidable (ReallocInRange dataLen m offset size) :=
  inferInstanceAs (Decidable (_ ∨ _))

instance (dataLen : Nat) (s : State) (call : Call) : Decidable (s.InRange dataLen call) :=
  match call with
  | .alloc _ => inferInstanceAs (Decidable (AllocInRange _ _ _))
  | .free _ => .isTrue trivial
  | .realloc _ _ => inferInstanceAs (Decidable (_ ∨ ite _ _ _))

instance (s : State) (call : Call) : Decidable (s.Owns call) :=
  match call with
  | .alloc _ => .isTrue trivial
  | .free _ => inferInstanceAs (Decidable (_ ∨ _))
  | .realloc _ _ => inferInstanceAs (Decidable (_ ∨ _))

instance decidableOwnsRun (dataLen : Nat) (s : State) :
    (calls : List Call) → Decidable (s.OwnsRun dataLen calls)
  | [] => .isTrue trivial
  | call :: calls =>
    have := decidableOwnsRun dataLen (s.stepIn dataLen call).2 calls
    inferInstanceAs (Decidable (_ ∧ _))

instance decidableInRangeRun (dataLen : Nat) (s : State) :
    (calls : List Call) → Decidable (s.InRangeRun dataLen calls)
  | [] => .isTrue trivial
  | call :: calls =>
    have := decidableInRangeRun dataLen (s.stepIn dataLen call).2 calls
    inferInstanceAs (Decidable (_ ∧ _))

namespace Sample

/-- Sizes that the account has no room for, and that can be rounded up -/
def refused : List Call :=
  [.alloc 10, .alloc 20, .alloc (2 ^ 31), .free 32, .realloc 64 30, .realloc 64 (2 ^ 32 - 200),
    .alloc 1]

theorem refused_stays_in_bounds : fresh.StaysInBounds account.dataLen refused :=
  run_stays_in_bounds account.region fresh refused ⟨by decide, by decide, by decide, rfl⟩
    (by decide +kernel) (by decide +kernel)

/-- `ROUND_UP(0xffffffff, 8)` is 0, and a block of `2 ^ 32 - 1` bytes is made in an account of 256. -/
theorem roundUp_wraps :
    ¬ ∀ (G : Region) (s : State) (calls : List Call), G.Fresh s → s.OwnsRun G.dataLen calls →
      (∀ call ∈ calls, call.size < 2 ^ 32) → s.StaysInBounds G.dataLen calls := by
  intro hall
  have hbounds := (hall account.region fresh [.alloc (2 ^ 32 - 1)]
    ⟨by decide, by decide, by decide, rfl⟩ (by decide) (by decide)).1
  have hres : (fresh.stepIn 256 (.alloc (2 ^ 32 - 1))).1 = .ok 32 := by decide +kernel
  obtain h0 | hsmall | ⟨res, hok, hinside⟩ := hbounds
  · cases h0
  · cases hres.symm.trans hsmall
  · cases hres.symm.trans hok
    have hnext : (header (fresh.stepIn 256 (.alloc (2 ^ 32 - 1))).2.mem 16).offsetNext = 32 := by
      decide +kernel
    have hle : 32 + (2 ^ 32 - 1) ≤ 32 := hnext ▸ hinside.2.1
    omega

end Sample

end Solang.Stdlib.AccountHeap
