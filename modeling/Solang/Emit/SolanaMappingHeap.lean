import Solang.Emit.SolanaMappingCorrect
import Solang.Stdlib.AccountHeapRuns

/-!
# Mappings on the account's heap

The heap of `stdlib/solana.c` meets the contract that the lookups rely on.
-/

namespace Solang.Emit.Solana

open Memory Stdlib.AccountHeap

variable {A : Account} {m m' : Memory} {bs bs' : List Block} {cs cs' : List Chunk}

/-- The generated code calls `account_data_alloc` and `account_data_len`. -/
def accountHeap (A : Account) : Allocator where
  alloc m n :=
    match alloc A.dataLen m n with
    | (.ok b, m) => some (b, m)
    | _ => none
  len := len

/-- The blocks are chunks of the account's heap. -/
structure HeapHolds (A : Account) (m : Memory) (bs : List Block) (cs : List Chunk) : Prop where
  rep : Rep A m cs
  apart : Apart cs
  nodup : (bs.map (·.1)).Nodup
  taken : ∀ b ∈ bs, ∃ c, (b.1, c) ∈ placed A.heapOffset cs ∧ Taken c ∧ c.length = b.2

theorem up_length_le {c : Chunk} (h : c.Wf) : up c.length ≤ c.capacity := by
  obtain ⟨-, hle, hdvd⟩ := h
  unfold up
  omega

theorem wf_placed {b : Nat} {c : Chunk} (h : Rep A m cs) (hc : (b, c) ∈ placed A.heapOffset cs) :
    c.Wf := by
  obtain ⟨as, ds, rfl, -⟩ := exists_of_mem_placed hc
  exact h.tiles.wf c (List.mem_append_right _ List.mem_cons_self)

theorem HeapHolds.bound (h : HeapHolds A m bs cs) :
    ∀ b ∈ bs, 0 < b.2 ∧ A.heapOffset ≤ b.1 ∧ b.1 + up b.2 < 2 ^ 31 := by
  intro b hb
  obtain ⟨c, hc, -, hlen⟩ := h.taken b hb
  have hwf := wf_placed h.rep hc
  have hup := up_length_le hwf
  have hin := placed_bound hc
  have hfits := h.rep.tiles.fits
  have hlt := A.dataLen_lt
  rw [hlen] at hup
  exact ⟨hlen ▸ hwf.1, by omega, by omega⟩

theorem HeapHolds.pairwise (h : HeapHolds A m bs cs) :
    bs.Pairwise fun b c => b.1 + up b.2 ≤ c.1 ∨ c.1 + up c.2 ≤ b.1 := by
  refine (List.pairwise_map.mp h.nodup).imp_of_mem fun {b b'} hb hb' hne => ?_
  obtain ⟨c, hc, -, hlen⟩ := h.taken b hb
  obtain ⟨c', hc', -, hlen'⟩ := h.taken b' hb'
  have hup := up_length_le (wf_placed h.rep hc)
  have hup' := up_length_le (wf_placed h.rep hc')
  rw [hlen] at hup
  rw [hlen'] at hup'
  obtain hle | hle := placed_disjoint hc hc' hne
  · exact .inl (by omega)
  · exact .inr (by omega)

/-- Storage variables and blocks are written. -/
theorem HeapHolds.frame (h : HeapHolds A m bs cs)
    (hm : ∀ x, m' x ≠ m x → (16 ≤ x ∧ x < A.heapOffset) ∨ ∃ b ∈ bs, Block.Has b x) :
    HeapHolds A m' bs cs := by
  have hsame : ∀ x, ¬(16 ≤ x ∧ x < A.heapOffset) →
      (∀ b c, (b, c) ∈ placed A.heapOffset cs → ¬(b ≤ x ∧ x < b + c.capacity)) → m' x = m x := by
    intro x hlow hout
    by_contra hne
    obtain hx | ⟨b, hb, hx, hx'⟩ := hm x hne
    · exact hlow hx
    · obtain ⟨c, hc, -, hlen⟩ := h.taken b hb
      have hup := up_length_le (wf_placed h.rep hc)
      rw [hlen] at hup
      exact hout b.1 c hc ⟨hx, by omega⟩
  have hheader := h.rep.holds.header_le
  refine ⟨⟨?_, ⟨?_, h.rep.tiles.fits, h.rep.tiles.wf⟩⟩, h.apart, h.nodup, h.taken⟩
  · rw [← h.rep.offset]
    refine Agree.load (a := 0) (b := 16) (fun x _ hx => ?_) (by omega) (by omega)
    refine hsame x (by omega) fun b c hc hin => ?_
    have hle := (placed_bound hc).1
    omega
  · refine h.rep.tiles.linked.fill fun x hx hout => ?_
    exact hsame x (by omega) hout

theorem HeapHolds.len (h : HeapHolds A m bs cs) : ∀ b ∈ bs, len m b.1 = b.2 := by
  intro b hb
  obtain ⟨c, hc, -, hlen⟩ := h.taken b hb
  rw [len_eq h.rep.holds hc, hlen]

theorem HeapHolds.alloc {n b : Nat} (h : HeapHolds A m bs cs) (hpos : 0 < n) (hn : n < 2 ^ 31)
    (ha : alloc A.dataLen m n = (.ok b, m')) :
    (∃ cs', HeapHolds A m' ((b, n) :: bs) cs') ∧
      ∀ x, (x < A.heapOffset ∨ ∃ c ∈ bs, Block.Has c x) → m' x = m x := by
  obtain hsmall | ⟨b', m1, cs', ha', hchange, hapart, ⟨hnew, hother⟩⟩ :=
    alloc_spec_of_lt h.rep h.apart hpos hn
  · rw [hsmall] at ha
    cases ha
  · rw [ha'] at ha
    cases ha
    refine ⟨⟨cs', (h.rep.holds.change hchange).rep, hapart, List.nodup_cons.mpr ⟨fun hmem => ?_, h.nodup⟩,
      List.forall_mem_cons.mpr ⟨hnew, fun d hd => ?_⟩⟩, ?_⟩
    · obtain ⟨d, hd, heq⟩ := List.mem_map.mp hmem
      obtain ⟨c, hc, hct, -⟩ := h.taken d hd
      rw [heq] at hc
      cases hother c hc hct
    · obtain ⟨c, hc, hct, hlen⟩ := h.taken d hd
      exact ⟨c, (hchange.edit.keeps d.1 c hc hct nofun).1, hct, hlen⟩
    · rintro x (hx | ⟨d, hd, hx, hx'⟩)
      · exact hchange.edit.low x (Nat.zero_le x) hx
      · obtain ⟨c, hc, hct, hlen⟩ := h.taken d hd
        have hup := up_length_le (wf_placed h.rep hc)
        rw [hlen] at hup
        exact (hchange.edit.keeps d.1 c hc hct nofun).2 x hx (by omega)

/-- The heap of an account keeps the contract; the storage variables are behind the header. -/
def heapContract (A : Account) : Contract (accountHeap A) 16 A.heapOffset where
  Holds m bs := ∃ cs, HeapHolds A m bs cs
  perm := by
    rintro m bs bs' ⟨cs, h⟩ hperm
    refine ⟨cs, h.rep, h.apart, (hperm.map _).nodup_iff.mp h.nodup, fun b hb => ?_⟩
    exact h.taken b (hperm.mem_iff.mpr hb)
  bound := fun ⟨_, h⟩ => h.bound
  apart := fun ⟨_, h⟩ => h.pairwise
  frame := fun ⟨cs, h⟩ hm => ⟨cs, h.frame hm⟩
  len := fun ⟨_, h⟩ => h.len
  len_zero _ := rfl
  alloc_zero _ := rfl
  alloc := by
    rintro m m' bs n b ⟨cs, h⟩ hpos hn ha
    simp only [accountHeap] at ha
    split at ha
    next heq =>
      cases ha
      exact h.alloc hpos hn heq
    next => cases ha

/-! ## Samples -/

namespace Sample

open Table

/-- The heap is right behind the storage variables. -/
def fresh (A : Account) : State := ⟨Memory.store (fun _ => 0) 12 4 A.heapOffset, [], []⟩

theorem fresh_apply (A : Account) {x : Nat} (hx : 16 ≤ x) : (fresh A).mem x = 0 :=
  if_neg (by omega)

theorem fresh_sample (T : Table) (A : Account) (hoff : 16 ≤ A.heapOffset) (hslot : 16 ≤ T.slot)
    (hlen : A.heapOffset + 16 ≤ A.dataLen) : T.Fresh (heapContract A) (fresh A) where
  holds := by
    have hzero : ∀ {a : Nat}, 16 ≤ a → (fresh A).mem.load a 4 = 0 :=
      fun ha => load_eq_zero fun x hx _ => fresh_apply A (by omega)
    have hlt := A.dataLen_lt
    refine ⟨[], ⟨load_store_of_lt (by omega), ⟨?_, hlen, nofun⟩⟩, apart_nil, List.nodup_nil, nofun⟩
    show header (fresh A).mem A.heapOffset = ⟨0, 0, 0, 0⟩
    unfold header
    rw [hzero (by omega), hzero (by omega), hzero (by omega), hzero (by omega)]
  entries := rfl
  buckets x hx _ := fresh_apply A (by omega)

/-- `mapping(uint64 => uint64)` -/
def wide : Table := ⟨.int 64, 16, 8, 16, 24, 8⟩

def wideAccount : Account := ⟨2048, 1024, by decide, by decide, by decide⟩

/-- The two keys have the same bucket. -/
def twoKeys : List Op := [.lookup (.int 7), .lookup (.int 258), .lookup (.int 7)]

theorem wide_ok : wide.Ok 16 wideAccount.heapOffset where
  key := by decide
  next := by decide
  value := by decide
  length := by decide
  base := by decide
  slot := by decide
  fixed := by decide
  width := by
    rintro bits ⟨⟩
    exact .inr (by decide)

theorem wide_valid : wide.Valid (heapContract wideAccount) (fresh wideAccount) twoKeys := by
  have hseven : wide.KeyOk (.int 7) := ⟨64, rfl, by decide⟩
  have hother : wide.KeyOk (.int 258) := ⟨64, rfl, by decide⟩
  exact ⟨hseven, fun _ _ _ _ => ⟨hother, fun _ _ _ _ => ⟨hseven, fun _ _ _ _ => trivial⟩⟩⟩

theorem wide_plain : wide.Plain twoKeys := by
  refine ⟨by decide, ?_⟩
  rintro key - ⟨v, -, hty, -⟩
  cases hty

theorem lookups_are_map_wide :
    wide.Ok 16 wideAccount.heapOffset ∧ wide.Fresh (heapContract wideAccount) (fresh wideAccount) ∧
      wide.Valid (heapContract wideAccount) (fresh wideAccount) twoKeys ∧ wide.Plain twoKeys ∧
      wide.Correct (accountHeap wideAccount) wideAccount.heapOffset (fresh wideAccount) twoKeys :=
  have hfresh := fresh_sample wide wideAccount (by decide) (by decide) (by decide)
  ⟨wide_ok, hfresh, wide_valid, wide_plain,
    wide.lookups_are_map (heapContract wideAccount) wide_ok (fresh wideAccount) twoKeys hfresh
      wide_valid wide_plain⟩

/-- `mapping(uint8 => uint64)` behind a `uint64[32]` -/
def narrow : Table := ⟨.int 8, 272, 4, 8, 16, 8⟩

def narrowAccount : Account := ⟨2048, 1280, by decide, by decide, by decide⟩

theorem narrow_ok : narrow.Ok 16 narrowAccount.heapOffset where
  key := by decide
  next := by decide
  value := by decide
  length := by decide
  base := by decide
  slot := by decide
  fixed := by decide
  width := by
    rintro bits ⟨⟩
    exact .inr (by decide)

theorem narrow_look (n : Nat) :
    narrow.look (accountHeap narrowAccount) (fresh narrowAccount) (.int 200) (n + 1) =
      narrow.look (accountHeap narrowAccount) (fresh narrowAccount) (.int 200) 1 := rfl

/-- The bucket word of key 200 is in element 4 of the array, which the lookup changes. -/
theorem narrow_key_changes_other_variable :
    narrow.Ok 16 narrowAccount.heapOffset ∧
      narrow.Fresh (heapContract narrowAccount) (fresh narrowAccount) ∧
      narrow.Valid (heapContract narrowAccount) (fresh narrowAccount) [.lookup (.int 200)] ∧
      ¬narrow.Correct (accountHeap narrowAccount) narrowAccount.heapOffset (fresh narrowAccount)
        [.lookup (.int 200)] := by
  refine ⟨narrow_ok, fresh_sample narrow narrowAccount (by decide) (by decide) (by decide),
    ⟨⟨8, rfl, by decide⟩, fun _ _ _ _ => trivial⟩, ?_⟩
  rintro ⟨n, r, hlook, hr⟩
  have hone : narrow.look (accountHeap narrowAccount) (fresh narrowAccount) (.int 200) 1 = some r := by
    rw [← narrow_look n]
    exact hlook (n + 1) (Nat.le_succ n)
  cases r with
  | none =>
    have hsome : (narrow.look (accountHeap narrowAccount) (fresh narrowAccount) (.int 200) 1).map
        Option.isSome = some true := by decide +kernel
    rw [hone] at hsome
    cases hsome
  | some p =>
    obtain ⟨v, s'⟩ := p
    have hbyte : (narrow.look (accountHeap narrowAccount) (fresh narrowAccount) (.int 200) 1).map
        (Option.map fun p => p.2.mem 48) = some (some 16) := by decide +kernel
    rw [hone] at hbyte
    have hchanged : s'.mem 48 = 16 := by simpa using hbyte
    obtain ⟨⟨-, e, he, -⟩ | hfirst, -⟩ := hr v s' rfl
    · cases he
    · have hsame := hfirst.storage 48 (by decide) (by decide)
      rw [hchanged, fresh_apply narrowAccount (by decide)] at hsame
      cases hsame

end Sample

end Solang.Emit.Solana
