import Solang.Stdlib.AccountHeapBounds

/-!
# Freed space

A block is given back, and one of the same length is asked for. The freed chunk keeps the length of its
block when it is not merged, so that it is not long enough for that length rounded up. The block is found
room for exactly when the length is a multiple of eight, or the chunk is merged, or there is another free
chunk that is long enough.
-/

namespace Solang.Stdlib.AccountHeap

open Memory

variable {G : Region} {s : State} {m m' : Memory} {prev off size b : Nat} {c d : Chunk}
  {as bs cs cs' : List Chunk} {call : Call} {dataLen : Nat}

/-! ## Heaps that are reached -/

/-- The trailing chunk, within this many chunks -/
def trailing (data : Memory) : Nat → Nat → Nat
  | 0, offset => offset
  | fuel + 1, offset =>
    let next := (header data offset).offsetNext
    if next = 0 then offset else trailing data fuel next

theorem trailing_eq {fuel : Nat} (h : Tiles dataLen m prev off cs) (hfuel : cs.length < fuel) :
    trailing m fuel off = endOf off cs := by
  induction cs generalizing prev off fuel with
  | nil =>
    obtain ⟨fuel, rfl⟩ : ∃ k, fuel = k + 1 := ⟨fuel - 1, by simp at hfuel; omega⟩
    have hhead : header m off = ⟨0, prev, 0, 0⟩ := h.linked
    simp only [trailing, hhead, if_true, endOf]
  | cons c cs ih =>
    obtain ⟨fuel, rfl⟩ : ∃ k, fuel = k + 1 := ⟨fuel - 1, by simp at hfuel; omega⟩
    simp only [trailing, h.head]
    rw [if_neg (by omega), ih h.tail (by simpa using hfuel)]
    rfl

theorem Region.Holds.length_lt (h : G.Holds m cs) : cs.length < G.dataLen := by
  have hle := length_mul_le G.heapOffset cs
  have hfits := h.tiles.fits
  omega

theorem Region.Holds.trailing (h : G.Holds m cs) :
    trailing m G.dataLen G.heapOffset = endOf G.heapOffset cs := trailing_eq h.tiles h.length_lt

/-- Behind the trailing chunk there is room, when there are others before it. -/
def Region.Reached (G : Region) (s : State) : Prop :=
  ∃ cs, G.Holds s.mem cs ∧ Apart cs ∧ LiveAt G.heapOffset cs s.live ∧
    (cs = [] ∨ endOf G.heapOffset cs + 16 < G.dataLen)

theorem Change.keeps_room {block : Option Nat} (h : Change G m m' cs cs' block)
    (hroom : cs = [] ∨ endOf G.heapOffset cs + 16 < G.dataLen) :
    cs' = [] ∨ endOf G.heapOffset cs' + 16 < G.dataLen := by
  obtain hle | hlt := h.room
  · obtain rfl | hroom := hroom
    · left
      have hmul := length_mul_le G.heapOffset cs'
      simp only [endOf] at hle
      exact List.eq_nil_of_length_eq_zero (by omega)
    · exact .inr (by omega)
  · exact .inr hlt

theorem reached_step (h : G.Reached s) (hown : s.Owns call) (hrange : s.InRange G.dataLen call) :
    G.Reached (s.stepIn G.dataLen call).2 := by
  obtain ⟨cs, hrep, hapart, hlive, hroom⟩ := h
  obtain ⟨cs', hchange, hcs', hlive'⟩ := (step_spec hrep hapart hlive hown hrange).change
  exact ⟨cs', hrep.change hchange, hcs', hlive', hchange.keeps_room hroom⟩

/-- The account data after these calls -/
def State.after (dataLen : Nat) (s : State) (calls : List Call) : State :=
  calls.foldl (fun s call => (s.stepIn dataLen call).2) s

theorem reached_after {calls : List Call} (h : G.Reached s) (hown : s.OwnsRun G.dataLen calls)
    (hrange : s.InRangeRun G.dataLen calls) : G.Reached (s.after G.dataLen calls) := by
  induction calls generalizing s with
  | nil => exact h
  | cons call calls ih => exact ih (reached_step h hown.1 hrange.1) hown.2 hrange.2

theorem reached_fresh (h : G.Fresh s) : G.Reached s := by
  obtain ⟨cs, hrep, hapart, hlive⟩ := Region.inv_fresh h
  refine ⟨[], ⟨h.1, ⟨h.2.1, h.2.2.1, List.forall_mem_nil _⟩, ?_⟩, apart_nil, ?_, .inl rfl⟩
  · have hle := le_endOf G.heapOffset cs
    have hlt := hrep.offsets
    simp only [endOf]
    omega
  · rw [h.2.2.2]
    exact ⟨List.nodup_nil, List.forall_mem_nil _⟩

/-! ## The chunks after `account_data_free` -/

theorem absorbed_fits (hc : c.allocated = false) (hcap : c.length ≤ c.capacity) (hbs : bs ≠ [])
    (hfit : roundUp size ≤ c.length) : ∃ f ∈ absorbed c bs, Fits size f := by
  cases bs with
  | nil => exact absurd rfl hbs
  | cons d ds =>
    simp only [absorbed]
    split
    next => exact ⟨c, List.mem_cons_self, hc, hfit⟩
    next =>
      refine ⟨_, List.mem_cons_self, rfl, ?_⟩
      show roundUp size ≤ c.capacity + 16 + d.capacity
      omega

theorem absorbed_fits_next (hd : d.allocated = false) (hfit : roundUp size ≤ c.capacity) :
    ∃ f ∈ absorbed c (d :: bs), Fits size f := by
  simp only [absorbed, hd, Bool.false_eq_true, if_false]
  refine ⟨_, List.mem_cons_self, rfl, ?_⟩
  show roundUp size ≤ c.capacity + 16 + d.capacity
  omega

theorem absorbed_fits_other {e : Chunk} (he : e ∈ bs) (hwf : e.Wf) (hfit : Fits size e) :
    ∃ f ∈ absorbed c bs, Fits size f := by
  cases bs with
  | nil => cases he
  | cons d ds =>
    simp only [absorbed]
    split
    next => exact ⟨e, List.mem_cons_of_mem _ he, hfit⟩
    next =>
      obtain rfl | he := List.mem_cons.mp he
      · refine ⟨_, List.mem_cons_self, rfl, ?_⟩
        have hle := hfit.2
        have hcap := hwf.2.1
        show roundUp size ≤ c.capacity + 16 + e.capacity
        omega
      · exact ⟨e, List.mem_cons_of_mem _ he, hfit⟩

/-- There is a chunk that is long enough, unless only the trailing one is left behind the block. -/
theorem freed_fits (hwf : ∀ e ∈ as ++ c :: bs, e.Wf) (hbs : bs ≠ [])
    (hround : roundUp size ≤ c.capacity)
    (hcond : roundUp size ≤ c.length ∨ (∃ p ∈ as.getLast?, p.allocated = false) ∨
      (∃ d ∈ bs.head?, d.allocated = false) ∨ ∃ e ∈ as ++ bs, Fits size e) :
    ∃ f ∈ freed as c bs, Fits size f := by
  have hcap := (hwf c (by simp)).2.1
  have hkeep : (∀ p ∈ as.getLast?, Taken p) →
      ∃ f ∈ as ++ absorbed { c with allocated := false } bs, Fits size f := by
    intro hlast
    obtain hfit | ⟨p, hp, hfree⟩ | ⟨d, hd, hfree⟩ | ⟨e, he, hfit⟩ := hcond
    · obtain ⟨f, hf, hfits⟩ := absorbed_fits (c := { c with allocated := false }) rfl hcap hbs hfit
      exact ⟨f, List.mem_append_right _ hf, hfits⟩
    · cases hfree.symm.trans (hlast p hp)
    · obtain ⟨ds, rfl⟩ : ∃ ds, bs = d :: ds := List.head?_eq_some_iff.mp hd
      obtain ⟨f, hf, hfits⟩ := absorbed_fits_next (c := { c with allocated := false }) hfree hround
      exact ⟨f, List.mem_append_right _ hf, hfits⟩
    · obtain he | he := List.mem_append.mp he
      · exact ⟨e, List.mem_append_left _ he, hfit⟩
      · obtain ⟨f, hf, hfits⟩ := absorbed_fits_other (c := { c with allocated := false }) he
          (hwf e (by simp [he])) hfit
        exact ⟨f, List.mem_append_right _ hf, hfits⟩
  unfold freed
  split
  next hnone =>
    obtain rfl := List.getLast?_eq_none_iff.mp hnone
    exact hkeep nofun
  next p hp =>
    split
    next htaken =>
      refine hkeep fun q hq => ?_
      rw [hp] at hq
      cases hq
      exact htaken
    next =>
      obtain ⟨f, hf, hfits⟩ := absorbed_fits (c := gap (p.capacity + 16 + c.capacity)) rfl
        (Nat.le_refl _) hbs (show roundUp size ≤ p.capacity + 16 + c.capacity by omega)
      exact ⟨f, List.mem_append_right _ hf, hfits⟩

theorem endOf_freed_nil (off : Nat) (as : List Chunk) (c : Chunk) :
    endOf off (freed as c []) ≤ endOf off as := by
  unfold freed
  split
  next hnone =>
    obtain rfl := List.getLast?_eq_none_iff.mp hnone
    exact Nat.le_refl _
  next p hp =>
    obtain ⟨as, rfl⟩ := List.getLast?_eq_some_iff.mp hp
    split
    next => exact (congrArg (endOf off) (List.append_nil _)).le
    next =>
      rw [List.dropLast_concat, endOf_concat]
      simp only [absorbed, List.append_nil]
      omega

theorem endOf_freed_le (off : Nat) (as : List Chunk) (c : Chunk) (bs : List Chunk) :
    endOf off (freed as c bs) ≤ endOf off (as ++ c :: bs) := by
  unfold freed
  split
  next hnone =>
    obtain rfl := List.getLast?_eq_none_iff.mp hnone
    exact endOf_absorbed_le off _ bs
  next p hp =>
    obtain ⟨as, rfl⟩ := List.getLast?_eq_some_iff.mp hp
    split
    next =>
      rw [endOf_append off (as ++ [p]) (c :: bs), endOf_append off (as ++ [p])]
      exact endOf_absorbed_le _ _ bs
    next =>
      have hle := endOf_absorbed_le (endOf off as) (gap (p.capacity + 16 + c.capacity)) bs
      rw [List.dropLast_concat, endOf_append, endOf_append, endOf_concat]
      simp only [endOf, gap] at hle ⊢
      rwa [show endOf off as + 16 + p.capacity + 16 + c.capacity =
        endOf off as + 16 + (p.capacity + 16 + c.capacity) by omega]

/-- Nothing is merged. -/
theorem freed_unmerged (hlast : ∀ p ∈ as.getLast?, Taken p) (hd : Taken d) :
    freed as c (d :: bs) = as ++ { c with allocated := false } :: d :: bs := by
  unfold freed
  split
  next hnone =>
    obtain rfl := List.getLast?_eq_none_iff.mp hnone
    exact if_pos hd
  next p hp =>
    rw [if_pos (hlast p hp)]
    exact congrArg (as ++ ·) (if_pos hd)

/-! ## `account_data_alloc` behind it -/

/-- A chunk that is long enough is taken, and the account grows no longer. -/
theorem alloc_fits (h : G.Holds m cs) (hpos : 0 < size) (hsize : size + 7 < 2 ^ 32)
    (hfit : ∃ f ∈ cs, Fits size f) :
    ∃ res m', alloc G.dataLen m size = (.ok res, m') ∧ G.heapOffset ≤ res ∧
      res + size ≤ endOf G.heapOffset cs ∧
      AccountHeap.trailing m' G.dataLen G.heapOffset = endOf G.heapOffset cs := by
  unfold alloc
  rw [if_neg (by omega), h.offset]
  obtain ⟨hnone, -, -⟩ | ⟨as, c, bs, rfl, hc, -, hs⟩ := search_stops size h.tiles h.length_lt
  · obtain ⟨f, hf, hfits⟩ := hfit
    exact absurd hfits (hnone f hf)
  · have hwf := h.tiles.wf c (by simp)
    have hend := h.seam_lt
    have hle := le_endOf (endOf G.heapOffset as + 16 + c.capacity) bs
    have hoff := le_endOf G.heapOffset as
    have hround := le_roundUp hsize
    obtain ⟨m', hsearch, he⟩ := search_fits 0 h.tiles.seam.2 (by simp only [endOf] at hend; omega)
      hpos hsize hc
    have hsame := endOf_taken_append hwf size G.heapOffset as bs
    have hchange : Change G m m' (as ++ c :: bs) (as ++ (taken c size ++ bs)) none :=
      ⟨Edit.append h.tiles he, by rw [hsame]; exact h.offsets, .inl hsame.le⟩
    refine ⟨_, m', hs.trans hsearch, by omega, ?_, ?_⟩
    · rw [endOf_append]
      have hlen := hc.2
      have hcap := hwf.2.1
      simp only [endOf]
      omega
    · rw [(h.change hchange).trailing, hsame]

/-- When there is none, the search ends at the trailing chunk. -/
theorem alloc_trailing (h : G.Holds m cs) (hpos : 0 < size) (hnone : ∀ c ∈ cs, ¬ Fits size c) :
    alloc G.dataLen m size =
      search G.dataLen m size 1 (endOf G.heapOffset cs) (prevOf 0 G.heapOffset cs) := by
  unfold alloc
  rw [if_neg (by omega), h.offset]
  obtain ⟨-, -, hs⟩ | ⟨as, c, bs, rfl, hc, -, -⟩ := search_stops size h.tiles h.length_lt
  · exact hs
  · exact absurd hc (hnone c (by simp))

theorem search_trailing_ok {res : Nat} (h : Tiles dataLen m prev off [])
    (hs : search dataLen m size 1 off prev = (.ok res, m')) : res = add32 off 16 := by
  have hhead : header m off = ⟨0, prev, 0, 0⟩ := h.linked
  unfold search at hs
  simp only [hhead, if_true] at hs
  split at hs
  next => cases hs
  next =>
    cases hs
    rfl

/-- There is room behind the trailing chunk. -/
theorem alloc_behind {n : Nat} (h : G.Holds m cs) (hpos : 0 < size) (hsize : size + 7 < 2 ^ 32)
    (hend : endOf G.heapOffset cs + 16 + roundUp size ≤ n) (hroom : n + 16 < G.dataLen)
    (hn : n < 2 ^ 32) (hnone : ∀ c ∈ cs, ¬ Fits size c) :
    ∃ res m', alloc G.dataLen m size = (.ok res, m') ∧ G.heapOffset ≤ res ∧ res + size ≤ n ∧
      AccountHeap.trailing m' G.dataLen G.heapOffset ≤ n := by
  have hseam : Tiles G.dataLen m 0 G.heapOffset (cs ++ []) := by
    rw [List.append_nil]
    exact h.tiles
  have hoff := le_endOf G.heapOffset cs
  have hle := le_roundUp hsize
  have hround := roundUp_of_lt hsize
  have hadd : add32 (add32 (endOf G.heapOffset cs) 16) (roundUp size) =
      endOf G.heapOffset cs + 16 + roundUp size := by
    rw [show add32 (endOf G.heapOffset cs) 16 = endOf G.heapOffset cs + 16 from
      add32_of_lt (by omega), add32_of_lt (by omega)]
  rw [alloc_trailing h hpos hnone]
  obtain ⟨hfull, -⟩ | ⟨hlt, hnew, m', hsearch, he⟩ :=
    search_trailing 0 hseam.seam.2 hpos (.inr (by omega))
  · rw [hadd] at hfull
    omega
  · have he := Edit.append hseam he
    rw [List.append_nil] at he
    have hblock : endOf G.heapOffset (cs ++ [block size]) =
        endOf G.heapOffset cs + 16 + roundUp size := endOf_concat G.heapOffset cs (block size)
    have hchange : Change G m m' cs (cs ++ [block size]) none :=
      ⟨he, by omega, .inr (by omega)⟩
    refine ⟨_, m', hsearch, by omega, by omega, ?_⟩
    rw [(h.change hchange).trailing, hblock]
    exact hend

/-! ## A block that is given back -/

/-- `account_data_free` of the block, and `account_data_alloc` of its length: the block that is returned is
before the trailing chunk, which does not move up. -/
def Reusable (G : Region) (m : Memory) (b : Nat) : Prop :=
  ∃ res m', alloc G.dataLen (free m b) (len m b) = (.ok res, m') ∧ G.heapOffset ≤ res ∧
    res + len m b ≤ AccountHeap.trailing m G.dataLen G.heapOffset ∧
    AccountHeap.trailing m' G.dataLen G.heapOffset ≤ AccountHeap.trailing m G.dataLen G.heapOffset

/-- The length is a multiple of eight, or the chunk has a free neighbour, or there is another free chunk
for that length. -/
def FitsAgain (dataLen : Nat) (m : Memory) (b : Nat) : Prop :=
  let chunk := header m (b - sizeofChunk)
  8 ∣ chunk.length ∨
    (chunk.offsetPrev ≠ 0 ∧ (header m chunk.offsetPrev).allocated = 0) ∨
    (header m chunk.offsetNext).allocated = 0 ∨
    (header m (stop m chunk.length dataLen (AccountHeap.heapOffset m))).length ≠ 0

instance (dataLen : Nat) (m : Memory) (b : Nat) : Decidable (FitsAgain dataLen m b) :=
  inferInstanceAs (Decidable (_ ∨ _ ∨ _ ∨ _))

section Block

variable (h : G.Holds m (as ++ c :: bs))

include h

theorem prev_free_iff :
    prevOf 0 G.heapOffset as ≠ 0 ∧ (header m (prevOf 0 G.heapOffset as)).allocated = 0 ↔
      ∃ p ∈ as.getLast?, p.allocated = false := by
  obtain rfl | ⟨as, p, rfl⟩ := List.eq_nil_or_concat' as
  · simp [prevOf]
  · have hpos := G.heapOffset_pos
    have hle := le_endOf G.heapOffset as
    rw [List.append_assoc] at h
    rw [prevOf_concat, h.tiles.seam.2.head]
    simp only [List.getLast?_append, List.getLast?_singleton, Option.some_or, Option.mem_def,
      Option.some.injEq, exists_eq_left']
    constructor
    · rintro ⟨-, hfree⟩
      simpa using hfree
    · intro hfree
      exact ⟨by omega, by rw [hfree]; rfl⟩

theorem next_free_iff :
    (header m (endOf G.heapOffset as + 16 + c.capacity)).allocated = 0 ↔
      ∀ d ∈ bs.head?, d.allocated = false := by
  have htail := h.tiles.seam.2.tail
  cases bs with
  | nil => simp [show header m _ = ⟨0, _, 0, 0⟩ from htail.linked]
  | cons d bs => simp [htail.head]

theorem stop_fits_iff (hc : Taken c) :
    (header m (stop m size G.dataLen G.heapOffset)).length ≠ 0 ↔ ∃ e ∈ as ++ bs, Fits size e := by
  obtain ⟨hnone, hst, -⟩ | ⟨xs, e, ys, heq, he, hst, -⟩ := search_stops size h.tiles h.length_lt
  · have hseam : Tiles G.dataLen m 0 G.heapOffset ((as ++ c :: bs) ++ []) := by
      rw [List.append_nil]
      exact h.tiles
    rw [hst, show header m _ = ⟨0, _, 0, 0⟩ from hseam.seam.2.linked]
    constructor
    · intro hne
      exact absurd rfl hne
    · rintro ⟨e, he, hfits⟩
      refine absurd hfits (hnone e ?_)
      obtain he | he := List.mem_append.mp he
      · exact List.mem_append_left _ he
      · exact List.mem_append_right _ (List.mem_cons_of_mem _ he)
  · have hmem : e ∈ as ++ c :: bs := by
      rw [heq]
      exact List.mem_append_right _ List.mem_cons_self
    have hpos := (h.tiles.wf e hmem).1
    have hseam := h.tiles
    rw [heq] at hseam
    rw [hst, hseam.seam.2.head]
    refine ⟨fun _ => ⟨e, ?_, he⟩, fun _ => by simp only; omega⟩
    obtain hin | hin := List.mem_append.mp hmem
    · exact List.mem_append_left _ hin
    · obtain rfl | hin := List.mem_cons.mp hin
      · cases he.1.symm.trans hc
      · exact List.mem_append_right _ hin

theorem fitsAgain_iff (hc : Taken c) :
    FitsAgain G.dataLen m (endOf G.heapOffset as + 16) ↔
      8 ∣ c.length ∨ (∃ p ∈ as.getLast?, p.allocated = false) ∨
        (∀ d ∈ bs.head?, d.allocated = false) ∨ ∃ e ∈ as ++ bs, Fits c.length e := by
  unfold FitsAgain
  simp only [sizeofChunk, Nat.add_sub_cancel, h.tiles.seam.2.head, h.offset]
  rw [prev_free_iff h, next_free_iff h, stop_fits_iff h hc]

theorem reusable_of_fits (hc : Taken c) (hapart : Apart (as ++ c :: bs))
    (hroom : endOf G.heapOffset (as ++ c :: bs) + 16 < G.dataLen)
    (hfits : FitsAgain G.dataLen m (endOf G.heapOffset as + 16)) :
    Reusable G m (endOf G.heapOffset as + 16) := by
  obtain ⟨hpos, hcap, hdvd⟩ := h.tiles.wf c (by simp)
  have hend := h.seam_lt
  have hle := le_endOf (endOf G.heapOffset as + 16 + c.capacity) bs
  have hoff := le_endOf G.heapOffset as
  have hheader := h.header_le
  simp only [endOf] at hend
  have hsize : c.length + 7 < 2 ^ 32 := by omega
  have hround : roundUp c.length ≤ c.capacity := roundUp_le hsize hdvd hcap
  obtain ⟨hchange, -⟩ := free_spec h hc hapart
  have hfreed := h.change hchange
  unfold Reusable
  rw [h.trailing, len_eq h (mem_placed G.heapOffset as bs c)]
  have hgrow := endOf_freed_le G.heapOffset as c bs
  by_cases hfit : ∃ f ∈ freed as c bs, Fits c.length f
  · obtain ⟨res, m', halloc, hres, hin, htrailing⟩ := alloc_fits hfreed hpos hsize hfit
    exact ⟨res, m', halloc, hres, by omega, by omega⟩
  · obtain rfl : bs = [] := by
      by_contra hbs
      refine hfit (freed_fits h.tiles.wf hbs hround ?_)
      obtain hdvd | hprev | hnext | hother := (fitsAgain_iff h hc).mp hfits
      · exact .inl (roundUp_le hsize hdvd le_rfl)
      · exact .inr (.inl hprev)
      · obtain ⟨d, ds, rfl⟩ := List.exists_cons_of_ne_nil hbs
        exact .inr (.inr (.inl ⟨d, rfl, hnext d rfl⟩))
      · exact .inr (.inr (.inr hother))
    have hlow := endOf_freed_nil G.heapOffset as c
    have hlast : endOf G.heapOffset (as ++ [c]) = endOf G.heapOffset as + 16 + c.capacity :=
      endOf_concat G.heapOffset as c
    obtain ⟨res, m', halloc, hres, hin, htrailing⟩ := alloc_behind hfreed hpos hsize
      (by omega) hroom h.offsets fun e he hfits => hfit ⟨e, he, hfits⟩
    exact ⟨res, m', halloc, hres, hin, htrailing⟩

/-- The search for it goes on to the trailing chunk. -/
theorem fits_of_reusable (hc : Taken c) (hapart : Apart (as ++ c :: bs))
    (hreuse : Reusable G m (endOf G.heapOffset as + 16)) :
    FitsAgain G.dataLen m (endOf G.heapOffset as + 16) := by
  by_contra hnot
  rw [fitsAgain_iff h hc] at hnot
  obtain ⟨hdvd, hprev, hnext, hother⟩ : ¬ 8 ∣ c.length ∧
      (¬ ∃ p ∈ as.getLast?, p.allocated = false) ∧ (¬ ∀ d ∈ bs.head?, d.allocated = false) ∧
      ¬ ∃ e ∈ as ++ bs, Fits c.length e := by
    simpa only [not_or] using hnot
  cases bs with
  | nil => exact hnext nofun
  | cons d ds =>
    obtain ⟨hpos, hcap, -⟩ := h.tiles.wf c (by simp)
    have hend := h.seam_lt
    have hle := le_endOf (endOf G.heapOffset as + 16 + c.capacity) (d :: ds)
    have hheader := h.header_le
    have hoff := le_endOf G.heapOffset as
    simp only [endOf] at hend hle
    have hsize : c.length + 7 < 2 ^ 32 := by omega
    have hd : Taken d := by
      cases hd : d.allocated with
      | true => exact hd
      | false => exact absurd (by simpa using hd) hnext
    have hlast : ∀ p ∈ as.getLast?, Taken p := by
      intro p hp
      cases hfree : p.allocated with
      | true => exact hfree
      | false => exact absurd ⟨p, hp, hfree⟩ hprev
    have hmerge : freed as c (d :: ds) = as ++ { c with allocated := false } :: d :: ds :=
      freed_unmerged hlast hd
    have hchange := (free_spec h hc hapart).1
    rw [hmerge] at hchange
    have hfreed := h.change hchange
    have hsame : endOf G.heapOffset (as ++ { c with allocated := false } :: d :: ds) =
        endOf G.heapOffset (as ++ c :: d :: ds) := by
      rw [endOf_append, endOf_append]
      rfl
    have hnone : ∀ e ∈ as ++ { c with allocated := false } :: d :: ds, ¬ Fits c.length e := by
      intro e he hfits
      obtain he | he := List.mem_append.mp he
      · exact hother ⟨e, List.mem_append_left _ he, hfits⟩
      · obtain rfl | he := List.mem_cons.mp he
        · -- the length is not rounded up
          have heq : roundUp c.length = c.length := Nat.le_antisymm hfits.2 (le_roundUp hsize)
          exact hdvd (heq ▸ dvd_roundUp c.length)
        · exact hother ⟨e, List.mem_append_right _ he, hfits⟩
    obtain ⟨res, m', halloc, hres, hin, -⟩ := hreuse
    rw [h.trailing, len_eq h (mem_placed G.heapOffset as (d :: ds) c)] at hin
    rw [len_eq h (mem_placed G.heapOffset as (d :: ds) c), alloc_trailing hfreed hpos hnone,
      hsame] at halloc
    have hseam := hfreed.tiles
    rw [← List.append_nil (as ++ _)] at hseam
    have hblock := search_trailing_ok (hsame ▸ hseam.seam.2) halloc
    have h32 := h.offsets
    unfold add32 at hblock
    omega

end Block

/-- In a run from the account as it is made of which no sum is cut off, a block is given back, and one of
its length is asked for: the block that is returned is in the part of the account that was in use, if
and only if the length is a multiple of eight, a neighbour is free, or another chunk is long enough. -/
theorem reusable_iff_fitsAgain (G : Region) (s : State) (calls : List Call) (b : Nat) (h : G.Fresh s)
    (hown : s.OwnsRun G.dataLen calls) (hrange : s.InRangeRun G.dataLen calls)
    (hb : b ∈ (s.after G.dataLen calls).live) :
    Reusable G (s.after G.dataLen calls).mem b ↔ FitsAgain G.dataLen (s.after G.dataLen calls).mem b := by
  obtain ⟨cs, hrep, hapart, hlive, hroom⟩ := reached_after (reached_fresh h) hown hrange
  obtain ⟨as, c, bs, rfl, hc, rfl⟩ := hlive.split hb
  exact ⟨fits_of_reusable hrep hc hapart,
    reusable_of_fits hrep hc hapart (hroom.resolve_left (by simp))⟩

/-! ## Samples -/

namespace Sample

/-- Three blocks -/
def three : List Call := [.alloc 8, .alloc 10, .alloc 8]

theorem first_is_reused : Reusable account.region (fresh.after 256 three).mem 32 :=
  (reusable_iff_fitsAgain account.region fresh three 32 ⟨by decide, by decide, by decide, rfl⟩
    (by decide +kernel) (by decide +kernel) (by decide +kernel)).mpr (by decide +kernel)

/-- The one in the middle has 16 bytes, and ten are not found there again. -/
theorem middle_is_lost :
    ¬ ∀ (G : Region) (s : State) (calls : List Call) (b : Nat), G.Fresh s →
      s.OwnsRun G.dataLen calls → s.InRangeRun G.dataLen calls → b ∈ (s.after G.dataLen calls).live →
      Reusable G (s.after G.dataLen calls).mem b := by
  intro hall
  obtain ⟨res, m', halloc, -, hin, -⟩ := hall account.region fresh three 56
    ⟨by decide, by decide, by decide, rfl⟩ (by decide +kernel) (by decide +kernel) (by decide +kernel)
  have hres : (alloc 256 (free (fresh.after 256 three).mem 56) 10).1 = .ok 112 := by decide +kernel
  have hlen : len (fresh.after 256 three).mem 56 = 10 := by decide +kernel
  have htrailing : AccountHeap.trailing (fresh.after 256 three).mem 256 16 = 96 := by decide +kernel
  have heq : Outcome.ok 112 = .ok res :=
    (hlen ▸ hres).symm.trans (congrArg Prod.fst halloc)
  cases heq
  have hle : 112 + len (fresh.after 256 three).mem 56 ≤ 96 := hin.trans htrailing.le
  omega

end Sample

end Solang.Stdlib.AccountHeap
