import Solang.Stdlib.AccountHeapEdits

/-!
# What the calls do to the account data
-/

namespace Solang.Stdlib.AccountHeap

open Memory

/-- An account: how long its data is, and where the heap starts -/
structure Account where
  dataLen : Nat
  heapOffset : Nat
  dataLen_lt : dataLen < 2 ^ 31
  heapOffset_pos : 0 < heapOffset
  heapOffset_dvd : 8 ∣ heapOffset

/-- An account of any length -/
structure Region where
  dataLen : Nat
  heapOffset : Nat
  heapOffset_pos : 0 < heapOffset
  heapOffset_dvd : 8 ∣ heapOffset

def Account.region (A : Account) : Region :=
  ⟨A.dataLen, A.heapOffset, A.heapOffset_pos, A.heapOffset_dvd⟩

variable {A : Account} {G : Region} {m m' : Memory} {prev off size : Nat} {c d : Chunk}
  {as bs cs cs' : List Chunk}

/-- The account data holds these chunks. -/
structure Rep (A : Account) (m : Memory) (cs : List Chunk) : Prop where
  offset : heapOffset m = A.heapOffset
  tiles : Tiles A.dataLen m 0 A.heapOffset cs

/-- The account data holds these chunks, whose offsets are numbers of 32 bits. -/
structure Region.Holds (G : Region) (m : Memory) (cs : List Chunk) : Prop where
  offset : AccountHeap.heapOffset m = G.heapOffset
  tiles : Tiles G.dataLen m 0 G.heapOffset cs
  offsets : endOf G.heapOffset cs < 2 ^ 32

theorem Rep.holds (h : Rep A m cs) : A.region.Holds m cs where
  offset := h.offset
  tiles := h.tiles
  offsets := by
    have hfits := h.tiles.fits
    have hlen := A.dataLen_lt
    show endOf A.heapOffset cs < 2 ^ 32
    omega

theorem Region.Holds.rep (h : A.region.Holds m cs) : Rep A m cs := ⟨h.offset, h.tiles⟩

theorem Region.Holds.seam_lt (h : G.Holds m (as ++ bs)) :
    endOf (endOf G.heapOffset as) bs < 2 ^ 32 := by
  rw [← endOf_append]
  exact h.offsets

/-- The header of the account is before the heap: the first chunk has no previous one. -/
theorem Region.Holds.header_le (h : G.Holds m cs) : 16 ≤ G.heapOffset := by
  have hpos := G.heapOffset_pos
  have hdvd := G.heapOffset_dvd
  by_contra hlt
  have h8 : G.heapOffset = 8 := by omega
  have hfirst : (header m 8).offsetPrev = 0 := by
    have hl := h.tiles.linked
    rw [h8] at hl
    cases cs with
    | nil => rw [show header m 8 = _ from hl]
    | cons c cs => rw [hl.1]
  have hoff : AccountHeap.heapOffset m = 0 := hfirst
  rw [h.offset] at hoff
  omega

/-- An edit of the whole list -/
structure Change (G : Region) (m m' : Memory) (cs cs' : List Chunk) (block : Option Nat) : Prop where
  edit : Edit G.dataLen m m' 0 G.heapOffset cs cs' block
  offsets : endOf G.heapOffset cs' < 2 ^ 32
  /-- The checks of the account's length are strict. -/
  room : endOf G.heapOffset cs' ≤ endOf G.heapOffset cs ∨ endOf G.heapOffset cs' + 16 < G.dataLen

theorem Region.Holds.change {block : Option Nat} (h : G.Holds m cs) (he : Change G m m' cs cs' block) :
    G.Holds m' cs' where
  offset := by
    rw [← h.offset]
    exact he.edit.low.load (Nat.zero_le _) h.header_le
  tiles := he.edit.tiles
  offsets := he.offsets

theorem Change.trans {m'' : Memory} {cs'' : List Chunk} {block : Option Nat}
    (h : Change G m m' cs cs' block) (h' : Change G m' m'' cs' cs'' block) :
    Change G m m'' cs cs'' block := by
  refine ⟨h.edit.trans h'.edit, h'.offsets, ?_⟩
  have h1 := h.room
  have h2 := h'.room
  omega

theorem Change.weaken (h : Change G m m' cs cs' none) (block : Option Nat) :
    Change G m m' cs cs' block := ⟨h.edit.weaken block, h.offsets, h.room⟩

/-- The block is a new one of this size: what was there before is free, or is the old block. -/
def NewBlock (G : Region) (cs cs' : List Chunk) (old : Option Nat) (b size : Nat) : Prop :=
  (∃ e, (b, e) ∈ placed G.heapOffset cs' ∧ Taken e ∧ e.length = size) ∧
    ∀ f, (b, f) ∈ placed G.heapOffset cs → Taken f → some b = old

theorem mem_placed (off : Nat) (as bs : List Chunk) (c : Chunk) :
    (endOf off as + 16, c) ∈ placed off (as ++ c :: bs) := by
  rw [placed_append]
  exact List.mem_append_right _ List.mem_cons_self

/-! ## `account_data_alloc` -/

/-- The chunk where the search stops, within this many chunks -/
def stop (data : Memory) (size : Nat) : Nat → Nat → Nat
  | 0, offset => offset
  | fuel + 1, offset =>
    let chunk := header data offset
    if chunk.allocated = 0 ∧ (chunk.length = 0 ∨ roundUp size ≤ chunk.length) then offset
    else stop data size fuel chunk.offsetNext

/-- At this chunk the account is too small, or no sum of the size is cut off at 32 bits. -/
def FitsAt (dataLen : Nat) (data : Memory) (size offset : Nat) : Prop :=
  if (header data offset).length = 0 then
    dataLen ≤ add32 (add32 offset sizeofChunk) (roundUp size) + sizeofChunk ∨
      offset + sizeofChunk + (size + 7) / 8 * 8 < 2 ^ 32
  else size + 7 < 2 ^ 32

variable {dataLen fuel b : Nat}

/-- Where the search stops, only the chunk there matters. -/
theorem search_stops (size : Nat) (h : Tiles dataLen m prev off cs) (hfuel : cs.length < fuel) :
    ((∀ c ∈ cs, ¬ Fits size c) ∧ stop m size fuel off = endOf off cs ∧
      search dataLen m size fuel off prev =
        search dataLen m size 1 (endOf off cs) (prevOf prev off cs)) ∨
    ∃ as c bs, cs = as ++ c :: bs ∧ Fits size c ∧ stop m size fuel off = endOf off as ∧
      search dataLen m size fuel off prev =
        search dataLen m size 1 (endOf off as) (prevOf prev off as) := by
  induction cs generalizing prev off fuel with
  | nil =>
    obtain ⟨fuel, rfl⟩ : ∃ k, fuel = k + 1 := ⟨fuel - 1, by simp at hfuel; omega⟩
    have hhead : header m off = ⟨0, prev, 0, 0⟩ := h.linked
    refine .inl ⟨nofun, ?_, ?_⟩
    · simp only [stop, hhead, true_and, true_or, if_true, endOf]
    · show search dataLen m size (fuel + 1) off prev = search dataLen m size 1 off prev
      unfold search
      simp only [hhead, if_true]
  | cons c cs ih =>
    obtain ⟨fuel, rfl⟩ : ∃ k, fuel = k + 1 := ⟨fuel - 1, by simp at hfuel; omega⟩
    have hcpos := (h.wf c List.mem_cons_self).1
    have hhead := h.head
    by_cases hfit : Fits size c
    · refine .inr ⟨[], c, cs, rfl, hfit, ?_, ?_⟩
      · rw [stop]
        simp only [hhead]
        exact if_pos ⟨by rw [hfit.1]; rfl, .inr hfit.2⟩
      · have hlarge : ¬ c.length < roundUp size := Nat.not_lt.mpr hfit.2
        have hzero : ¬ c.length = 0 := by omega
        simp only [search, endOf, prevOf, hhead, hfit.1, Bool.toNat_false, if_true, hlarge, hzero,
          if_false]
    · -- on to the next chunk
      have hstop : stop m size (fuel + 1) off = stop m size fuel (off + 16 + c.capacity) := by
        rw [stop]
        simp only [hhead]
        refine if_neg ?_
        rintro ⟨hfree, h0 | hle⟩
        · omega
        · exact hfit ⟨by simpa using hfree, hle⟩
      have hstep : search dataLen m size (fuel + 1) off prev =
          search dataLen m size fuel (off + 16 + c.capacity) off := by
        rw [search]
        simp only [hhead]
        cases hc : c.allocated with
        | true => exact if_neg (by simp)
        | false =>
          have hsmall : c.length < roundUp size := by
            by_contra hle
            exact hfit ⟨hc, by omega⟩
          rw [if_pos (show false.toNat = 0 from rfl), if_neg (by omega), if_pos hsmall]
      rw [hstep, hstop]
      obtain ⟨hnone, hst, hs⟩ | ⟨as, d, bs, rfl, hd, hst, hs⟩ := ih h.tail (by simpa using hfuel)
      · exact .inl ⟨List.forall_mem_cons.mpr ⟨hfit, hnone⟩, hst, hs⟩
      · exact .inr ⟨c :: as, d, bs, rfl, hd, hst, hs⟩

/-- The search stops at a chunk that fits, or at the trailing one. -/
theorem search_spec (h : Tiles dataLen m prev off cs) (h32 : endOf off cs < 2 ^ 32)
    (hpos : 0 < size) (hfuel : cs.length < fuel)
    (hrange : FitsAt dataLen m size (stop m size fuel off)) :
    ((∀ c ∈ cs, ¬ Fits size c) ∧
        dataLen ≤ add32 (add32 (endOf off cs) 16) (roundUp size) + 16 ∧
        search dataLen m size fuel off prev = (.tooSmall, m)) ∨
      ((∀ c ∈ cs, ¬ Fits size c) ∧ endOf off cs + 16 + roundUp size < 2 ^ 32 ∧
        endOf off cs + 16 + roundUp size + 16 < dataLen ∧ ∃ m', search dataLen m size fuel off prev = (.ok (endOf off cs + 16), m') ∧
          Edit dataLen m m' prev off cs (cs ++ [block size]) none) ∨
      ∃ as c bs m', cs = as ++ c :: bs ∧ Fits size c ∧
        search dataLen m size fuel off prev = (.ok (endOf off as + 16), m') ∧
        Edit dataLen m m' prev off cs (as ++ (taken c size ++ bs)) none := by
  obtain ⟨hnone, hst, hs⟩ | ⟨as, c, bs, rfl, hfit, hst, hs⟩ := search_stops size h hfuel
  · have hseam : Tiles dataLen m prev off (cs ++ []) := by rwa [List.append_nil]
    have hlast := hseam.seam.2
    rw [hst, FitsAt, show header m (endOf off cs) = ⟨0, _, 0, 0⟩ from hlast.linked, if_pos rfl]
      at hrange
    rw [hs]
    obtain ⟨hfull, hsmall⟩ | ⟨hlt, hroom, m', hsearch, he⟩ := search_trailing 0 hlast hpos hrange
    · exact .inl ⟨hnone, hfull, hsmall⟩
    · refine .inr (.inl ⟨hnone, hlt, hroom, m', hsearch, ?_⟩)
      have he := Edit.append hseam he
      rwa [List.append_nil] at he
  · have hseam := h.seam.2
    have hcpos := (hseam.wf c List.mem_cons_self).1
    have hc32 : endOf off as + 16 + c.capacity < 2 ^ 32 := by
      have hle := le_endOf (endOf off as + 16 + c.capacity) bs
      rw [endOf_append] at h32
      simp only [endOf] at h32
      omega
    rw [hst, FitsAt, hseam.head, if_neg (by simp only; omega)] at hrange
    rw [hs]
    obtain ⟨m', hsearch, he⟩ := search_fits 0 hseam hc32 hpos hrange hfit
    exact .inr (.inr ⟨as, c, bs, m', rfl, hfit, hsearch, Edit.append h he⟩)

theorem apart_append (h : Apart cs) (size : Nat) : Apart (cs ++ [block size]) := by
  unfold Apart at h ⊢
  have hcs := h.of_append_left
  rw [List.append_assoc]
  exact (Separated.append_taken (show Taken (block size) from rfl)).mpr ⟨hcs, .singleton _⟩

theorem apart_taken (hfree : c.allocated = false) (h : Apart (as ++ c :: bs)) :
    Apart (as ++ (taken c size ++ bs)) := by
  unfold Apart at h ⊢
  rw [List.append_assoc, List.cons_append] at h
  obtain ⟨has, hbs, -, hhead⟩ := (Separated.append_gap (by simp [hfree])).mp h
  rw [List.append_assoc]
  unfold taken
  split
  next =>
    exact (Separated.append_taken (show Taken ⟨c.capacity, size, true⟩ from rfl)).mpr ⟨has, hbs⟩
  next =>
    refine (Separated.append_taken (show Taken (block size) from rfl)).mpr ⟨has, ?_⟩
    exact (Separated.cons_gap (by simp [gap])).mpr ⟨hbs, hhead⟩

/-- No sum of `account_data_alloc` is cut off at 32 bits. -/
def AllocInRange (dataLen : Nat) (data : Memory) (size : Nat) : Prop :=
  size = 0 ∨ FitsAt dataLen data size (stop data size dataLen (heapOffset data))

theorem endOf_taken_append (hc : c.Wf) (size off : Nat) (as bs : List Chunk) :
    endOf off (as ++ (taken c size ++ bs)) = endOf off (as ++ c :: bs) := by
  rw [endOf_append, endOf_append, endOf_append, endOf_taken hc]
  rfl

/-- `account_data_alloc` of a block finds room or leaves the account as it is. -/
theorem alloc_spec (h : G.Holds m cs) (hapart : Apart cs) (hpos : 0 < size)
    (hrange : AllocInRange G.dataLen m size) :
    alloc G.dataLen m size = (.tooSmall, m) ∨ ∃ b m' cs', alloc G.dataLen m size = (.ok b, m') ∧
      Change G m m' cs cs' none ∧ Apart cs' ∧ NewBlock G cs cs' none b size := by
  have hfuel : cs.length < G.dataLen := by
    have hle := length_mul_le G.heapOffset cs
    have hfits := h.tiles.fits
    omega
  have hrange := hrange.resolve_left (by omega)
  unfold alloc
  rw [if_neg (by omega), h.offset]
  rw [h.offset] at hrange
  obtain ⟨-, -, hsmall⟩ | ⟨-, hlt, hroom, m', hs, he⟩ | ⟨as, c, bs, m', rfl, hfit, hs, he⟩ :=
    search_spec h.tiles h.offsets hpos hfuel hrange
  · exact .inl hsmall
  · refine .inr ⟨_, m', _, hs, ⟨he, ?_, ?_⟩, apart_append hapart size,
      ⟨block size, mem_placed G.heapOffset cs [] _, rfl, rfl⟩, ?_⟩
    · rw [endOf_append]
      exact hlt
    · rw [endOf_append]
      exact .inr hroom
    · intro f hf
      have hb := (placed_bound hf).2
      omega
  · have hend := endOf_taken_append (h.tiles.wf c (by simp)) size G.heapOffset as bs
    refine .inr ⟨_, m', _, hs, ⟨he, by rw [hend]; exact h.offsets, .inl hend.le⟩,
      apart_taken hfit.1 hapart, ?_, ?_⟩
    · unfold taken
      split
      next => exact ⟨_, mem_placed G.heapOffset as bs _, rfl, rfl⟩
      next => exact ⟨_, mem_placed G.heapOffset as _ _, rfl, rfl⟩
    · intro f hf hft
      cases placed_unique hf (mem_placed G.heapOffset as bs c)
      cases hfit.1.symm.trans hft

theorem stop_le (size : Nat) (h : Tiles dataLen m prev off cs) (hfuel : cs.length < fuel) :
    stop m size fuel off + 16 ≤ dataLen := by
  have hfits := h.fits
  obtain ⟨-, hst, -⟩ | ⟨as, c, bs, rfl, -, hst, -⟩ := search_stops size h hfuel
  · omega
  · have hseam := h.seam.2.bound_nil
    omega

/-- The account and the block are of less than `2 ^ 31` bytes. -/
theorem allocInRange_of_lt (h : Rep A m cs) (hsize : size < 2 ^ 31) :
    AllocInRange A.dataLen m size := by
  have hlen := A.dataLen_lt
  have hfuel : cs.length < A.dataLen := by
    have hle := length_mul_le A.heapOffset cs
    have hfits := h.tiles.fits
    omega
  have hstop := stop_le size h.tiles hfuel
  right
  rw [h.offset]
  unfold FitsAt
  split
  next => exact .inr (by simp only [sizeofChunk]; omega)
  next => omega

/-- `account_data_alloc` on such an account -/
theorem alloc_spec_of_lt (h : Rep A m cs) (hapart : Apart cs) (hpos : 0 < size)
    (hsize : size < 2 ^ 31) :
    alloc A.dataLen m size = (.tooSmall, m) ∨ ∃ b m' cs', alloc A.dataLen m size = (.ok b, m') ∧
      Change A.region m m' cs cs' none ∧ Apart cs' ∧ NewBlock A.region cs cs' none b size :=
  alloc_spec h.holds hapart hpos (allocInRange_of_lt h hsize)

/-! ## `account_data_free` -/

theorem endOf_absorbed_le (off : Nat) (c : Chunk) (bs : List Chunk) :
    endOf off (absorbed c bs) ≤ endOf off (c :: bs) := by
  cases bs with
  | nil =>
    have hle := le_endOf off [c]
    exact hle
  | cons d ds =>
    simp only [absorbed]
    split
    next => exact Nat.le_refl _
    next =>
      have hend : off + 16 + (c.capacity + 16 + d.capacity) =
          off + 16 + c.capacity + 16 + d.capacity := by omega
      simp only [endOf, gap, hend]
      exact Nat.le_refl _

/-- Free chunks behind one that is taken -/
theorem apart_absorbed (has : Separated Taken as) (hlast : ∀ a ∈ as.getLast?, Taken a)
    (hc : c.allocated = false) (hbs : Apart bs) : Apart (as ++ absorbed c bs) := by
  unfold Apart at hbs ⊢
  rw [List.append_assoc]
  cases bs with
  | nil => exact (Separated.append_gap (by simp)).mpr ⟨has, .nil, hlast, by simp⟩
  | cons d ds =>
    simp only [absorbed]
    cases hd : d.allocated with
    | true => exact (Separated.append_gap (by simp [hc])).mpr ⟨has, hbs, hlast, by simpa using hd⟩
    | false =>
      obtain ⟨hds, hhead⟩ := (Separated.cons_gap (by simp [hd])).mp hbs
      exact (Separated.append_gap (by simp [gap])).mpr ⟨has, hds, hlast, hhead⟩

theorem apart_append_taken (hc : Taken c) :
    Apart (as ++ c :: bs) ↔ Separated Taken as ∧ Apart bs := by
  unfold Apart
  rw [List.append_assoc]
  exact Separated.append_taken hc

theorem endOf_concat (off : Nat) (as : List Chunk) (p : Chunk) :
    endOf off (as ++ [p]) = endOf off as + 16 + p.capacity := by
  rw [endOf_append]
  rfl

/-- Nothing is merged before the chunk. -/
theorem free_next (h : G.Holds m (as ++ c :: bs)) (hlast : ∀ a ∈ as.getLast?, Taken a)
    (hc : c.allocated = false) (hapart : Separated Taken as ∧ Apart bs) :
    Change G m (mergeNext m (endOf G.heapOffset as)) (as ++ c :: bs) (as ++ absorbed c bs) none ∧
      Apart (as ++ absorbed c bs) := by
  have he := edit_mergeNext h.tiles.seam.2 h.seam_lt hc
  have hle := endOf_absorbed_le (endOf G.heapOffset as) c bs
  have hlt := h.seam_lt
  refine ⟨⟨Edit.append h.tiles he, ?_, ?_⟩, apart_absorbed hapart.1 hlast hc hapart.2⟩
  · rw [endOf_append]
    omega
  · rw [endOf_append, endOf_append]
    exact .inl hle

/-- The chunk before the one that is freed -/
theorem prevOf_concat (prev off : Nat) (as : List Chunk) (c : Chunk) :
    prevOf prev off (as ++ [c]) = endOf off as := by
  induction as generalizing prev off with
  | nil => rfl
  | cons a as ih => exact ih _ _

theorem free_eq {cur : Nat} (h : cur + 16 < 2 ^ 32) :
    free m (cur + 16) = mergeNext (mergePrev (setAllocated m cur 0) cur).2
      (mergePrev (setAllocated m cur 0) cur).1 := by
  have hoff : sub32 (cur + 16) 16 = cur := by
    rw [sub32_of_le (by omega) h, Nat.add_sub_cancel]
  unfold free
  rw [if_neg (by omega), sizeofChunk, hoff]

/-- The chunks after `account_data_free` of the chunk behind `as` -/
def freed (as : List Chunk) (c : Chunk) (bs : List Chunk) : List Chunk :=
  match as.getLast? with
  | none => absorbed { c with allocated := false } bs
  | some p =>
    if p.allocated then as ++ absorbed { c with allocated := false } bs
    else as.dropLast ++ absorbed (gap (p.capacity + 16 + c.capacity)) bs

theorem free_spec (h : G.Holds m (as ++ c :: bs)) (hc : Taken c) (hapart : Apart (as ++ c :: bs)) :
    Change G m (free m (endOf G.heapOffset as + 16)) (as ++ c :: bs) (freed as c bs)
      (some (endOf G.heapOffset as + 16)) ∧ Apart (freed as c bs) := by
  obtain ⟨has, hbs⟩ := (apart_append_taken hc).mp hapart
  have hlt := h.seam_lt
  have hle := le_endOf (endOf G.heapOffset as + 16 + c.capacity) bs
  simp only [endOf] at hlt
  -- the chunk becomes free
  have h1 : Change G m _ _ _ _ :=
    ⟨Edit.append h.tiles (edit_setAllocated h.tiles.seam.2), by rw [endOf_append]; exact hlt,
      .inl (by rw [endOf_append, endOf_append]; exact Nat.le_refl _)⟩
  have hrep := h.change h1
  rw [free_eq (by omega)]
  generalize setAllocated m (endOf G.heapOffset as) 0 = m1 at h1 hrep ⊢
  have hhead := hrep.tiles.seam.2.head
  unfold freed
  obtain rfl | ⟨as, p, rfl⟩ := List.eq_nil_or_concat' as
  · have hskip : mergePrev m1 (endOf G.heapOffset []) = (endOf G.heapOffset [], m1) :=
      mergePrev_taken (.inl (by rw [hhead]; rfl))
    obtain ⟨h2, hcs'⟩ := free_next hrep (by simp) rfl ⟨has, hbs⟩
    rw [hskip]
    exact ⟨h1.trans (h2.weaken _), hcs'⟩
  · have hsplit := hrep
    rw [List.append_assoc] at hsplit
    simp only [List.getLast?_append, List.getLast?_singleton, Option.some_or, List.dropLast_concat]
    cases hp : p.allocated with
    | true =>
      have hskip : mergePrev m1 (endOf G.heapOffset (as ++ [p])) =
          (endOf G.heapOffset (as ++ [p]), m1) := by
        refine mergePrev_taken (.inr ?_)
        rw [hhead, prevOf_concat, hsplit.tiles.seam.2.head, hp]
        exact Nat.one_ne_zero
      obtain ⟨h2, hcs'⟩ := free_next hrep (by simpa using hp) rfl ⟨has, hbs⟩
      rw [hskip, if_pos rfl]
      exact ⟨h1.trans (h2.weaken _), hcs'⟩
    | false =>
      -- the two free chunks are one before the next one is looked at
      obtain ⟨has, -, hlast, -⟩ := (Separated.append_gap (by simp [hp])).mp has
      have hpos : 0 < endOf G.heapOffset as := by
        have hle := le_endOf G.heapOffset as
        have h0 := G.heapOffset_pos
        omega
      obtain ⟨hcur, hmerge⟩ := mergePrev_free hsplit.tiles.seam.2 hsplit.seam_lt hpos hp rfl
      rw [← endOf_concat] at hcur hmerge
      have hend : endOf (endOf G.heapOffset as) (gap (p.capacity + 16 + c.capacity) :: bs) =
          endOf (endOf G.heapOffset as) (p :: { c with allocated := false } :: bs) := by
        simp only [endOf, gap]
        rw [show endOf G.heapOffset as + 16 + (p.capacity + 16 + c.capacity) =
          endOf G.heapOffset as + 16 + p.capacity + 16 + c.capacity by omega]
      have h2 : Change G m1 _ _ _ _ :=
        ⟨Edit.append hsplit.tiles hmerge, by rw [endOf_append, hend]; exact hsplit.seam_lt,
          .inl (by rw [endOf_append, endOf_append, hend]; exact Nat.le_refl _)⟩
      obtain ⟨h3, hcs'⟩ := free_next (hsplit.change h2) hlast rfl ⟨has, hbs⟩
      have h4 := h2.trans h3
      rw [← List.append_assoc] at h4
      rw [hcur, if_neg Bool.false_ne_true]
      exact ⟨h1.trans (h4.weaken _), hcs'⟩

/-! ## `account_data_realloc` -/

theorem len_eq (h : G.Holds m cs) (hb : (b, c) ∈ placed G.heapOffset cs) :
    len m b = c.length := by
  obtain ⟨as, bs, rfl, rfl⟩ := exists_of_mem_placed hb
  have hlt := h.seam_lt
  have hle := le_endOf (endOf G.heapOffset as + 16 + c.capacity) bs
  simp only [endOf] at hlt
  unfold len
  rw [if_neg (by omega), sizeofChunk, sub32_of_le (by omega) (by omega), Nat.add_sub_cancel,
    h.tiles.seam.2.head]

theorem len_le (h : G.Holds m cs) (hb : (b, c) ∈ placed G.heapOffset cs) :
    len m b ≤ c.capacity := by
  rw [len_eq h hb]
  obtain ⟨as, bs, rfl, -⟩ := exists_of_mem_placed hb
  exact (h.tiles.wf c (by simp)).2.1

/-- Bytes of a payload are written. -/
theorem change_payload (h : G.Holds m cs) (hb : (b, c) ∈ placed G.heapOffset cs)
    (hw : Within m m' b (b + c.capacity)) : Change G m m' cs cs (some b) := by
  obtain ⟨as, bs, rfl, rfl⟩ := exists_of_mem_placed hb
  have ht := h.tiles.seam.2
  have ht' : Tiles G.dataLen m' (prevOf 0 G.heapOffset as) (endOf G.heapOffset as) ([c] ++ bs) := by
    refine ⟨⟨?_, ht.linked.2.frame (hw.agree (.inr le_rfl))⟩, ht.fits, ht.wf⟩
    rw [header_frame (hw.agree (.inl le_rfl))]
    exact ht.head
  refine ⟨Edit.append h.tiles (Edit.replace [c] ht' (hw.mono ?_ ?_) rfl
    fun _ _ => placed_one fun _ => rfl), h.offsets, .inl (Nat.le_refl _)⟩
  · omega
  · show endOf G.heapOffset as + 16 + c.capacity ≤ endOf G.heapOffset as + 16 + c.capacity + 16
    omega

/-- What a call of `account_data_realloc` that succeeds does -/
structure Reallocated (G : Region) (m m' : Memory) (cs : List Chunk) (old length new size : Nat) :
    Prop where
  change : ∃ cs', Change G m m' cs cs' (some old) ∧ Apart cs' ∧ NewBlock G cs cs' (some old) new size
  payload : ∀ i < min length size, m' (new + i) = m (old + i)

/-- The block stays where it is. -/
theorem reallocated_of_resized (h : G.Holds m (as ++ c :: bs)) (hc : Taken c)
    (hapart : Apart (as ++ c :: bs))
    (hr : Resized G.dataLen m m' (prevOf 0 G.heapOffset as) (endOf G.heapOffset as) c bs size) :
    Reallocated G m m' (as ++ c :: bs) (endOf G.heapOffset as + 16) c.length
      (endOf G.heapOffset as + 16) size := by
  obtain ⟨e, rest, he, hsize, het, hrest, hpay, hend, hroom⟩ := hr
  obtain ⟨has, hbs⟩ := (apart_append_taken hc).mp hapart
  refine ⟨⟨as ++ e :: rest, ⟨Edit.append h.tiles he, by rwa [endOf_append],
    by rwa [endOf_append, endOf_append]⟩, (apart_append_taken het).mpr ⟨has, hrest hbs⟩,
    ⟨e, mem_placed G.heapOffset as rest e, het, hsize⟩, fun _ _ _ => rfl⟩, ?_⟩
  exact fun i hi => hpay _ (by omega) (by omega)

/-- The block moves: its bytes are copied into the new one before it is freed. -/
theorem reallocated_move {new : Nat} {cs1 : List Chunk} (h : G.Holds m (as ++ c :: bs)) (hc : Taken c)
    (hle : c.length ≤ size) (halloc : Change G m m' (as ++ c :: bs) cs1 none) (hapart : Apart cs1)
    (hnew : NewBlock G (as ++ c :: bs) cs1 none new size) :
    Reallocated G m
      (free (m'.copy new (endOf G.heapOffset as + 16) c.length) (endOf G.heapOffset as + 16))
      (as ++ c :: bs) (endOf G.heapOffset as + 16) c.length new size := by
  have hrep1 := h.change halloc
  obtain ⟨⟨e, he, het, hesize⟩, hother⟩ := hnew
  have hcap : c.length ≤ c.capacity := (h.tiles.wf c (by simp)).2.1
  have hecap := len_le hrep1 he
  rw [len_eq hrep1 he] at hecap
  -- the old block is still there, elsewhere
  obtain ⟨hold, hkept⟩ := halloc.edit.keeps _ c (mem_placed G.heapOffset as bs c) hc nofun
  have hne : new ≠ endOf G.heapOffset as + 16 := by
    rintro rfl
    cases hother c (mem_placed G.heapOffset as bs c) hc
  have hcopy : Change G m' (m'.copy new (endOf G.heapOffset as + 16) c.length) cs1 cs1 (some new) :=
    change_payload hrep1 he (Within.refl.copy le_rfl (by omega))
  have hrep2 := hrep1.change hcopy
  obtain ⟨as', bs', rfl, hend⟩ := exists_of_mem_placed hold
  obtain ⟨hfree, hcs2⟩ := free_spec hrep2 hc hapart
  rw [← hend] at hfree
  obtain ⟨he2, hpay⟩ := hfree.edit.keeps new e he het (by simpa using hne)
  have hroom := halloc.room
  have hroom' := hfree.room
  refine ⟨⟨_, ⟨⟨hfree.edit.tiles, ?_, ?_⟩, hfree.offsets, by omega⟩, hcs2, ⟨e, he2, het, hesize⟩,
    ?_⟩, ?_⟩
  · exact (halloc.edit.low.trans hcopy.edit.low).trans hfree.edit.low
  · intro b f hb hf hbne
    obtain ⟨h1, h2⟩ := halloc.edit.keeps b f hb hf nofun
    have hbnew : some b ≠ some new := by
      intro hbn
      cases hbn
      cases hother f hb hf
    obtain ⟨h3, h4⟩ := hcopy.edit.keeps b f h1 hf hbnew
    obtain ⟨h5, h6⟩ := hfree.edit.keeps b f h3 hf hbne
    exact ⟨h5, (h2.trans h4).trans h6⟩
  · intro f hf hft
    cases hother f hf hft
  · intro i hi
    rw [hpay (new + i) (by omega) (by omega), copy_apply (by omega)]
    exact hkept _ (by omega) (by omega)

/-- No sum of `account_data_realloc` is cut off at 32 bits: the block is large enough, or grows, or is
allocated anew. -/
def ReallocInRange (dataLen : Nat) (data : Memory) (offset size : Nat) : Prop :=
  let next := (header data (sub32 offset sizeofChunk)).offsetNext
  size ≤ sub32 next offset ∨
    -- the next chunk is free, and is not the trailing one, with room in it
    ((header data next).allocated = 0 ∧ (header data next).offsetNext ≠ 0 ∧
      size < sub32 (header data next).offsetNext offset) ∨
    -- the next chunk is the trailing one
    ((header data next).allocated = 0 ∧ (header data next).offsetNext = 0 ∧
      add32 offset (roundUp size) + sizeofChunk < dataLen ∧
      offset + (size + 7) / 8 * 8 < 2 ^ 32) ∨
    (¬ ((header data next).allocated = 0 ∧ (header data next).offsetNext = 0 ∧
      add32 offset (roundUp size) + sizeofChunk < dataLen) ∧ AllocInRange dataLen data size)

/-- Where the block cannot grow, the sums of `account_data_alloc` matter. -/
theorem allocInRange_of_grow {offset : Nat} (h : grow dataLen m offset size = none) (hrange :
      let next := (header m (sub32 offset sizeofChunk)).offsetNext
      ((header m next).allocated = 0 ∧ (header m next).offsetNext ≠ 0 ∧
        size < sub32 (header m next).offsetNext offset) ∨
      ((header m next).allocated = 0 ∧ (header m next).offsetNext = 0 ∧
        add32 offset (roundUp size) + sizeofChunk < dataLen ∧
        offset + (size + 7) / 8 * 8 < 2 ^ 32) ∨
      (¬ ((header m next).allocated = 0 ∧ (header m next).offsetNext = 0 ∧
        add32 offset (roundUp size) + sizeofChunk < dataLen) ∧ AllocInRange dataLen m size)) :
    AllocInRange dataLen m size := by
  unfold grow at h
  simp only at h hrange
  obtain ⟨hfree, hnext, hroom⟩ | ⟨hfree, hnext, hroom, -⟩ | ⟨-, halloc⟩ := hrange
  · rw [if_pos hfree, if_pos hnext, if_pos hroom] at h
    split at h <;> cases h
  · rw [if_pos hfree, if_neg (not_not.mpr hnext), if_pos hroom] at h
    cases h
  · exact halloc

theorem realloc_spec (h : G.Holds m (as ++ c :: bs)) (hc : Taken c) (hapart : Apart (as ++ c :: bs))
    (hpos : 0 < size) (hrange : ReallocInRange G.dataLen m (endOf G.heapOffset as + 16) size) :
    realloc G.dataLen m (endOf G.heapOffset as + 16) size = (.tooSmall, m) ∨
      ∃ new m', realloc G.dataLen m (endOf G.heapOffset as + 16) size = (.ok new, m') ∧
        Reallocated G m m' (as ++ c :: bs) (endOf G.heapOffset as + 16) c.length new size := by
  have htiles := h.tiles.seam.2
  have hbound := htiles.bound
  have hlt := h.seam_lt
  have hlt' : endOf (endOf G.heapOffset as + 16 + c.capacity) bs < 2 ^ 32 := hlt
  have hlast := le_endOf (endOf G.heapOffset as + 16 + c.capacity) bs
  have hcap : c.length ≤ c.capacity := (h.tiles.wf c (by simp)).2.1
  have hoff : sub32 (endOf G.heapOffset as + 16) 16 = endOf G.heapOffset as := by
    rw [sub32_of_le (by omega) (by omega), Nat.add_sub_cancel]
  have hex : sub32 (endOf G.heapOffset as + 16 + c.capacity) (endOf G.heapOffset as + 16) =
      c.capacity := by
    rw [sub32_of_le (by omega) (by omega)]
    omega
  unfold ReallocInRange at hrange
  unfold realloc
  rw [if_neg (by omega), if_neg (by omega)]
  simp only [sizeofChunk, hoff, htiles.head, hex] at hrange ⊢
  by_cases hle : size ≤ c.capacity
  · right
    rw [if_pos hle]
    exact ⟨_, _, rfl, reallocated_of_resized h hc hapart (resized_shrink htiles hlt hc hpos hle)⟩
  · rw [if_neg hle]
    have hrange := hrange.resolve_left hle
    have hroom : bs = [] →
        G.dataLen ≤ add32 (endOf G.heapOffset as + 16) (roundUp size) + 16 ∨
          endOf G.heapOffset as + 16 + (size + 7) / 8 * 8 < 2 ^ 32 := by
      rintro rfl
      rw [show header m (endOf G.heapOffset as + 16 + c.capacity) = ⟨0, _, 0, 0⟩ from
        htiles.tail.linked] at hrange
      simp only [ne_eq, not_true, false_and, and_false, false_or, true_and] at hrange
      omega
    obtain hnone | ⟨m', hsome, hr⟩ := grow_spec htiles hlt hc hpos hroom
    · rw [hnone]
      simp only [len_eq h (mem_placed G.heapOffset as bs c)]
      obtain hsmall | ⟨new, m', cs1, halloc, hchange, hcs1, hnew⟩ :=
        alloc_spec h hapart hpos (allocInRange_of_grow hnone (by
          simpa only [sizeofChunk, hoff, htiles.head] using hrange))
      · left
        rw [hsmall]
      · right
        rw [halloc]
        exact ⟨_, _, rfl, reallocated_move h hc (by omega) hchange hcs1 hnew⟩
    · right
      rw [hsome]
      exact ⟨_, _, rfl, reallocated_of_resized h hc hapart hr⟩

end Solang.Stdlib.AccountHeap
