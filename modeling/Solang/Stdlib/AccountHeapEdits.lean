import Solang.Stdlib.AccountHeapList

/-!
# The edits of the chunk list

What each branch of the calls does at the chunks that it changes. The chunks end before
`2 ^ 32`, and the size that is asked for can be rounded up, so that no offset is cut off
at 32 bits.
-/

namespace Solang.Stdlib.AccountHeap

open Memory

variable {dataLen : Nat} {m m' : Memory} {prev off size : Nat} {c d : Chunk} {cs : List Chunk}

/-! ## Arithmetic -/

variable {a b : Nat} {e : Chunk}

theorem add32_of_lt (h : a + b < 2 ^ 32) : add32 a b = a + b := Nat.mod_eq_of_lt h

theorem sub32_of_le (h : b ≤ a) (ha : a < 2 ^ 32) : sub32 a b = a - b := by
  unfold sub32
  omega

theorem sub32_sub32 {c : Nat} (h : b + c ≤ a) (ha : a < 2 ^ 32) :
    sub32 (sub32 a b) c = a - b - c := by
  rw [sub32_of_le (by omega : b ≤ a) ha, sub32_of_le (by omega) (by omega)]

theorem roundUp_of_lt (h : size + 7 < 2 ^ 32) : roundUp size = (size + 7) / 8 * 8 := by
  unfold roundUp
  rw [add32_of_lt h]

theorem dvd_roundUp (size : Nat) : 8 ∣ roundUp size := Dvd.intro_left _ rfl

theorem le_roundUp (h : size + 7 < 2 ^ 32) : size ≤ roundUp size := by
  rw [roundUp_of_lt h]
  omega

/-- A multiple of eight that the size fits in -/
theorem roundUp_le {n : Nat} (h : size + 7 < 2 ^ 32) (hn : 8 ∣ n) (hle : size ≤ n) :
    roundUp size ≤ n := by
  rw [roundUp_of_lt h]
  omega

/-- The chunk of a block of this size -/
def block (size : Nat) : Chunk := ⟨roundUp size, size, true⟩

theorem wf_block (hpos : 0 < size) (h : size + 7 < 2 ^ 32) : (block size).Wf :=
  ⟨hpos, le_roundUp h, dvd_roundUp size⟩

/-- A free chunk that is as long as its capacity -/
def gap (capacity : Nat) : Chunk := ⟨capacity, capacity, false⟩

theorem wf_gap {capacity : Nat} (hpos : 0 < capacity) (hd : 8 ∣ capacity) : (gap capacity).Wf :=
  ⟨hpos, Nat.le_refl _, hd⟩

/-- One chunk that is free, or is the block -/
theorem placed_one {block : Option Nat} (hc : c.allocated = true → some (off + 16) = block)
    (h : (b, e) ∈ placed off [c]) (he : e.allocated = true) : some b = block := by
  obtain ⟨rfl, rfl⟩ : b = off + 16 ∧ e = c := by simpa [placed] using h
  exact hc he

/-- Two chunks, of which the second is free -/
theorem placed_two {block : Option Nat} (hc : c.allocated = true → some (off + 16) = block)
    (hd : d.allocated = false) (h : (b, e) ∈ placed off [c, d]) (he : e.allocated = true) :
    some b = block := by
  obtain h | h := List.mem_cons.mp h
  · cases h
    exact hc he
  · obtain ⟨-, rfl⟩ : b = off + 16 + c.capacity + 16 ∧ e = d := by simpa [placed] using h
    cases hd.symm.trans he

/-- Only the length of the first chunk changes, and whether it is free. -/
theorem Edit.setHead {e : Chunk} {block : Option Nat} (h : Tiles dataLen m prev off (c :: cs))
    (hhead : header m' off = ⟨off + 16 + c.capacity, prev, e.length, e.allocated.toNat⟩)
    (hcap : e.capacity = c.capacity) (hwf : e.Wf) (hc : c.allocated = true → some (off + 16) = block)
    (hw : Within m m' off (off + 16)) : Edit dataLen m m' prev off (c :: cs) (e :: cs) block := by
  show Edit _ _ _ _ _ ([c] ++ cs) ([e] ++ cs) _
  refine Edit.replace [c] (h.setHead hhead hcap hwf hw) (hw.mono le_rfl ?_) ?_
    fun _ _ => placed_one hc
  · show off + 16 ≤ off + 16 + c.capacity + 16
    omega
  · simp only [endOf, hcap]

/-- A chunk, and a free one behind it: the header of the free one is written, and the pointer back
to it. -/
theorem Edit.cut (xs : List Chunk) {e new : Nat} {block : Option Nat}
    (h : Tiles dataLen m prev off (xs ++ cs)) (h32 : e < 2 ^ 32) (hwf : c.Wf)
    (hxs : ∀ b c, (b, c) ∈ placed off xs → c.allocated = true → some b = block)
    (he : endOf off xs = e) (hnew : off + 16 + c.capacity = new) (hroom : new + 16 < e)
    (hdvd : 8 ∣ e - new) (h1 : header m' off = ⟨new, prev, c.length, c.allocated.toNat⟩)
    (h2 : header m' new = ⟨e, off, e - new - 16, 0⟩) (hw : Within m m' off (new + 16)) :
    Edit dataLen m (setPrev m' e new) prev off (xs ++ cs) (c :: gap (e - new - 16) :: cs) block := by
  have hfits := h.seam.2.bound_nil
  have hend : new + 16 + (e - new - 16) = e := by omega
  have hwithin : Within m (setPrev m' e new) off (e + 16) :=
    within_setPrev (hw.mono le_rfl (by omega)) (by omega) le_rfl
  subst he hnew
  show Edit _ _ _ _ _ _ ([c, gap _] ++ cs) _
  refine Edit.replace xs (h.replace xs ⟨?_, ?_, trivial⟩ ?_ hend ?_ (hwithin.agree (.inr le_rfl)))
    hwithin hend hxs
  · rw [header_setPrev_of_disjoint (by omega), h1]
  · rw [header_setPrev_of_disjoint (by omega), h2]
    simp only [gap, hend, Bool.toNat_false]
  · simp only [List.forall_mem_cons]
    exact ⟨hwf, wf_gap (by omega) (by omega), by simp⟩
  · rw [header_setPrev (by omega), header_frame (hw.agree (.inr (by omega)))]
    rfl

/-! ## `account_data_alloc` -/

section Alloc

variable (fuel : Nat)

/-- A block before the trailing chunk -/
theorem search_trailing (h : Tiles dataLen m prev off []) (hpos : 0 < size)
    (hroom : dataLen ≤ add32 (add32 off 16) (roundUp size) + 16 ∨
      off + 16 + (size + 7) / 8 * 8 < 2 ^ 32) :
    (dataLen ≤ add32 (add32 off 16) (roundUp size) + 16 ∧
      search dataLen m size (fuel + 1) off prev = (.tooSmall, m)) ∨
      off + 16 + roundUp size < 2 ^ 32 ∧ off + 16 + roundUp size + 16 < dataLen ∧
      ∃ m', search dataLen m size (fuel + 1) off prev = (.ok (off + 16), m') ∧
        Edit dataLen m m' prev off [] [block size] none := by
  have hhead : header m off = ⟨0, prev, 0, 0⟩ := h.linked
  have hbound := h.bound_nil
  have hprev : prev < 2 ^ 32 := by
    have heq : m.load (off + 4) 4 = prev := congrArg Header.offsetPrev hhead
    exact heq ▸ load_lt m (off + 4) 4
  unfold search
  simp only [hhead, if_true, sizeofChunk]
  by_cases hfits : dataLen ≤ add32 (add32 off 16) (roundUp size) + 16
  · left
    rw [if_pos hfits]
    exact ⟨hfits, rfl⟩
  · right
    have hroom := hroom.resolve_left hfits
    have hsize : size + 7 < 2 ^ 32 := by omega
    have hround := roundUp_of_lt hsize
    have hblock : add32 off 16 = off + 16 := add32_of_lt (by omega)
    have hnew : add32 (off + 16) (roundUp size) = off + 16 + roundUp size := add32_of_lt (by omega)
    rw [hblock, hnew] at hfits ⊢
    rw [if_neg hfits]
    have hsub : sub32 (off + 16) 16 = off := by
      rw [sub32_of_le (by omega) (by omega), Nat.add_sub_cancel]
    have hnext : (header (setLength (setAllocated (setPrev (setNext m off (off + 16 + roundUp size))
        off prev) off 1) off size) off).offsetNext = off + 16 + roundUp size := by
      rw [header_setLength (by omega), header_setAllocated (by decide), header_setPrev hprev,
        header_setNext (by omega)]
    rw [hnext, hsub]
    refine ⟨by omega, by omega, _, rfl, Edit.trailing [] ?_ ?_ nofun⟩
    · refine Tiles.trailing ⟨?_, trivial⟩ (by simpa using wf_block hpos hsize) ?_ ?_
      · simp (disch := omega) only [header_setAllocated_of_disjoint, header_setNext_of_disjoint,
          header_setLength_of_disjoint, header_setPrev_of_disjoint, header_setLength,
          header_setAllocated, header_setPrev, header_setNext]
        rfl
      · show header _ (off + 16 + roundUp size) = _
        simp (disch := omega) only [header_setLength,
          header_setAllocated, header_setPrev, header_setNext]
        rfl
      · show off + 16 + roundUp size + 16 ≤ dataLen
        omega
    · have hlo : off ≤ off + 16 + roundUp size := by omega
      have hhi : off + 16 + roundUp size + 16 ≤ dataLen := by omega
      refine Within.agree (b := dataLen) ?_ (.inl le_rfl)
      exact within_setAllocated (within_setNext (within_setLength (within_setPrev
        (within_setLength (within_setAllocated (within_setPrev (within_setNext .refl
          le_rfl hbound) le_rfl hbound) le_rfl hbound) le_rfl hbound) hlo hhi) hlo hhi)
            hlo hhi) hlo hhi

/-- A chunk that the search stops at -/
def Fits (size : Nat) (c : Chunk) : Prop := c.allocated = false ∧ roundUp size ≤ c.length

/-- The chunk that `account_data_alloc` takes, and what it leaves of it -/
def taken (c : Chunk) (size : Nat) : List Chunk :=
  if c.length < roundUp size + 16 + 8 then [⟨c.capacity, size, true⟩]
  else [block size, gap (c.capacity - roundUp size - 16)]

theorem endOf_taken (hc : c.Wf) (size off : Nat) :
    endOf off (taken c size) = off + 16 + c.capacity := by
  obtain ⟨-, hle, -⟩ := hc
  unfold taken
  split
  next => rfl
  next =>
    simp only [endOf, block, gap]
    omega

theorem wf_taken (hc : c.Wf) (hfit : Fits size c) (hpos : 0 < size) (hsize : size + 7 < 2 ^ 32) :
    ∀ e ∈ taken c size, e.Wf := by
  have hle := le_roundUp hsize
  have hdvd := dvd_roundUp size
  obtain ⟨-, hcap, hcd⟩ := hc
  unfold taken
  split
  next =>
    simp only [List.forall_mem_singleton]
    exact ⟨hpos, hle.trans (hfit.2.trans hcap), hcd⟩
  next =>
    simp only [List.forall_mem_cons]
    exact ⟨wf_block hpos hsize, wf_gap (by omega) (by omega), by simp⟩

/-- Just right, or too big -/
theorem search_fits (h : Tiles dataLen m prev off (c :: cs)) (h32 : off + 16 + c.capacity < 2 ^ 32)
    (hpos : 0 < size) (hsize : size + 7 < 2 ^ 32) (hfit : Fits size c) :
    ∃ m', search dataLen m size (fuel + 1) off prev = (.ok (off + 16), m') ∧
      Edit dataLen m m' prev off (c :: cs) (taken c size ++ cs) none := by
  have hhead := h.head
  have hbound := h.bound
  have hwf := h.wf c List.mem_cons_self
  have hend := endOf_taken hwf size off
  have hwfs := wf_taken hwf hfit hpos hsize
  obtain ⟨hcpos, hcap, hdvd⟩ := hwf
  obtain ⟨hfree, hround⟩ := hfit
  have hblock : add32 off 16 = off + 16 := add32_of_lt (by omega)
  have hnew : add32 (off + 16) (roundUp size) = off + 16 + roundUp size := add32_of_lt (by omega)
  unfold search
  simp only [hhead, hfree, Bool.toNat_false, if_true, sizeofChunk, hblock, hnew]
  rw [if_neg (by omega), if_neg (by omega)]
  unfold taken at hend hwfs ⊢
  by_cases hbig : c.length < roundUp size + 16 + 8
  · rw [if_pos hbig] at hend hwfs ⊢
    rw [if_pos hbig]
    have hw : Within m (setLength (setAllocated m off 1) off size) off (off + 16) :=
      within_setLength (within_setAllocated .refl le_rfl le_rfl) le_rfl le_rfl
    refine ⟨_, rfl, Edit.setHead h ?_ rfl (hwfs _ List.mem_cons_self) (by simp [hfree]) hw⟩
    rw [header_setLength (by omega), header_setAllocated (by decide), hhead]
    rfl
  · rw [if_neg hbig] at hend hwfs ⊢
    rw [if_neg hbig, if_pos (by omega)]
    have hrest : c.capacity - roundUp size - 16 =
        off + 16 + c.capacity - (off + 16 + roundUp size) - 16 := by omega
    rw [sub32_sub32 (by omega) (by omega), hrest]
    have hdr := dvd_roundUp size
    refine ⟨_, rfl, Edit.cut [c] h h32 (hwfs _ List.mem_cons_self)
      (fun _ _ => placed_one (by simp [hfree])) rfl rfl (by omega) (by omega) ?_ ?_ ?_⟩
    · simp (disch := omega) only [header_setAllocated_of_disjoint, header_setLength_of_disjoint,
        header_setNext_of_disjoint, header_setPrev_of_disjoint, header_setAllocated,
        header_setLength, header_setNext, hhead]
      rfl
    · simp (disch := omega) only [header_setAllocated, header_setLength, header_setNext,
        header_setPrev]
    · have hlo : off ≤ off + 16 + roundUp size := by omega
      have hhi : off + 16 ≤ off + 16 + roundUp size + 16 := by omega
      exact within_setAllocated (within_setLength (within_setNext (within_setPrev
        (within_setAllocated (within_setLength (within_setNext .refl le_rfl hhi) le_rfl hhi) le_rfl
          hhi) hlo le_rfl) hlo le_rfl) hlo le_rfl) hlo le_rfl

end Alloc

/-! ## `account_data_free` -/

/-- The block becomes free. -/
theorem edit_setAllocated (h : Tiles dataLen m prev off (c :: cs)) :
    Edit dataLen m (setAllocated m off 0) prev off (c :: cs) ({ c with allocated := false } :: cs)
      (some (off + 16)) := by
  have hw : Within m (setAllocated m off 0) off (off + 16) :=
    within_setAllocated .refl le_rfl le_rfl
  refine Edit.setHead h ?_ rfl (h.wf c List.mem_cons_self) (fun _ => rfl) hw
  rw [header_setAllocated (by decide), h.head]
  rfl

/-- A chunk and a free one behind it become one. -/
theorem Edit.merge {block : Option Nat} (h : Tiles dataLen m prev off (c :: d :: cs))
    (h32 : off < 2 ^ 32) (hc : c.allocated = true → some (off + 16) = block)
    (hd : d.allocated = false) (hcap : e.capacity = c.capacity + 16 + d.capacity) (hwf : e.Wf)
    (h1 : header m' off =
      ⟨off + 16 + c.capacity + 16 + d.capacity, prev, e.length, e.allocated.toNat⟩)
    (hw : Within m m' off (off + 16)) :
    Edit dataLen m (setPrev m' (off + 16 + c.capacity + 16 + d.capacity) off) prev off (c :: d :: cs)
      (e :: cs) block := by
  have hfits := h.tail.bound
  have hend : off + 16 + e.capacity = off + 16 + c.capacity + 16 + d.capacity := by omega
  have hwithin : Within m (setPrev m' (off + 16 + c.capacity + 16 + d.capacity) off) off
      (off + 16 + c.capacity + 16 + d.capacity + 16) :=
    within_setPrev (hw.mono le_rfl (by omega)) (by omega) le_rfl
  show Edit _ _ _ _ _ ([c, d] ++ cs) ([e] ++ cs) _
  refine Edit.replace [c, d] (Tiles.replace [c, d] h ⟨?_, trivial⟩ ?_ hend ?_
    (hwithin.agree (.inr le_rfl))) hwithin hend fun _ _ => placed_two hc hd
  · rw [header_setPrev_of_disjoint (by omega), h1, hend]
  · simpa using hwf
  · show header _ (off + 16 + c.capacity + 16 + d.capacity) = _
    rw [header_setPrev (by omega), header_frame (hw.agree (.inr (by omega)))]
    rfl

/-- Both are free. -/
theorem wf_merged (hc : c.Wf) (hd : d.Wf) : (gap (c.capacity + 16 + d.capacity)).Wf := by
  have hcd := hc.2.2
  have hdd := hd.2.2
  exact wf_gap (by omega) (by omega)

/-- What becomes of a free chunk and those behind it -/
def absorbed (c : Chunk) : List Chunk → List Chunk
  | [] => []
  | d :: ds => if d.allocated then c :: d :: ds else gap (c.capacity + 16 + d.capacity) :: ds

theorem edit_mergeNext (h : Tiles dataLen m prev off (c :: cs)) (h32 : endOf off (c :: cs) < 2 ^ 32)
    (hc : c.allocated = false) :
    Edit dataLen m (mergeNext m off) prev off (c :: cs) (absorbed c cs) none := by
  have hhead := h.head
  have hbound := h.bound
  rw [hc] at hhead
  unfold mergeNext
  simp only [hhead, sizeofChunk]
  cases cs with
  | nil =>
    have hnext : header m (off + 16 + c.capacity) = ⟨0, off, 0, 0⟩ := h.tail.linked
    simp only [hnext]
    rw [if_pos ⟨by omega, trivial⟩, if_neg (by simp)]
    refine Edit.trailing [c] (Tiles.trailing trivial nofun ?_ ?_) ?_
      fun _ _ => placed_one (by simp [hc])
    · show header _ off = ⟨0, prev, 0, 0⟩
      rw [header_setLength (by decide), header_setNext (by decide), hhead]
      rfl
    · show off + 16 ≤ dataLen
      omega
    · refine Within.agree (b := off + 16) ?_ (.inl le_rfl)
      exact within_setLength (within_setNext .refl le_rfl le_rfl) le_rfl le_rfl
  | cons d ds =>
    have hnext := h.tail.head
    have hbound' := h.tail.bound
    have hle := le_endOf (off + 16 + c.capacity + 16 + d.capacity) ds
    simp only [endOf] at h32
    simp only [hnext, absorbed]
    cases hd : d.allocated with
    | true =>
      rw [if_neg (by simp)]
      exact Edit.refl h
    | false =>
      rw [if_pos ⟨by omega, rfl⟩, if_pos (by omega), if_neg (by simp)]
      have hcap : off + 16 + c.capacity + 16 + d.capacity - off - 16 =
          c.capacity + 16 + d.capacity := by omega
      rw [sub32_sub32 (by omega) (by omega), hcap]
      refine Edit.merge h (by omega) (by simp [hc]) hd rfl
        (wf_merged (h.wf c List.mem_cons_self) (h.tail.wf d List.mem_cons_self)) ?_ ?_
      · rw [header_setLength (by omega), header_setNext (by omega), hhead]
        rfl
      · exact within_setLength (within_setNext .refl le_rfl le_rfl) le_rfl le_rfl

/-- The previous chunk is free. -/
theorem mergePrev_free {p : Chunk} (h : Tiles dataLen m prev off (p :: c :: cs))
    (h32 : endOf off (p :: c :: cs) < 2 ^ 32) (hpos : 0 < off) (hp : p.allocated = false) (hc : c.allocated = false) :
    (mergePrev m (off + 16 + p.capacity)).1 = off ∧
      Edit dataLen m (mergePrev m (off + 16 + p.capacity)).2 prev off (p :: c :: cs)
        (gap (p.capacity + 16 + c.capacity) :: cs) none := by
  have hhead := h.head
  have hnext := h.tail.head
  have hbound := h.tail.bound
  have hle := le_endOf (off + 16 + p.capacity + 16 + c.capacity) cs
  simp only [endOf] at h32
  unfold mergePrev
  simp only [hnext, hhead, hp, sizeofChunk]
  rw [if_pos ⟨by omega, rfl⟩, if_pos (by omega)]
  refine ⟨rfl, ?_⟩
  have hcap : off + 16 + p.capacity + 16 + c.capacity - off - 16 =
      p.capacity + 16 + c.capacity := by omega
  rw [sub32_sub32 (by omega) (by omega), hcap]
  refine Edit.merge h (by omega) (by simp [hp]) hc rfl
    (wf_merged (h.wf p List.mem_cons_self) (h.tail.wf c List.mem_cons_self)) ?_ ?_
  · rw [header_setNext (by omega), header_setLength (by omega), hhead, hp]
    rfl
  · exact within_setNext (within_setLength .refl le_rfl le_rfl) le_rfl le_rfl

/-- There is no previous chunk, or it is taken. -/
theorem mergePrev_taken {cur : Nat} (h : (header m cur).offsetPrev = 0 ∨
    (header m (header m cur).offsetPrev).allocated ≠ 0) : mergePrev m cur = (cur, m) := by
  unfold mergePrev
  exact if_neg fun hf => h.elim hf.1 fun hp => hp hf.2

/-! ## Free neighbours -/

abbrev Taken (c : Chunk) : Prop := c.allocated = true

/-- No two neighbours are free; the trailing chunk is free. -/
def Apart (cs : List Chunk) : Prop := Separated Taken (cs ++ [⟨0, 0, false⟩])

theorem apart_nil : Apart [] := .singleton _

theorem apart_cons_gap (hc : c.allocated = false) (hd : d.allocated = false) :
    Apart (c :: cs) ↔ Apart (d :: cs) := by
  unfold Apart
  rw [List.cons_append, List.cons_append, Separated.cons_gap (by simp [hc]),
    Separated.cons_gap (by simp [hd])]

theorem apart_gap_cons (hc : c.allocated = false) (hd : Taken d) :
    Apart (c :: d :: cs) ↔ Apart (d :: cs) := by
  unfold Apart
  rw [List.cons_append, Separated.cons_gap (by simp [hc])]
  exact and_iff_left (by simpa using hd)

theorem Apart.tail (h : Apart (c :: cs)) : Apart cs := h.of_cons

/-! ## `account_data_realloc` -/

/-- The first chunk becomes a block of this size that holds the old payload as far as it fits. -/
def Resized (dataLen : Nat) (m m' : Memory) (prev off : Nat) (c : Chunk) (cs : List Chunk)
    (size : Nat) : Prop :=
  ∃ e rest, Edit dataLen m m' prev off (c :: cs) (e :: rest) (some (off + 16)) ∧
    e.length = size ∧ Taken e ∧ (Apart cs → Apart rest) ∧
    Agree m m' (off + 16) (off + 16 + min c.length size) ∧ endOf off (e :: rest) < 2 ^ 32 ∧
    (endOf off (e :: rest) ≤ endOf off (c :: cs) ∨ endOf off (e :: rest) + 16 < dataLen)

section Realloc

variable (h : Tiles dataLen m prev off (c :: cs)) (h32 : endOf off (c :: cs) < 2 ^ 32)
  (hc : Taken c) (hpos : 0 < size)

include h h32 hc hpos

omit hc in
/-- The chunk gets another boundary to the trailing chunk; its own header is written. -/
theorem resized_trailing (hcs : cs = []) (h1 : header m' off = ⟨off + 16 + roundUp size, prev, size, 1⟩)
    (hw : Within m m' off (off + 16)) (hsize : off + 16 + (size + 7) / 8 * 8 < 2 ^ 32)
    (hfits : off + 16 + roundUp size + 16 ≤ dataLen)
    (hroom : roundUp size ≤ c.capacity ∨ off + 16 + roundUp size + 16 < dataLen) :
    Resized dataLen m (freeChunk m' (off + 16 + roundUp size) off 0 0) prev off c cs size := by
  subst hcs
  have hsize' : size + 7 < 2 ^ 32 := by omega
  have hround := roundUp_of_lt hsize'
  have hrs := le_roundUp hsize'
  simp only [endOf] at h32
  refine ⟨block size, [], Edit.trailing [c] (Tiles.trailing ⟨?_, trivial⟩ ?_ ?_ hfits) ?_
    fun _ _ => placed_one fun _ => rfl, rfl, rfl, fun _ => apart_nil, ?_, ?_, ?_⟩
  · rw [header_freeChunk_of_disjoint (by omega), h1]
    rfl
  · simpa using wf_block hpos hsize'
  · exact header_freeChunk (by omega) (by decide) (by decide)
  · refine Within.agree (b := dataLen) ?_ (.inl le_rfl)
    exact within_freeChunk (hw.mono le_rfl (by omega)) (by omega) hfits
  · refine (hw.agree (.inr le_rfl)).trans ?_
    refine Within.agree (a := off + 16 + roundUp size) (b := dataLen) ?_ (.inl (by omega))
    exact within_freeChunk .refl le_rfl hfits
  · show off + 16 + roundUp size < 2 ^ 32
    omega
  · show off + 16 + roundUp size ≤ off + 16 + c.capacity ∨ off + 16 + roundUp size + 16 < dataLen
    omega

omit hc in
/-- The chunk gets another boundary to a free chunk. -/
theorem resized_cut (hsize : size + 7 < 2 ^ 32) (xs : List Chunk) {e new : Nat} {bs : List Chunk}
    (hcs : c :: cs = xs ++ bs)
    (hxs : ∀ b c, (b, c) ∈ placed off xs → c.allocated = true → some b = some (off + 16))
    (hapart : Apart cs → Apart (gap (e - new - 16) :: bs)) (he : endOf off xs = e)
    (hnew : off + 16 + roundUp size = new) (hroom : new + 16 < e) (hdvd : 8 ∣ e - new)
    (h1 : header m' off = ⟨new, prev, size, 1⟩) (hw : Within m m' off (off + 16)) :
    Resized dataLen m (setPrev (freeChunk m' new off e (e - new - 16)) e new) prev off c cs size := by
  have hrs := le_roundUp hsize
  have hfits : e + 16 ≤ dataLen := by
    rw [hcs] at h
    rw [← he]
    exact h.seam.2.bound_nil
  have he32 : e < 2 ^ 32 := by
    have hle := le_endOf e bs
    rw [hcs, endOf_append, he] at h32
    omega
  refine ⟨block size, gap (e - new - 16) :: bs, ?_, rfl, rfl, hapart, ?_, ?_⟩
  · rw [hcs] at h ⊢
    refine Edit.cut xs h he32 (wf_block hpos hsize) hxs he hnew hroom hdvd ?_ ?_ ?_
    · rw [header_freeChunk_of_disjoint (by omega), h1]
      rfl
    · exact header_freeChunk (by omega) (by omega) (by omega)
    · exact within_freeChunk (hw.mono le_rfl (by omega)) (by omega) le_rfl
  · refine (hw.agree (.inr le_rfl)).trans ?_
    refine Within.agree (a := new) (b := e + 16) ?_ (.inl (by omega))
    exact within_setPrev (within_freeChunk .refl le_rfl (by omega)) (by omega) le_rfl
  · have hend : off + 16 + roundUp size + 16 + (e - new - 16) = e := by omega
    have hsame : endOf off (block size :: gap (e - new - 16) :: bs) = endOf off (c :: cs) := by
      rw [hcs, endOf_append, he]
      simp only [endOf, block, gap, hend]
    rw [hsame]
    exact ⟨h32, .inl (Nat.le_refl _)⟩

/-- The chunk is big enough. -/
theorem resized_shrink (hle : size ≤ c.capacity) :
    Resized dataLen m (shrink m (off + 16) size) prev off c cs size := by
  have hhead := h.head
  have hbound := h.bound
  have hdvd := (h.wf c List.mem_cons_self).2.2
  have hend := le_endOf (off + 16 + c.capacity) cs
  have hend' : endOf (off + 16 + c.capacity) cs < 2 ^ 32 := h32
  have hsize : size + 7 < 2 ^ 32 := by omega
  have hround := roundUp_le hsize hdvd hle
  have hround' := roundUp_of_lt hsize
  have hrd := dvd_roundUp size
  have hrs := le_roundUp hsize
  have hoff : sub32 (off + 16) 16 = off := by
    rw [sub32_of_le (by omega) (by omega), Nat.add_sub_cancel]
  have hex : sub32 (off + 16 + c.capacity) (off + 16) = c.capacity := by
    rw [sub32_of_le (by omega) (by omega)]
    omega
  have hnew : add32 (off + 16) (roundUp size) = off + 16 + roundUp size := add32_of_lt (by omega)
  unfold shrink
  simp only [sizeofChunk, hoff, hhead, hex, hnew]
  by_cases hbig : roundUp size + 16 + 8 ≤ c.capacity
  · rw [if_pos hbig]
    have hmem : header (setNext (setLength m off size) off (off + 16 + roundUp size)) off =
        ⟨off + 16 + roundUp size, prev, size, 1⟩ := by
      rw [header_setNext (by omega), header_setLength (by omega), hhead, hc]
      rfl
    have hw : Within m (setNext (setLength m off size) off (off + 16 + roundUp size)) off (off + 16) :=
      within_setNext (within_setLength .refl le_rfl le_rfl) le_rfl le_rfl
    cases cs with
    | nil =>
      have hnext : header m (off + 16 + c.capacity) = ⟨0, off, 0, 0⟩ := h.tail.linked
      rw [header_setLength_of_disjoint (by omega), hnext, if_pos rfl, if_pos rfl]
      exact resized_trailing h h32 hpos rfl hmem hw (by omega) (by omega) (.inl hround)
    | cons d ds =>
      have hnext := h.tail.head
      have hbound' := h.tail.bound
      have hdd := (h.tail.wf d List.mem_cons_self).2.2
      have hlast := le_endOf (off + 16 + c.capacity + 16 + d.capacity) ds
      simp only [endOf] at hend'
      have hnext1 : header (setLength m off size) (off + 16 + c.capacity) =
          ⟨off + 16 + c.capacity + 16 + d.capacity, off, d.length, d.allocated.toNat⟩ := by
        rw [header_setLength_of_disjoint (by omega), hnext]
      have hnext2 : header (setNext (setLength m off size) off (off + 16 + roundUp size))
          (off + 16 + c.capacity) = header (setLength m off size) (off + 16 + c.capacity) :=
        header_setNext_of_disjoint (by omega)
      have hown : (header (setLength m off size) off).offsetNext = off + 16 + c.capacity := by
        rw [header_setLength (by omega), hhead]
      simp only [hnext2, hnext1, hown]
      cases hd : d.allocated with
      | false =>
        rw [if_pos (show false.toNat = 0 from rfl), if_neg (by omega), sub32_sub32 (by omega) (by omega)]
        refine resized_cut h h32 hpos hsize [c, d] rfl (fun _ _ => placed_two (fun _ => rfl) hd)
          (apart_cons_gap hd rfl).mp rfl rfl (by omega) ?_ hmem hw
        omega
      | true =>
        rw [if_neg (by simp), sub32_sub32 (by omega) (by omega)]
        exact resized_cut h h32 hpos hsize [c] rfl (fun _ _ => placed_one fun _ => rfl)
          (apart_gap_cons rfl hd).mpr rfl rfl (by omega) (by omega) hmem hw
  · rw [if_neg hbig]
    have hw : Within m (setLength m off size) off (off + 16) :=
      within_setLength .refl le_rfl le_rfl
    refine ⟨⟨c.capacity, size, true⟩, cs, Edit.setHead h ?_ rfl ⟨hpos, hle, hdvd⟩ (fun _ => rfl) hw, rfl,
      rfl, id, hw.agree (.inr le_rfl), h32, .inl (Nat.le_refl _)⟩
    rw [header_setLength (by omega), hhead, hc]

/-- The next chunk is taken, or the two are too small, or the account is. -/
theorem grow_spec
    (hroom : cs = [] → dataLen ≤ add32 (off + 16) (roundUp size) + 16 ∨
      off + 16 + (size + 7) / 8 * 8 < 2 ^ 32) :
    grow dataLen m (off + 16) size = none ∨ ∃ m', grow dataLen m (off + 16) size = some m' ∧
      Resized dataLen m m' prev off c cs size := by
  have hhead := h.head
  have hbound := h.bound
  obtain ⟨-, hcl, hdvd⟩ := h.wf c List.mem_cons_self
  have hrd := dvd_roundUp size
  have hend := le_endOf (off + 16 + c.capacity) cs
  have hend' : endOf (off + 16 + c.capacity) cs < 2 ^ 32 := h32
  have hoff : sub32 (off + 16) 16 = off := by
    rw [sub32_of_le (by omega) (by omega), Nat.add_sub_cancel]
  unfold grow
  simp only [sizeofChunk, hoff, hhead]
  cases cs with
  | nil =>
    have hnext : header m (off + 16 + c.capacity) = ⟨0, off, 0, 0⟩ := h.tail.linked
    simp only [hnext, if_true, ne_eq, not_true, if_false]
    by_cases hfits : add32 (off + 16) (roundUp size) + 16 < dataLen
    · right
      have hroom := (hroom rfl).resolve_left (by omega)
      have hsize : size + 7 < 2 ^ 32 := by omega
      have hround := roundUp_of_lt hsize
      have hnew : add32 (off + 16) (roundUp size) = off + 16 + roundUp size := add32_of_lt (by omega)
      rw [hnew] at hfits ⊢
      have hmem : header (setLength (setNext m off (off + 16 + roundUp size)) off size) off =
          ⟨off + 16 + roundUp size, prev, size, 1⟩ := by
        rw [header_setLength (by omega), header_setNext (by omega), hhead, hc]
        rfl
      have hw : Within m (setLength (setNext m off (off + 16 + roundUp size)) off size) off (off + 16) :=
        within_setLength (within_setNext .refl le_rfl le_rfl) le_rfl le_rfl
      rw [if_pos hfits, hmem]
      exact ⟨_, rfl, resized_trailing h h32 hpos rfl hmem hw hroom hfits.le (.inr hfits)⟩
    · left
      rw [if_neg hfits]
  | cons d ds =>
    have hnext := h.tail.head
    have hbound' := h.tail.bound
    have hdd := (h.tail.wf d List.mem_cons_self).2.2
    have hlast := le_endOf (off + 16 + c.capacity + 16 + d.capacity) ds
    simp only [endOf] at hend'
    have hmerged : sub32 (off + 16 + c.capacity + 16 + d.capacity) (off + 16) =
        c.capacity + 16 + d.capacity := by
      rw [sub32_of_le (by omega) (by omega)]
      omega
    simp only [hnext, hmerged]
    cases hd : d.allocated with
    | true =>
      left
      rw [if_neg (by simp)]
    | false =>
      rw [if_pos (show false.toNat = 0 from rfl), if_pos (by omega)]
      by_cases hfits : size < c.capacity + 16 + d.capacity
      · right
        have hsize : size + 7 < 2 ^ 32 := by omega
        have hrs := le_roundUp hsize
        have hle := roundUp_le hsize (by omega) hfits.le
        have hnew : add32 (off + 16) (roundUp size) = off + 16 + roundUp size :=
          add32_of_lt (by omega)
        rw [if_pos hfits, sub32_of_le hle (by omega)]
        by_cases hwhole : c.capacity + 16 + d.capacity - roundUp size < 8 + 16
        · have hmem : header (setLength (setNext m off (off + 16 + c.capacity + 16 + d.capacity)) off
              size) off = ⟨off + 16 + c.capacity + 16 + d.capacity, prev, size, 1⟩ := by
            rw [header_setLength (by omega), header_setNext (by omega), hhead, hc]
            rfl
          have hw : Within m (setLength (setNext m off (off + 16 + c.capacity + 16 + d.capacity)) off
              size) off (off + 16) :=
            within_setLength (within_setNext .refl le_rfl le_rfl) le_rfl le_rfl
          have hwf : (⟨c.capacity + 16 + d.capacity, size, true⟩ : Chunk).Wf :=
            ⟨hpos, hfits.le, by show 8 ∣ c.capacity + 16 + d.capacity; omega⟩
          rw [if_pos hwhole, hmem]
          refine ⟨_, rfl, ⟨c.capacity + 16 + d.capacity, size, true⟩, ds,
            Edit.merge h (by omega) (fun _ => rfl) hd rfl hwf hmem hw, rfl, rfl, Apart.tail, ?_, ?_⟩
          · have hbehind : off + 16 + min c.length size ≤
                off + 16 + c.capacity + 16 + d.capacity + 4 := by omega
            exact (hw.agree (.inr le_rfl)).trans (Agree.refl.store (.inr hbehind))
          · have hend'' : off + 16 + (c.capacity + 16 + d.capacity) =
                off + 16 + c.capacity + 16 + d.capacity := by omega
            simp only [endOf, hend'']
            exact ⟨hend', .inl (Nat.le_refl _)⟩
        · rw [if_neg hwhole, hnew, sub32_sub32 (by omega) (by omega)]
          refine ⟨_, rfl, ?_⟩
          refine resized_cut h h32 hpos hsize [c, d] rfl (fun _ _ => placed_two (fun _ => rfl) hd)
            (apart_cons_gap hd rfl).mp rfl rfl (by omega) (by omega) ?_ ?_
          · rw [header_setLength (by omega), header_setNext (by omega), hhead, hc]
            rfl
          · exact within_setLength (within_setNext .refl le_rfl le_rfl) le_rfl le_rfl
      · left
        rw [if_neg hfits]

end Realloc

end Solang.Stdlib.AccountHeap
