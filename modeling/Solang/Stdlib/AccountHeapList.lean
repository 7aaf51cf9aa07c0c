import Solang.Stdlib.AccountHeap

/-!
# The chunk list of the account data

`Linked m prev off cs`: the chunks `cs` stand one after the other from `off` on, and the
trailing chunk behind them. An edit replaces some chunks by others: `Tiles.replace` for
chunks of the same extent, `Tiles.trailing` for the chunks before the trailing one.
A header is of 16 bytes.
-/

namespace Solang.Stdlib.AccountHeap

open Memory

/-- What the header says of a chunk; the capacity is the distance to the next one. -/
structure Chunk where
  capacity : Nat
  length : Nat
  allocated : Bool
  deriving DecidableEq

variable {m m' : Memory} {p q v prev off : Nat}

/-! ## Headers -/

theorem header_frame (h : Agree m m' p (p + 16)) : header m' p = header m p := by
  unfold header
  rw [h.load (by omega) (by omega), h.load (by omega) (by omega), h.load (by omega) (by omega),
    h.load (by omega) (by omega)]

section Set

theorem header_setNext (h : v < 2 ^ 32) :
    header (setNext m p v) p = { header m p with offsetNext := v } := by
  unfold header setNext
  rw [load_store_of_lt (by omega), load_store_of_disjoint (by omega),
    load_store_of_disjoint (by omega), load_store_of_disjoint (by omega)]

theorem header_setPrev (h : v < 2 ^ 32) :
    header (setPrev m p v) p = { header m p with offsetPrev := v } := by
  unfold header setPrev
  rw [load_store_of_lt (by omega), load_store_of_disjoint (by omega),
    load_store_of_disjoint (by omega), load_store_of_disjoint (by omega)]

theorem header_setLength (h : v < 2 ^ 32) :
    header (setLength m p v) p = { header m p with length := v } := by
  unfold header setLength
  rw [load_store_of_lt (n := 4) (by omega), load_store_of_disjoint (by omega),
    load_store_of_disjoint (by omega), load_store_of_disjoint (by omega)]

theorem header_setAllocated (h : v < 2 ^ 32) :
    header (setAllocated m p v) p = { header m p with allocated := v } := by
  unfold header setAllocated
  rw [load_store_of_lt (n := 4) (by omega), load_store_of_disjoint (by omega),
    load_store_of_disjoint (by omega), load_store_of_disjoint (by omega)]

variable (h : p + 16 ≤ q ∨ q + 16 ≤ p)

include h

theorem header_setNext_of_disjoint : header (setNext m p v) q = header m q :=
  header_frame (Agree.refl.store (by omega))

theorem header_setPrev_of_disjoint : header (setPrev m p v) q = header m q :=
  header_frame (Agree.refl.store (by omega))

theorem header_setLength_of_disjoint : header (setLength m p v) q = header m q :=
  header_frame (Agree.refl.store (by omega))

theorem header_setAllocated_of_disjoint : header (setAllocated m p v) q = header m q :=
  header_frame (Agree.refl.store (by omega))

end Set

section Within

variable {a b : Nat} (h : Within m m' a b) (ha : a ≤ p) (hb : p + 16 ≤ b)

include h ha hb

theorem within_setNext : Within m (setNext m' p v) a b := h.store (by omega) (by omega)

theorem within_setPrev : Within m (setPrev m' p v) a b := h.store (by omega) (by omega)

theorem within_setLength : Within m (setLength m' p v) a b := h.store (by omega) (by omega)

theorem within_setAllocated : Within m (setAllocated m' p v) a b := h.store (by omega) (by omega)

theorem within_freeChunk {next length : Nat} :
    Within m (freeChunk m' p prev next length) a b :=
  within_setLength (within_setAllocated (within_setNext (within_setPrev h ha hb) ha hb) ha hb) ha hb

end Within

theorem header_freeChunk {next length : Nat} (h1 : prev < 2 ^ 32) (h2 : next < 2 ^ 32)
    (h3 : length < 2 ^ 32) :
    header (freeChunk m p prev next length) p = ⟨next, prev, length, 0⟩ := by
  unfold freeChunk
  rw [header_setLength h3, header_setAllocated (by decide), header_setNext h2, header_setPrev h1]

theorem header_freeChunk_of_disjoint {next length : Nat}
    (h : p + 16 ≤ q ∨ q + 16 ≤ p) :
    header (freeChunk m p prev next length) q = header m q := by
  unfold freeChunk
  rw [header_setLength_of_disjoint h, header_setAllocated_of_disjoint h,
    header_setNext_of_disjoint h, header_setPrev_of_disjoint h]

/-! ## Lists of chunks -/

/-- Where the chunks end -/
def endOf (off : Nat) : List Chunk → Nat
  | [] => off
  | c :: cs => endOf (off + 16 + c.capacity) cs

/-- The chunk before the end -/
def prevOf (prev off : Nat) : List Chunk → Nat
  | [] => prev
  | c :: cs => prevOf off (off + 16 + c.capacity) cs

/-- Chunks that are followed by others -/
def Before (m : Memory) (prev off : Nat) : List Chunk → Prop
  | [] => True
  | c :: cs =>
    header m off = ⟨off + 16 + c.capacity, prev, c.length, c.allocated.toNat⟩ ∧
      Before m off (off + 16 + c.capacity) cs

/-- Chunks up to the trailing one -/
def Linked (m : Memory) (prev off : Nat) : List Chunk → Prop
  | [] => header m off = ⟨0, prev, 0, 0⟩
  | c :: cs =>
    header m off = ⟨off + 16 + c.capacity, prev, c.length, c.allocated.toNat⟩ ∧
      Linked m off (off + 16 + c.capacity) cs

section Lists

variable {c : Chunk} {as bs cs : List Chunk}

theorem le_endOf (off : Nat) (cs : List Chunk) : off ≤ endOf off cs := by
  induction cs generalizing off with
  | nil => exact Nat.le_refl _
  | cons c cs ih =>
    have h := ih (off + 16 + c.capacity)
    simp only [endOf]
    omega

theorem endOf_append (off : Nat) (as bs : List Chunk) :
    endOf off (as ++ bs) = endOf (endOf off as) bs := by
  induction as generalizing off with
  | nil => rfl
  | cons c as ih => exact ih _

theorem length_mul_le (off : Nat) (cs : List Chunk) : off + 16 * cs.length ≤ endOf off cs := by
  induction cs generalizing off with
  | nil => simp [endOf]
  | cons c cs ih =>
    have h := ih (off + 16 + c.capacity)
    simp only [endOf, List.length_cons]
    omega

theorem linked_append (as bs : List Chunk) :
    Linked m prev off (as ++ bs) ↔
      Before m prev off as ∧ Linked m (prevOf prev off as) (endOf off as) bs := by
  induction as generalizing prev off with
  | nil => simp [Before, prevOf, endOf]
  | cons a as ih => simp only [List.cons_append, Linked, Before, prevOf, endOf, ih, and_assoc]

theorem Before.frame (h : Before m prev off as) (ha : Agree m m' off (endOf off as)) :
    Before m' prev off as := by
  induction as generalizing prev off with
  | nil => trivial
  | cons a as ih =>
    have hle := le_endOf (off + 16 + a.capacity) as
    simp only [endOf] at ha
    refine ⟨?_, ih h.2 (ha.mono (by omega) (Nat.le_refl _))⟩
    rw [header_frame (ha.mono (Nat.le_refl _) (by omega))]
    exact h.1

theorem Linked.frame (h : Linked m prev off cs)
    (ha : Agree m m' off (endOf off cs + 16)) : Linked m' prev off cs := by
  induction cs generalizing prev off with
  | nil =>
    show header m' off = _
    rw [header_frame ha]
    exact h
  | cons c cs ih =>
    have hle := le_endOf (off + 16 + c.capacity) cs
    simp only [endOf] at ha
    refine ⟨?_, ih h.2 (ha.mono (by omega) (Nat.le_refl _))⟩
    rw [header_frame (ha.mono (Nat.le_refl _) (by omega))]
    exact h.1

/-- Something else stands before the chunks. -/
theorem Linked.relink {prev' : Nat} (h : Linked m prev off cs)
    (hfirst : header m' off = { header m off with offsetPrev := prev' })
    (ha : Agree m m' (off + 16) (endOf off cs + 16)) :
    Linked m' prev' off cs := by
  cases cs with
  | nil =>
    show header m' off = _
    rw [hfirst, show header m off = _ from h]
  | cons c cs =>
    refine ⟨by rw [hfirst, h.1], h.2.frame (ha.mono (by omega) (Nat.le_refl _))⟩

/-! ## Edits -/

/-- The length is that of the block, which needs not fill the chunk. -/
def Chunk.Wf (c : Chunk) : Prop := 0 < c.length ∧ c.length ≤ c.capacity ∧ 8 ∣ c.capacity

/-- The chunks from `off` on, inside an account of this length -/
structure Tiles (dataLen : Nat) (m : Memory) (prev off : Nat) (cs : List Chunk) : Prop where
  linked : Linked m prev off cs
  fits : endOf off cs + 16 ≤ dataLen
  wf : ∀ c ∈ cs, c.Wf

variable {dataLen : Nat} {ys ds : List Chunk}

theorem Tiles.head (h : Tiles dataLen m prev off (c :: cs)) :
    header m off = ⟨off + 16 + c.capacity, prev, c.length, c.allocated.toNat⟩ := h.linked.1

theorem Tiles.tail (h : Tiles dataLen m prev off (c :: cs)) :
    Tiles dataLen m off (off + 16 + c.capacity) cs where
  linked := h.linked.2
  fits := h.fits
  wf e he := h.wf e (List.mem_cons_of_mem _ he)

/-- The first chunk and the header behind it are inside the account. -/
theorem Tiles.bound (h : Tiles dataLen m prev off (c :: cs)) :
    off + 16 + c.capacity + 16 ≤ dataLen := by
  have hle := le_endOf (off + 16 + c.capacity) cs
  have hfits := h.fits
  simp only [endOf] at hfits
  omega

theorem Tiles.bound_nil (h : Tiles dataLen m prev off cs) : off + 16 ≤ dataLen := by
  have hle := le_endOf off cs
  have hfits := h.fits
  omega

theorem Tiles.seam (h : Tiles dataLen m prev off (as ++ bs)) :
    Before m prev off as ∧ Tiles dataLen m (prevOf prev off as) (endOf off as) bs := by
  obtain ⟨hl, he, hw⟩ := h
  obtain ⟨h1, h2⟩ := (linked_append as bs).mp hl
  rw [endOf_append] at he
  exact ⟨h1, h2, he, fun c hc => hw c (List.mem_append_right _ hc)⟩

/-- What stands before an edit stays. -/
theorem Tiles.edit (h : Tiles dataLen m prev off (as ++ cs)) (ha : Agree m m' off (endOf off as))
    (h' : Tiles dataLen m' (prevOf prev off as) (endOf off as) ds) :
    Tiles dataLen m' prev off (as ++ ds) where
  linked := (linked_append as ds).mpr ⟨h.seam.1.frame ha, h'.linked⟩
  fits := by
    rw [endOf_append]
    exact h'.fits
  wf e he := by
    obtain he | he := List.mem_append.mp he
    · exact h.wf e (List.mem_append_left _ he)
    · exact h'.wf e he

/-- Only the length of the first chunk changes, and whether it is free. -/
theorem Tiles.setHead {e : Chunk} (h : Tiles dataLen m prev off (c :: cs))
    (hhead : header m' off = ⟨off + 16 + c.capacity, prev, e.length, e.allocated.toNat⟩)
    (hcap : e.capacity = c.capacity) (hwf : e.Wf) (hw : Within m m' off (off + 16)) :
    Tiles dataLen m' prev off (e :: cs) where
  linked := by
    refine ⟨by rw [hcap, hhead], ?_⟩
    rw [hcap]
    exact h.linked.2.frame (hw.agree (.inr (by omega)))
  fits := by
    simp only [endOf, hcap]
    exact h.fits
  wf := List.forall_mem_cons.mpr ⟨hwf, fun d hd => h.wf d (List.mem_cons_of_mem _ hd)⟩

/-- Chunks are replaced by others of the same extent: the header behind them gets the new pointer
back. -/
theorem Tiles.replace (xs : List Chunk) (h : Tiles dataLen m prev off (xs ++ cs)) (hys : Before m' prev off ys)
    (hwf : ∀ c ∈ ys, c.Wf) (hend : endOf off ys = endOf off xs)
    (hnext : header m' (endOf off xs) =
      { header m (endOf off xs) with offsetPrev := prevOf prev off ys })
    (ha : Agree m m' (endOf off xs + 16) dataLen) :
    Tiles dataLen m' prev off (ys ++ cs) where
  linked := by
    have hfits := h.seam.2.fits
    refine (linked_append ys cs).mpr ⟨hys, ?_⟩
    rw [hend]
    exact h.seam.2.linked.relink hnext (ha.mono (Nat.le_refl _) hfits)
  fits := by
    rw [endOf_append, hend]
    exact h.seam.2.fits
  wf e he := by
    obtain he | he := List.mem_append.mp he
    · exact hwf e he
    · exact h.wf e (List.mem_append_right _ he)

/-- The trailing chunk is written anew behind these chunks. -/
theorem Tiles.trailing (hys : Before m' prev off ys) (hwf : ∀ c ∈ ys, c.Wf)
    (hlast : header m' (endOf off ys) = ⟨0, prevOf prev off ys, 0, 0⟩)
    (hfits : endOf off ys + 16 ≤ dataLen) : Tiles dataLen m' prev off ys where
  linked := by
    rw [← List.append_nil ys]
    exact (linked_append ys []).mpr ⟨hys, hlast⟩
  fits := hfits
  wf := hwf

/-! ## Places -/

/-- The chunks with the offsets of their payloads -/
def placed (off : Nat) : List Chunk → List (Nat × Chunk)
  | [] => []
  | c :: cs => (off + 16, c) :: placed (off + 16 + c.capacity) cs

theorem placed_append (off : Nat) (as bs : List Chunk) :
    placed off (as ++ bs) = placed off as ++ placed (endOf off as) bs := by
  induction as generalizing off with
  | nil => rfl
  | cons a as ih => simp only [List.cons_append, placed, endOf, ih]

theorem placed_bound {b : Nat} (h : (b, c) ∈ placed off cs) :
    off + 16 ≤ b ∧ b + c.capacity ≤ endOf off cs := by
  induction cs generalizing off with
  | nil => cases h
  | cons a cs ih =>
    have hle := le_endOf (off + 16 + a.capacity) cs
    simp only [endOf]
    obtain h | h := List.mem_cons.mp h
    · cases h
      omega
    · have hb := ih h
      omega

theorem exists_of_mem_placed {b : Nat} (h : (b, c) ∈ placed off cs) :
    ∃ as bs, cs = as ++ c :: bs ∧ b = endOf off as + 16 := by
  induction cs generalizing off with
  | nil => cases h
  | cons a cs ih =>
    obtain h | h := List.mem_cons.mp h
    · cases h
      exact ⟨[], cs, rfl, rfl⟩
    · obtain ⟨as, bs, rfl, rfl⟩ := ih h
      exact ⟨a :: as, bs, rfl, rfl⟩

/-- The payloads of two chunks do not overlap. -/
theorem placed_disjoint {b b' : Nat} {c' : Chunk} (h : (b, c) ∈ placed off cs)
    (h' : (b', c') ∈ placed off cs) (hne : b ≠ b') :
    b + c.capacity + 16 ≤ b' ∨ b' + c'.capacity + 16 ≤ b := by
  induction cs generalizing off with
  | nil => cases h
  | cons a cs ih =>
    obtain h | h := List.mem_cons.mp h
    · cases h
      obtain h' | h' := List.mem_cons.mp h'
      · cases h'
        exact absurd rfl hne
      · exact .inl (placed_bound h').1
    · obtain h' | h' := List.mem_cons.mp h'
      · cases h'
        exact .inr (placed_bound h).1
      · exact ih h h'

theorem placed_unique {b : Nat} {c' : Chunk} (h : (b, c) ∈ placed off cs)
    (h' : (b, c') ∈ placed off cs) : c = c' := by
  induction cs generalizing off with
  | nil => cases h
  | cons a cs ih =>
    obtain h | h := List.mem_cons.mp h
    · cases h
      obtain h' | h' := List.mem_cons.mp h'
      · cases h'
        rfl
      · have hb := (placed_bound h').1
        omega
    · obtain h' | h' := List.mem_cons.mp h'
      · cases h'
        have hb := (placed_bound h).1
        omega
      · exact ih h h'

/-- Only payloads change. -/
theorem Linked.fill (h : Linked m prev off cs)
    (hm : ∀ x, off ≤ x → (∀ b c, (b, c) ∈ placed off cs → ¬(b ≤ x ∧ x < b + c.capacity)) → m' x = m x) :
    Linked m' prev off cs := by
  induction cs generalizing prev off with
  | nil =>
    show header m' off = _
    rw [header_frame fun x hx _ => hm x hx nofun]
    exact h
  | cons c cs ih =>
    have hhead : Agree m m' off (off + 16) := by
      intro x hx hx'
      refine hm x hx fun b d hb hin => ?_
      have hle := (placed_bound hb).1
      omega
    refine ⟨?_, ih h.2 fun x hx hout => ?_⟩
    · rw [header_frame hhead]
      exact h.1
    · refine hm x (by omega) fun b d hb hin => ?_
      obtain hb | hb := List.mem_cons.mp hb
      · cases hb
        omega
      · exact hout b d hb hin

/-! ## What an edit keeps -/

/-- The chunks that are taken stay where they are with their bytes, except for this block. -/
def Keeps (m m' : Memory) (off : Nat) (cs cs' : List Chunk) (block : Option Nat) : Prop :=
  ∀ b c, (b, c) ∈ placed off cs → c.allocated = true → some b ≠ block →
    (b, c) ∈ placed off cs' ∧ Agree m m' b (b + c.capacity)

/-- The chunks from `off` on become others. -/
structure Edit (dataLen : Nat) (m m' : Memory) (prev off : Nat) (cs cs' : List Chunk)
    (block : Option Nat) : Prop where
  tiles : Tiles dataLen m' prev off cs'
  low : Agree m m' 0 off
  keeps : Keeps m m' off cs cs' block

section Edit

variable {m'' : Memory} {cs' cs'' : List Chunk} {block : Option Nat}

theorem Edit.refl (h : Tiles dataLen m prev off cs) : Edit dataLen m m prev off cs cs block where
  tiles := h
  low := .refl
  keeps _ _ hb _ _ := ⟨hb, .refl⟩

theorem Edit.trans (h : Edit dataLen m m' prev off cs cs' block)
    (h' : Edit dataLen m' m'' prev off cs' cs'' block) :
    Edit dataLen m m'' prev off cs cs'' block where
  tiles := h'.tiles
  low := h.low.trans h'.low
  keeps b c hb hc hne := by
    obtain ⟨h1, h2⟩ := h.keeps b c hb hc hne
    obtain ⟨h3, h4⟩ := h'.keeps b c h1 hc hne
    exact ⟨h3, h2.trans h4⟩

/-- An edit that keeps every block -/
theorem Edit.weaken (h : Edit dataLen m m' prev off cs cs' none) (block : Option Nat) :
    Edit dataLen m m' prev off cs cs' block where
  tiles := h.tiles
  low := h.low
  keeps b c hb hc _ := h.keeps b c hb hc nofun

/-- An edit behind other chunks -/
theorem Edit.append (h : Tiles dataLen m prev off (as ++ cs))
    (he : Edit dataLen m m' (prevOf prev off as) (endOf off as) cs cs' block) :
    Edit dataLen m m' prev off (as ++ cs) (as ++ cs') block where
  tiles := h.edit (he.low.mono (Nat.zero_le _) le_rfl) he.tiles
  low := he.low.mono le_rfl (le_endOf off as)
  keeps b c hb hc hne := by
    rw [placed_append, List.mem_append] at hb ⊢
    obtain hb | hb := hb
    · have hbound := placed_bound hb
      exact ⟨.inl hb, he.low.mono (Nat.zero_le _) hbound.2⟩
    · obtain ⟨h1, h2⟩ := he.keeps b c hb hc hne
      exact ⟨.inr h1, h2⟩

/-- Chunks of the same extent, of which at most the block is taken -/
theorem Edit.replace (xs : List Chunk) (h : Tiles dataLen m' prev off (ys ++ cs))
    (hw : Within m m' off (endOf off xs + 16)) (hend : endOf off ys = endOf off xs)
    (hxs : ∀ b c, (b, c) ∈ placed off xs → c.allocated = true → some b = block) :
    Edit dataLen m m' prev off (xs ++ cs) (ys ++ cs) block where
  tiles := h
  low := hw.agree (.inl le_rfl)
  keeps b c hb hc hne := by
    rw [placed_append, List.mem_append] at hb ⊢
    obtain hb | hb := hb
    · exact absurd (hxs b c hb hc) hne
    · rw [hend]
      exact ⟨.inr hb, hw.agree (.inr (placed_bound hb).1)⟩

/-- The chunks before the trailing one, of which at most the block is taken -/
theorem Edit.trailing (xs : List Chunk) (h : Tiles dataLen m' prev off ys) (low : Agree m m' 0 off)
    (hxs : ∀ b c, (b, c) ∈ placed off xs → c.allocated = true → some b = block) :
    Edit dataLen m m' prev off xs ys block where
  tiles := h
  low := low
  keeps b c hb hc hne := absurd (hxs b c hb hc) hne

end Edit

end Lists

end Solang.Stdlib.AccountHeap
