import Solang.Stdlib.Heap

/-!
# The chunk list in memory

`Linked m prev off cs`: the chunks `cs` stand one after the other from `off` on, with
the headers that link them. A run of chunks is split at any seam (`linked_append`) and
depends only on its own bytes (`Linked.frame`), so each edit of the list is proved at
the chunks that it changes.
-/

namespace Solang.Stdlib.Heap

open Memory

/-- What the header says of a chunk -/
structure Chunk where
  length : Nat
  allocated : Bool
  deriving DecidableEq

namespace Arena

variable (A : Arena) {m m' : Memory} {p q v prev off : Nat}

theorem sizeofChunk_eq : A.sizeofChunk = 2 * A.ptr + 8 := rfl

theorem dvd_sizeofChunk : 8 ∣ A.sizeofChunk := by
  obtain h | h := A.ptr_eq <;> rw [sizeofChunk, h] <;> decide

/-! ## Headers -/

section Headers

variable {A}

theorem header_frame (h : Agree m m' p (p + A.sizeofChunk)) : A.header m' p = A.header m p := by
  have hs := A.sizeofChunk_eq
  unfold header
  rw [h.load (by omega) (by omega), h.load (by omega) (by omega), h.load (by omega) (by omega),
    h.load (by omega) (by omega)]

theorem agree_setNext {a b : Nat} (h : Agree m m' a b) (hp : p + A.sizeofChunk ≤ a ∨ b ≤ p) :
    Agree m (A.setNext m' p v) a b :=
  h.store (by have := A.sizeofChunk_eq; omega)

theorem agree_setPrev {a b : Nat} (h : Agree m m' a b) (hp : p + A.sizeofChunk ≤ a ∨ b ≤ p) :
    Agree m (A.setPrev m' p v) a b :=
  h.store (by have := A.sizeofChunk_eq; omega)

theorem agree_setLength {a b : Nat} (h : Agree m m' a b) (hp : p + A.sizeofChunk ≤ a ∨ b ≤ p) :
    Agree m (A.setLength m' p v) a b :=
  h.store (by have := A.sizeofChunk_eq; omega)

theorem agree_setAllocated {a b : Nat} (h : Agree m m' a b) (hp : p + A.sizeofChunk ≤ a ∨ b ≤ p) :
    Agree m (A.setAllocated m' p v) a b :=
  h.store (by have := A.sizeofChunk_eq; omega)

theorem header_setNext (h : v < 256 ^ A.ptr) :
    A.header (A.setNext m p v) p = { A.header m p with next := v } := by
  unfold header setNext
  rw [load_store_of_lt h, load_store_of_disjoint (by omega), load_store_of_disjoint (by omega),
    load_store_of_disjoint (by omega)]

theorem header_setPrev (h : v < 256 ^ A.ptr) :
    A.header (A.setPrev m p v) p = { A.header m p with prev := v } := by
  unfold header setPrev
  rw [load_store_of_lt h, load_store_of_disjoint (by omega), load_store_of_disjoint (by omega),
    load_store_of_disjoint (by omega)]

theorem header_setLength (h : v < 2 ^ 32) :
    A.header (A.setLength m p v) p = { A.header m p with length := v } := by
  unfold header setLength
  rw [load_store_of_lt (n := 4) (by omega), load_store_of_disjoint (by omega),
    load_store_of_disjoint (by omega), load_store_of_disjoint (by omega)]

theorem header_setAllocated (h : v < 2 ^ 32) :
    A.header (A.setAllocated m p v) p = { A.header m p with allocated := v } := by
  unfold header setAllocated
  rw [load_store_of_lt (n := 4) (by omega), load_store_of_disjoint (by omega),
    load_store_of_disjoint (by omega), load_store_of_disjoint (by omega)]

end Headers

/-! ## Lists of chunks -/

/-- Where the chunks end -/
def endOf (off : Nat) : List Chunk → Nat
  | [] => off
  | c :: cs => endOf (off + A.sizeofChunk + c.length) cs

/-- The chunk before the end -/
def prevOf (prev off : Nat) : List Chunk → Nat
  | [] => prev
  | c :: cs => prevOf off (off + A.sizeofChunk + c.length) cs

/-- The pointer to the chunks that follow -/
def link (off : Nat) (cs : List Chunk) : Nat := if cs.isEmpty then 0 else off

/-- Chunks up to the last one of the list -/
def Linked (m : Memory) (prev off : Nat) : List Chunk → Prop
  | [] => True
  | c :: cs =>
    A.header m off = ⟨link (off + A.sizeofChunk + c.length) cs, prev, c.length, c.allocated.toNat⟩ ∧
      Linked m off (off + A.sizeofChunk + c.length) cs

/-- Chunks that are followed by others -/
def Before (m : Memory) (prev off : Nat) : List Chunk → Prop
  | [] => True
  | c :: cs =>
    A.header m off = ⟨off + A.sizeofChunk + c.length, prev, c.length, c.allocated.toNat⟩ ∧
      Before m off (off + A.sizeofChunk + c.length) cs

section Lists

variable {A} {c d : Chunk} {as bs cs : List Chunk}

@[simp] theorem link_nil : link off [] = 0 := rfl

@[simp] theorem link_cons : link off (c :: cs) = off := rfl

theorem le_endOf (off : Nat) (cs : List Chunk) : off ≤ A.endOf off cs := by
  induction cs generalizing off with
  | nil => exact Nat.le_refl _
  | cons c cs ih =>
    have h := ih (off + A.sizeofChunk + c.length)
    simp only [endOf]
    omega

theorem endOf_append (off : Nat) (as bs : List Chunk) :
    A.endOf off (as ++ bs) = A.endOf (A.endOf off as) bs := by
  induction as generalizing off with
  | nil => rfl
  | cons c as ih => exact ih _

theorem linked_append (as : List Chunk) :
    A.Linked m prev off (as ++ c :: bs) ↔
      A.Before m prev off as ∧ A.Linked m (A.prevOf prev off as) (A.endOf off as) (c :: bs) := by
  induction as generalizing prev off with
  | nil => simp [Before, prevOf, endOf]
  | cons a as ih =>
    have hlink : link (off + A.sizeofChunk + a.length) (as ++ c :: bs) =
        off + A.sizeofChunk + a.length := by simp [link]
    simp only [List.cons_append, Linked, Before, prevOf, endOf, ih, hlink, and_assoc]

theorem prevOf_append (prev off : Nat) (as : List Chunk) (c : Chunk) :
    A.prevOf prev off (as ++ [c]) = A.endOf off as := by
  induction as generalizing prev off with
  | nil => rfl
  | cons a as ih => exact ih _ _

theorem Before.frame (h : A.Before m prev off as) (ha : Agree m m' off (A.endOf off as)) :
    A.Before m' prev off as := by
  induction as generalizing prev off with
  | nil => trivial
  | cons a as ih =>
    have hle := le_endOf (A := A) (off + A.sizeofChunk + a.length) as
    simp only [endOf] at ha
    refine ⟨?_, ih h.2 (ha.mono (by omega) (Nat.le_refl _))⟩
    rw [header_frame (ha.mono (Nat.le_refl _) (by omega))]
    exact h.1

theorem Linked.frame (h : A.Linked m prev off cs) (ha : Agree m m' off (A.endOf off cs)) :
    A.Linked m' prev off cs := by
  induction cs generalizing prev off with
  | nil => trivial
  | cons c cs ih =>
    have hle := le_endOf (A := A) (off + A.sizeofChunk + c.length) cs
    simp only [endOf] at ha
    refine ⟨?_, ih h.2 (ha.mono (by omega) (Nat.le_refl _))⟩
    rw [header_frame (ha.mono (Nat.le_refl _) (by omega))]
    exact h.1

/-- Only the pointer back changes when something else stands before the chunks. -/
theorem Linked.setPrev {prev' : Nat} (h : A.Linked m prev off cs) (hne : cs ≠ [])
    (hp : prev' < 256 ^ A.ptr) : A.Linked (A.setPrev m off prev') prev' off cs := by
  cases cs with
  | nil => exact absurd rfl hne
  | cons c cs =>
    refine ⟨?_, h.2.frame (agree_setPrev .refl (.inl (by omega)))⟩
    rw [header_setPrev hp, h.1]

end Lists

/-! ## Edits -/

section Edits

variable {A} {c d : Chunk} {as bs cs ds : List Chunk} {size : Nat}

variable (A) in
theorem ptr_bound : A.limit ≤ 256 ^ A.ptr := A.fits

variable (A) in
theorem zero_lt : 0 < 256 ^ A.ptr := Nat.pow_pos (by decide)

/-- The chunks from `off` on, which end where the memory does -/
structure Tiles (A : Arena) (m : Memory) (prev off : Nat) (cs : List Chunk) : Prop where
  linked : A.Linked m prev off cs
  ends : A.endOf off cs = A.limit
  pos : A.start ≤ off
  dvd : ∀ c ∈ cs, 8 ∣ c.length

theorem Tiles.length_lt (h : Tiles A m prev off cs) : ∀ c ∈ cs, c.length < 2 ^ 32 := by
  have hlen := A.length_lt
  obtain ⟨-, hends, hpos, -⟩ := h
  unfold limit at hends
  induction cs generalizing off with
  | nil => simp
  | cons a cs ih =>
    have hle := le_endOf (A := A) (off + A.sizeofChunk + a.length) cs
    simp only [endOf] at hends
    simp only [List.forall_mem_cons]
    exact ⟨by omega, ih hends (by omega)⟩

theorem Tiles.setAllocated (h : Tiles A m prev off (c :: cs)) (b : Bool) :
    Tiles A (A.setAllocated m off b.toNat) prev off (⟨c.length, b⟩ :: cs) := by
  obtain ⟨⟨hhead, htail⟩, hends, hpos, hdvd⟩ := h
  refine ⟨⟨?_, htail.frame (agree_setAllocated .refl (.inl (by omega)))⟩, hends, hpos, ?_⟩
  · rw [header_setAllocated (by have := b.toNat_lt; omega), hhead]
  · simpa using hdvd

/-- The chunks after the first two, with the pointers around them set to skip the second -/
theorem mergeNext_eq (hc : A.header m off = ⟨p, prev, c.length, c.allocated.toNat⟩)
    (hd : A.header m p = ⟨q, off, d.length, d.allocated.toNat⟩) (hpo : off + A.sizeofChunk ≤ p)
    (hq : q = 0 ∨ p + A.sizeofChunk ≤ q) (hlt : q < 256 ^ A.ptr) :
    A.mergeNext m off p = A.setLength
      (if q ≠ 0 then A.setPrev (A.setNext m off q) q off else A.setNext m off q) off
      (c.length + d.length + A.sizeofChunk) := by
  unfold mergeNext
  have hnext : (A.header (A.setNext m off q) off).next = q := by rw [header_setNext hlt]
  have hlen1 : (A.header (A.setNext m off q) off).length = c.length := by
    rw [header_setNext hlt, hc]
  have hlen2 : (A.header (A.setNext m off q) p).length = d.length := by
    rw [header_frame (agree_setNext .refl (.inl hpo)), hd]
  simp only [hd, hnext]
  split
  next h0 =>
    have hq := hq.resolve_left h0
    rw [header_frame (agree_setPrev .refl (.inr (by omega))), hlen1,
      header_frame (agree_setPrev .refl (.inr hq)), hlen2]
  next => rw [hlen1, hlen2]

/-- Two chunks become one. -/
theorem Tiles.mergeNext (h : Tiles A m prev off (c :: d :: cs)) :
    Tiles A (A.mergeNext m off (off + A.sizeofChunk + c.length)) prev off
        (⟨c.length + d.length + A.sizeofChunk, c.allocated⟩ :: cs) ∧
      Agree m (A.mergeNext m off (off + A.sizeofChunk + c.length)) 0 off := by
  have hb := A.ptr_bound
  have hs := A.sizeofChunk_eq
  have hlen := A.length_lt
  obtain ⟨⟨hc, hd, hcs⟩, hends, hpos, hdvd⟩ := h
  have hend : off + A.sizeofChunk + (c.length + d.length + A.sizeofChunk) =
      off + A.sizeofChunk + c.length + A.sizeofChunk + d.length := by omega
  have hlast := le_endOf (A := A) (off + A.sizeofChunk + c.length + A.sizeofChunk + d.length) cs
  simp only [endOf] at hends
  have hlimit : A.limit = A.start + A.sizeofChunk + A.length := rfl
  rw [link_cons] at hc
  have hsum : c.length + d.length + A.sizeofChunk < 2 ^ 32 := by omega
  have hdvd' : ∀ e ∈ (⟨c.length + d.length + A.sizeofChunk, c.allocated⟩ : Chunk) :: cs,
      8 ∣ e.length := by
    simp only [List.forall_mem_cons] at hdvd ⊢
    have hpd := A.dvd_sizeofChunk
    exact ⟨by omega, hdvd.2.2⟩
  have hends' : A.endOf off (⟨c.length + d.length + A.sizeofChunk, c.allocated⟩ :: cs) = A.limit := by
    simp only [endOf]
    rw [hend]
    exact hends
  cases cs with
  | nil =>
    have heq := mergeNext_eq hc hd (by omega) (.inl rfl) A.zero_lt
    simp only [link_nil, ne_eq, not_true, if_false] at heq
    rw [heq]
    refine ⟨⟨⟨?_, trivial⟩, hends', hpos, hdvd'⟩, ?_⟩
    · rw [header_setLength hsum, header_setNext A.zero_lt, hc]
      rfl
    · exact agree_setLength (agree_setNext .refl (.inr (Nat.le_refl _))) (.inr (Nat.le_refl _))
  | cons e es =>
    rw [link_cons] at hd
    have hle := le_endOf (A := A)
      (off + A.sizeofChunk + c.length + A.sizeofChunk + d.length + A.sizeofChunk + e.length) es
    simp only [endOf] at hends
    have heq := mergeNext_eq hc hd (by omega) (.inr (by omega)) (by omega)
    rw [if_pos (by omega)] at heq
    rw [heq]
    refine ⟨⟨⟨?_, ?_⟩, hends', hpos, hdvd'⟩, ?_⟩
    · rw [header_setLength hsum, header_frame (agree_setPrev .refl (.inr (by omega))),
        header_setNext (by omega), hc, link_cons, hend]
    · simp only [hend]
      refine Linked.frame ?_ (agree_setLength .refl (.inl (by omega)))
      exact (hcs.frame (agree_setNext .refl (.inl (by omega)))).setPrev (by simp) (by omega)
    · refine agree_setLength ?_ (.inr (Nat.le_refl _))
      exact agree_setPrev (agree_setNext .refl (.inr (Nat.le_refl _))) (.inr (by omega))

theorem roundUp_le (hle : size ≤ c.length) (hd : 8 ∣ c.length) : roundUp size ≤ c.length := by
  unfold roundUp
  omega

theorem le_roundUp (hle : size ≤ c.length) (hd : 8 ∣ c.length) (hlt : c.length < 2 ^ 32) :
    size ≤ roundUp size := by
  unfold roundUp
  omega

theorem dvd_roundUp (size : Nat) : 8 ∣ roundUp size := Dvd.intro_left _ rfl

theorem sub32_of_le {a b : Nat} (h : b ≤ a) (ha : a < 2 ^ 32) : sub32 a b = a - b := by
  unfold sub32
  omega

/-- The headers of a chunk that is split, and of the chunk behind it -/
theorem shrinkChunk_eq {new next : Nat} (hnew : new = off + A.sizeofChunk + roundUp size)
    (hc : A.header m off = ⟨next, prev, c.length, c.allocated.toNat⟩) (hlt : c.length < 2 ^ 32)
    (hr : roundUp size ≤ c.length) (hbig : 8 + A.sizeofChunk ≤ c.length - roundUp size)
    (hnext : next < 256 ^ A.ptr) (hlt' : new < 256 ^ A.ptr) (hn : next = 0 ∨ new ≤ next) :
    A.shrinkChunk m off size =
      let m1 := A.setNext m new next
      let m2 := if next ≠ 0 then A.setPrev m1 next new else m1
      let m3 := A.setPrev (A.setNext m2 off new) new off
      let m4 := A.setLength (A.setAllocated m3 new 0) new (c.length - roundUp size - A.sizeofChunk)
      A.setLength m4 off (roundUp size) := by
  unfold Arena.shrinkChunk
  have hlen : (A.header m off).length = c.length := by rw [hc]
  have hnx : (A.header m off).next = next := by rw [hc]
  have h1 : (A.header (A.setNext m new next) new).next = next := by rw [header_setNext hnext]
  simp only [hlen, hnx, sub32_of_le hr hlt, if_pos hbig, ← hnew, h1]
  -- the length is read again after the pointers are set
  have hm2 : ∀ m2, m2 = (if next ≠ 0 then A.setPrev (A.setNext m new next) next new
      else A.setNext m new next) →
      (A.header (A.setAllocated (A.setPrev (A.setNext m2 off new) new off) new 0) off).length =
        c.length := by
    rintro m2 rfl
    rw [header_frame (agree_setAllocated .refl (.inr (by omega))),
      header_frame (agree_setPrev .refl (.inr (by omega))), header_setNext hlt', ← hlen]
    split
    next h0 =>
      have hn := hn.resolve_left h0
      rw [header_frame (agree_setPrev .refl (.inr (by omega))),
        header_frame (agree_setNext .refl (.inr (by omega)))]
    next => rw [header_frame (agree_setNext .refl (.inr (by omega)))]
  rw [hm2 _ rfl, sub32_of_le hr hlt]

theorem Tiles.splitChunk (h : Tiles A m prev off (c :: cs)) (hr : roundUp size ≤ c.length)
    (hbig : 8 + A.sizeofChunk ≤ c.length - roundUp size) :
    Tiles A (A.shrinkChunk m off size) prev off
        (⟨roundUp size, c.allocated⟩ :: ⟨c.length - roundUp size - A.sizeofChunk, false⟩ :: cs) ∧
      Agree m (A.shrinkChunk m off size) 0 off := by
  have hb := A.ptr_bound
  have hpos0 := A.start_pos
  have hlt : c.length < 2 ^ 32 := h.length_lt c (by simp)
  obtain ⟨⟨hc, hcs⟩, hends, hpos, hdvd⟩ := h
  simp only [endOf] at hends
  let new := off + A.sizeofChunk + roundUp size
  let next := link (off + A.sizeofChunk + c.length) cs
  have hend : new + A.sizeofChunk + (c.length - roundUp size - A.sizeofChunk) =
      off + A.sizeofChunk + c.length := by
    simp only [new]
    omega
  have hlast := le_endOf (A := A) (off + A.sizeofChunk + c.length) cs
  have hnew : new < 256 ^ A.ptr := by
    simp only [new]
    omega
  -- the chunk behind, if there is one
  have hnext : next < 256 ^ A.ptr ∧ (next = 0 ∨ next = off + A.sizeofChunk + c.length) := by
    cases cs with
    | nil => exact ⟨A.zero_lt, .inl rfl⟩
    | cons d cs =>
      have hs := A.sizeofChunk_eq
      have hle := le_endOf (A := A) (off + A.sizeofChunk + c.length + A.sizeofChunk + d.length) cs
      simp only [endOf] at hends
      exact ⟨by simp only [next, link_cons]; omega, .inr rfl⟩
  have heq := shrinkChunk_eq rfl hc hlt hr hbig hnext.1 hnew (hnext.2.imp id fun h => by omega)
  rw [heq]
  let m1 := A.setNext m new next
  let m2 := if next ≠ 0 then A.setPrev m1 next new else m1
  have hm2 : ∀ a b, b ≤ off + A.sizeofChunk + c.length → Agree m1 m2 a b := by
    intro a b hb
    simp only [m2]
    split
    next h0 => exact agree_setPrev .refl (.inr (by rw [hnext.2.resolve_left h0]; exact hb))
    next => exact Agree.refl
  have hrest : A.Linked m2 new (off + A.sizeofChunk + c.length) cs := by
    cases cs with
    | nil => trivial
    | cons d cs =>
      have hne0 : next ≠ 0 := by
        simp only [next, link_cons]
        omega
      simp only [m2, if_pos hne0]
      refine Linked.setPrev (Linked.frame hcs ?_) (by simp) hnew
      exact agree_setNext .refl (.inl (by omega))
  have hoff : A.header m2 off = ⟨next, prev, c.length, c.allocated.toNat⟩ := by
    rw [header_frame (hm2 _ _ (by omega)), header_frame (agree_setNext .refl (.inr (by omega))), hc]
  have hnewNext : (A.header m2 new).next = next := by
    rw [header_frame (hm2 _ _ (by omega)), header_setNext hnext.1]
  refine ⟨⟨⟨?_, ?_, ?_⟩, ?_, hpos, ?_⟩, ?_⟩
  · rw [header_setLength (by omega), header_frame (agree_setLength .refl (.inr (by omega))),
      header_frame (agree_setAllocated .refl (.inr (by omega))),
      header_frame (agree_setPrev .refl (.inr (by omega))), header_setNext hnew, hoff]
    rfl
  · rw [header_frame (agree_setLength .refl (.inl (by omega))), header_setLength (by omega),
      header_setAllocated (by omega), header_setPrev (by omega),
      header_frame (agree_setNext .refl (.inl (by omega)))]
    show Header.mk (A.header m2 new).next off (c.length - roundUp size - A.sizeofChunk) 0 =
      ⟨link (new + A.sizeofChunk + (c.length - roundUp size - A.sizeofChunk)) cs, off, _, 0⟩
    rw [hnewNext, hend]
  · rw [hend]
    refine hrest.frame (agree_setLength (agree_setLength (agree_setAllocated (agree_setPrev
      (agree_setNext .refl ?_) ?_) ?_) ?_) ?_) <;> exact .inl (by omega)
  · simp only [endOf]
    rw [hend]
    exact hends
  · have hpd := A.dvd_sizeofChunk
    have hrd := dvd_roundUp size
    simp only [List.forall_mem_cons] at hdvd ⊢
    exact ⟨hrd, by omega, hdvd.2⟩
  · have h1 : Agree m m2 0 off :=
      (agree_setNext .refl (.inr (by omega))).trans (hm2 0 off (by omega))
    refine agree_setLength (agree_setLength (agree_setAllocated (agree_setPrev
      (agree_setNext h1 ?_) ?_) ?_) ?_) ?_ <;> exact .inr (by omega)

/-- What `shrink_chunk` makes of the chunk -/
def split (A : Arena) (c : Chunk) (size : Nat) : List Chunk :=
  if 8 + A.sizeofChunk ≤ c.length - roundUp size then
    [⟨roundUp size, c.allocated⟩, ⟨c.length - roundUp size - A.sizeofChunk, false⟩]
  else [c]

theorem Tiles.shrinkChunk (h : Tiles A m prev off (c :: cs)) (hsize : size ≤ c.length) :
    Tiles A (A.shrinkChunk m off size) prev off (A.split c size ++ cs) ∧
      Agree m (A.shrinkChunk m off size) 0 off := by
  have hlt : c.length < 2 ^ 32 := h.length_lt c (by simp)
  have hr := roundUp_le hsize (h.dvd c (by simp))
  have hlen : (A.header m off).length = c.length := by rw [h.linked.1]
  unfold split
  by_cases hbig : 8 + A.sizeofChunk ≤ c.length - roundUp size
  · rw [if_pos hbig]
    exact h.splitChunk hr hbig
  · have heq : A.shrinkChunk m off size = m := by
      unfold Arena.shrinkChunk
      simp only [hlen, sub32_of_le hr hlt, if_neg hbig]
    rw [if_neg hbig, heq]
    exact ⟨h, Agree.refl⟩

theorem Tiles.seam (h : Tiles A m prev off (as ++ c :: bs)) :
    A.Before m prev off as ∧ Tiles A m (A.prevOf prev off as) (A.endOf off as) (c :: bs) := by
  obtain ⟨hl, he, hp, hd⟩ := h
  obtain ⟨h1, h2⟩ := (linked_append as).mp hl
  rw [endOf_append] at he
  refine ⟨h1, h2, he, hp.trans (le_endOf _ _), fun c hc => hd c ?_⟩
  exact List.mem_append_right _ hc

/-- What stands before an edit stays. -/
theorem Tiles.edit (h : Tiles A m prev off (as ++ cs)) (ha : Agree m m' 0 (A.endOf off as))
    (hbefore : A.Before m prev off as)
    (h' : Tiles A m' (A.prevOf prev off as) (A.endOf off as) (d :: ds)) :
    Tiles A m' prev off (as ++ d :: ds) where
  linked := (linked_append as).mpr ⟨hbefore.frame (ha.mono (Nat.zero_le _) (Nat.le_refl _)), h'.linked⟩
  ends := by
    rw [endOf_append]
    exact h'.ends
  pos := h.pos
  dvd e he := by
    obtain he | he := List.mem_append.mp he
    · exact h.dvd e (List.mem_append_left _ he)
    · exact h'.dvd e he

end Edits

end Arena

end Solang.Stdlib.Heap
