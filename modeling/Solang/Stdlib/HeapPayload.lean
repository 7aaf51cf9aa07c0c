import Solang.Stdlib.HeapCorrect

/-!
# The bytes of the payloads

The calls of the heap write headers only (`HeadersOnly`), those of the chunks that are there before or
after an edit. So the payload of a chunk that is there keeps its bytes. The one exception is the copy of
`__realloc`.
-/

namespace Solang.Stdlib.Heap

open Memory Arena

variable {A : Arena} {m m' m'' : Memory} {prev off size : Nat} {c d : Chunk}
  {as bs cs ds : List Chunk}

/-! ## Places -/

theorem le_of_mem_placed {b : Nat} (h : (b, c) ∈ placed A off cs) :
    off + A.sizeofChunk ≤ b ∧ b + c.length ≤ A.endOf off cs := by
  obtain ⟨as, bs, rfl, rfl⟩ := exists_of_mem_placed h
  have h1 := le_endOf (A := A) off as
  have h2 := le_endOf (A := A) (A.endOf off as + A.sizeofChunk + c.length) bs
  rw [endOf_append]
  simp only [endOf]
  omega

/-- A payload, and the header and the payload of another chunk -/
theorem placed_apart {b b' : Nat} (h : (b, c) ∈ placed A off cs) (h' : (b', d) ∈ placed A off cs) :
    b = b' ∧ c = d ∨ b + c.length + A.sizeofChunk ≤ b' ∨ b' + d.length + A.sizeofChunk ≤ b := by
  induction cs generalizing off with
  | nil => cases h
  | cons e cs ih =>
    obtain h | h := List.mem_cons.mp h <;> obtain h' | h' := List.mem_cons.mp h'
    · cases h
      cases h'
      exact .inl ⟨rfl, rfl⟩
    · cases h
      have := (le_of_mem_placed h').1
      omega
    · cases h'
      have := (le_of_mem_placed h).1
      omega
    · exact ih h h'

/-! ## Headers only -/

/-- Bytes outside the headers of these chunks do not change. -/
def HeadersOnly (A : Arena) (off : Nat) (cs : List Chunk) (m m' : Memory) : Prop :=
  ∀ a b, (∀ p ∈ placed A off cs, p.1 ≤ a ∨ b + A.sizeofChunk ≤ p.1) → Agree m m' a b

namespace HeadersOnly

theorem refl : HeadersOnly A off cs m m := fun _ _ _ => .refl

theorem trans (h : HeadersOnly A off cs m m') (h' : HeadersOnly A off cs m' m'') :
    HeadersOnly A off cs m m'' := fun a b hab => (h a b hab).trans (h' a b hab)

theorem mono {off' : Nat} (h : HeadersOnly A off cs m m')
    (hsub : ∀ p ∈ placed A off cs, ∃ d, (p.1, d) ∈ placed A off' ds) :
    HeadersOnly A off' ds m m' :=
  fun a b hab => h a b fun p hp => (hsub p hp).elim fun d hd => hab (p.1, d) hd

/-- A payload keeps its bytes. -/
theorem payload (h : HeadersOnly A off cs m m') {b : Nat} (hb : (b, c) ∈ placed A off cs) :
    Agree m m' b (b + c.length) := by
  refine h b _ fun p hp => ?_
  obtain ⟨rfl, -⟩ | h1 | h1 := placed_apart hb hp <;> omega

variable {q v : Nat}

theorem setNext (h : HeadersOnly A off cs m m') (hq : (q + A.sizeofChunk, c) ∈ placed A off cs) :
    HeadersOnly A off cs m (A.setNext m' q v) :=
  fun a b hab => agree_setNext (h a b hab) (by have := hab _ hq; simp only at this; omega)

theorem setPrev (h : HeadersOnly A off cs m m') (hq : (q + A.sizeofChunk, c) ∈ placed A off cs) :
    HeadersOnly A off cs m (A.setPrev m' q v) :=
  fun a b hab => agree_setPrev (h a b hab) (by have := hab _ hq; simp only at this; omega)

theorem setLength (h : HeadersOnly A off cs m m') (hq : (q + A.sizeofChunk, c) ∈ placed A off cs) :
    HeadersOnly A off cs m (A.setLength m' q v) :=
  fun a b hab => agree_setLength (h a b hab) (by have := hab _ hq; simp only at this; omega)

theorem setAllocated (h : HeadersOnly A off cs m m') (hq : (q + A.sizeofChunk, c) ∈ placed A off cs) :
    HeadersOnly A off cs m (A.setAllocated m' q v) :=
  fun a b hab => agree_setAllocated (h a b hab) (by have := hab _ hq; simp only at this; omega)

end HeadersOnly

theorem mem_placed_head : (off + A.sizeofChunk, c) ∈ placed A off (c :: cs) := List.mem_cons_self

theorem mem_placed_second :
    (off + A.sizeofChunk + c.length + A.sizeofChunk, d) ∈ placed A off (c :: d :: cs) :=
  List.mem_cons_of_mem _ List.mem_cons_self

/-! ## Edits -/

theorem headersOnly_mergeNext (h : Tiles A m prev off (c :: d :: cs)) :
    HeadersOnly A off (c :: d :: cs) m (A.mergeNext m off (off + A.sizeofChunk + c.length)) := by
  have hb := A.ptr_bound
  obtain ⟨⟨hc, hd, hcs⟩, hends, -, -⟩ := h
  simp only [endOf] at hends
  rw [link_cons] at hc
  cases cs with
  | nil =>
    rw [mergeNext_eq hc hd (by omega) (.inl rfl) A.zero_lt]
    exact ((HeadersOnly.refl).setNext mem_placed_head).setLength mem_placed_head
  | cons e es =>
    have hs := A.sizeofChunk_eq
    have hle := le_endOf (A := A)
      (off + A.sizeofChunk + c.length + A.sizeofChunk + d.length + A.sizeofChunk + e.length) es
    simp only [endOf] at hends
    rw [link_cons] at hd
    rw [mergeNext_eq hc hd (by omega) (.inr (by omega)) (by omega), if_pos (by omega)]
    refine (HeadersOnly.setPrev ?_ (List.mem_cons_of_mem _ mem_placed_second)).setLength
      mem_placed_head
    exact HeadersOnly.refl.setNext mem_placed_head

/-- The headers are those of the chunks afterwards. -/
theorem headersOnly_shrinkChunk (h : Tiles A m prev off (c :: cs)) (hsize : size ≤ c.length) :
    HeadersOnly A off (A.split c size ++ cs) m (A.shrinkChunk m off size) := by
  have hb := A.ptr_bound
  have hlt : c.length < 2 ^ 32 := h.length_lt c (by simp)
  have hr := roundUp_le hsize (h.dvd c (by simp))
  obtain ⟨⟨hc, hcs⟩, hends, hpos, -⟩ := h
  simp only [endOf] at hends
  have hlast := le_endOf (A := A) (off + A.sizeofChunk + c.length) cs
  unfold split
  by_cases hbig : 8 + A.sizeofChunk ≤ c.length - roundUp size
  · rw [if_pos hbig]
    have hnext : link (off + A.sizeofChunk + c.length) cs < 256 ^ A.ptr ∧
        (link (off + A.sizeofChunk + c.length) cs = 0 ∨
          link (off + A.sizeofChunk + c.length) cs = off + A.sizeofChunk + c.length) := by
      cases cs with
      | nil => exact ⟨A.zero_lt, .inl rfl⟩
      | cons d cs =>
        have hs := A.sizeofChunk_eq
        have hle := le_endOf (A := A) (off + A.sizeofChunk + c.length + A.sizeofChunk + d.length) cs
        simp only [endOf] at hends
        exact ⟨by simp only [link_cons]; omega, .inr rfl⟩
    rw [shrinkChunk_eq rfl hc hlt hr hbig hnext.1 (by omega) (hnext.2.imp id fun h => by omega)]
    have hhead : (off + A.sizeofChunk, (⟨roundUp size, c.allocated⟩ : Chunk)) ∈ placed A off
        ([⟨roundUp size, c.allocated⟩, ⟨c.length - roundUp size - A.sizeofChunk, false⟩] ++ cs) :=
      mem_placed_head
    have hnew : (off + A.sizeofChunk + roundUp size + A.sizeofChunk,
        (⟨c.length - roundUp size - A.sizeofChunk, false⟩ : Chunk)) ∈ placed A off
        ([⟨roundUp size, c.allocated⟩, ⟨c.length - roundUp size - A.sizeofChunk, false⟩] ++ cs) :=
      mem_placed_second
    refine (HeadersOnly.setLength (HeadersOnly.setAllocated (HeadersOnly.setPrev
      (HeadersOnly.setNext ?_ hhead) hnew) hnew) hnew).setLength hhead
    have hfirst : HeadersOnly A off ([⟨roundUp size, c.allocated⟩,
        ⟨c.length - roundUp size - A.sizeofChunk, false⟩] ++ cs) m
        (A.setNext m (off + A.sizeofChunk + roundUp size)
          (link (off + A.sizeofChunk + c.length) cs)) := HeadersOnly.refl.setNext hnew
    split
    next h0 =>
      -- the pointer back of the chunk behind
      cases cs with
      | nil => exact absurd rfl h0
      | cons d cs =>
        refine hfirst.setPrev (c := d) ?_
        rw [link_cons]
        have hplace : off + A.sizeofChunk + roundUp size + A.sizeofChunk +
            (c.length - roundUp size - A.sizeofChunk) = off + A.sizeofChunk + c.length := by omega
        simp only [List.cons_append, List.nil_append, placed, hplace, List.mem_cons, true_or, or_true]
    next => exact hfirst
  · have heq : A.shrinkChunk m off size = m := by
      have hlen : (A.header m off).length = c.length := by rw [hc]
      unfold Arena.shrinkChunk
      simp only [hlen, sub32_of_le hr hlt, if_neg hbig]
    rw [heq]
    exact .refl

/-! ## Calls -/

theorem headersOnly_malloc {block : Nat} (h : Rep A m (as ++ c :: bs)) (hfit : Fits size c)
    (hff : A.firstFit m size A.limit A.start = A.endOf A.start as)
    (hm : A.malloc m size = .ok (block, m')) :
    HeadersOnly A A.start (as ++ (taken A c size ++ bs)) m m' := by
  have hpos : A.endOf A.start as ≠ 0 := by
    have h1 := le_endOf (A := A) A.start as
    have h2 := A.start_pos
    omega
  unfold malloc at hm
  rw [hff, if_neg hpos] at hm
  cases hm
  have hshrink := headersOnly_shrinkChunk h.seam.2 hfit.2
  -- `taken` is `split` but for the first chunk's mark
  have hplaces : ∀ p ∈ placed A (A.endOf A.start as) (A.split c size ++ bs),
      ∃ d, (p.1, d) ∈ placed A A.start (as ++ (taken A c size ++ bs)) := by
    intro p hp
    rw [placed_append]
    unfold split at hp
    unfold taken
    split at hp
    next hbig =>
      rw [if_pos hbig]
      obtain rfl | hp := List.mem_cons.mp hp
      · exact ⟨_, List.mem_append_right _ mem_placed_head⟩
      · exact ⟨_, List.mem_append_right _ (List.mem_cons_of_mem _ hp)⟩
    next hsmall =>
      rw [if_neg hsmall]
      obtain rfl | hp := List.mem_cons.mp hp
      · exact ⟨_, List.mem_append_right _ mem_placed_head⟩
      · exact ⟨_, List.mem_append_right _ (List.mem_cons_of_mem _ hp)⟩
  obtain ⟨d, hd⟩ : ∃ d, (A.endOf A.start as + A.sizeofChunk, d) ∈
      placed A A.start (as ++ (taken A c size ++ bs)) := by
    unfold taken
    rw [placed_append]
    split <;> exact ⟨_, List.mem_append_right _ mem_placed_head⟩
  exact (hshrink.mono hplaces).setAllocated hd

theorem headersOnly_freeNext (h : Tiles A m prev off (c :: bs)) :
    HeadersOnly A off (c :: bs) m (freeNext A m off) := by
  have hset : Tiles A (A.setAllocated m off 0) prev off (⟨c.length, false⟩ :: bs) :=
    h.setAllocated false
  have hfirst : HeadersOnly A off (c :: bs) m (A.setAllocated m off 0) :=
    HeadersOnly.refl.setAllocated mem_placed_head
  unfold freeNext
  simp only
  split
  next hmerge =>
    cases bs with
    | nil =>
      rw [hset.linked.1] at hmerge
      exact absurd rfl hmerge.1
    | cons d bs =>
      have hnext : (A.header (A.setAllocated m off 0) off).next =
          off + A.sizeofChunk + c.length := by
        rw [hset.linked.1]
        rfl
      rw [hnext]
      refine hfirst.trans ((headersOnly_mergeNext hset).mono fun p hp => ?_)
      obtain rfl | hp := List.mem_cons.mp hp
      · exact ⟨c, mem_placed_head⟩
      · exact ⟨p.2, List.mem_cons_of_mem _ hp⟩
  next => exact hfirst

theorem mem_placed_of_absorbed {b : Nat} {e : Chunk}
    (h : (b, e) ∈ placed A (off + A.sizeofChunk + (absorbed A c bs).1.length) (absorbed A c bs).2) :
    (b, e) ∈ placed A off (c :: bs) := by
  cases bs with
  | nil => cases h
  | cons d bs =>
    simp only [absorbed] at h
    split at h
    next => exact List.mem_cons_of_mem _ h
    next =>
      have hoff : off + A.sizeofChunk + (c.length + d.length + A.sizeofChunk) =
          off + A.sizeofChunk + c.length + A.sizeofChunk + d.length := by omega
      simp only [hoff] at h
      exact List.mem_cons_of_mem _ (List.mem_cons_of_mem _ h)

theorem headersOnly_free (h : Rep A m (as ++ c :: bs))
    (hm : A.free m (A.endOf A.start as + A.sizeofChunk) = .ok m') :
    HeadersOnly A A.start (as ++ c :: bs) m m' := by
  obtain ⟨-, htile⟩ := h.seam
  have hsub : ∀ p ∈ placed A (A.endOf A.start as) (c :: bs),
      ∃ d, (p.1, d) ∈ placed A A.start (as ++ c :: bs) := fun p hp =>
    ⟨p.2, by rw [placed_append]; exact List.mem_append_right _ hp⟩
  have hnext := (headersOnly_freeNext htile).mono hsub
  rw [free_eq] at hm
  obtain rfl | ⟨as, p, rfl⟩ := List.eq_nil_or_concat' as
  · obtain ⟨h1, -⟩ := tiles_freeNext htile
    have hprev : (A.header (freeNext A m A.start) A.start).prev = 0 :=
      congrArg Header.prev h1.linked.1
    simp only [endOf, hprev, ne_eq, not_true, false_and, if_false] at hm
    cases hm
    exact hnext
  · rw [List.append_assoc] at h
    obtain ⟨-, h2⟩ := (rep_freeNext h).seam
    have hp := h2.linked.1
    have hc := h2.linked.2.1
    rw [← endOf_concat] at hc
    simp only [hc, hp] at hm
    split at hm
    next =>
      split at hm
      next => cases hm
      next h0 =>
        cases hm
        -- the previous chunk and the one behind
        have hplace : ∃ e, (A.endOf A.start as + A.sizeofChunk, e) ∈
            placed A A.start (as ++ [p] ++ c :: bs) := by
          refine ⟨p, ?_⟩
          rw [List.append_assoc, placed_append]
          exact List.mem_append_right _ mem_placed_head
        have hbehind : ∃ e, (link (A.endOf A.start (as ++ [p]) + A.sizeofChunk +
            (absorbed A c bs).1.length) (absorbed A c bs).2 + A.sizeofChunk, e) ∈
            placed A A.start (as ++ [p] ++ c :: bs) := by
          cases habs : (absorbed A c bs).2 with
          | nil =>
            rw [habs] at h0
            exact absurd rfl h0
          | cons b bs' =>
            refine ⟨b, ?_⟩
            rw [placed_append, link_cons]
            refine List.mem_append_right _ (mem_placed_of_absorbed ?_)
            rw [habs]
            exact mem_placed_head
        obtain ⟨e, he⟩ := hplace
        obtain ⟨f, hf⟩ := hbehind
        exact ((hnext.setNext he).setPrev hf).setLength he
    next =>
      cases hm
      exact hnext

/-! ## The copy -/

theorem within_copyWords (m : Memory) (dest source n : Nat) :
    Within m (copyWords m dest source n) dest (dest + 8 * n) := by
  induction n generalizing m dest source with
  | zero => exact .refl
  | succ n ih =>
    have hfirst : Within m (m.copy dest source 8) dest (dest + 8 * (n + 1)) :=
      Within.refl.copy (Nat.le_refl _) (by omega)
    exact hfirst.trans ((ih (m.copy dest source 8) (dest + 8) (source + 8)).mono (by omega) (by omega))

/-- The words that were copied, from an area apart -/
theorem copyWords_apply {dest source n i : Nat}
    (hapart : dest + 8 * n ≤ source ∨ source + 8 * n ≤ dest) (hi : i < 8 * n) :
    copyWords m dest source n (dest + i) = m (source + i) := by
  induction n generalizing m dest source i with
  | zero => omega
  | succ n ih =>
    rw [copyWords]
    by_cases hlow : i < 8
    · rw [within_copyWords _ _ _ _ _ (.inl (by omega))]
      exact copy_apply hlow
    · obtain ⟨k, rfl⟩ : ∃ k, i = 8 + k := ⟨i - 8, by omega⟩
      have hrest : Agree m (m.copy dest source 8) (source + 8) (source + 8 + 8 * n) :=
        Agree.refl.copy (by omega)
      rw [← Nat.add_assoc, ih (by omega) (by omega), hrest _ (by omega) (by omega), Nat.add_assoc]

end Solang.Stdlib.Heap
