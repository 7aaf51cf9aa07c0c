import Solang.Stdlib.HeapPayload

/-!
# Runs of the heap

The chunk list is kept by every call that is `Safe`: `__free` is not called on a chunk
behind a free one when only the end of the list, or one free chunk at the end, follows;
`__realloc` does not move a block of which no byte is copied.
-/

namespace Solang.Stdlib.Heap

open Memory Arena

variable {A : Arena} {m m' : Memory} {prev off size block : Nat} {c d : Chunk}
  {as bs cs ds : List Chunk} {s : State}

/-! ## `__realloc` -/

/-- Bytes of a payload are written. -/
theorem rep_payload (h : Rep A m (as ++ c :: bs))
    (hlow : Agree m m' 0 (A.endOf A.start as + A.sizeofChunk))
    (hhigh : Agree m m' (A.endOf A.start as + A.sizeofChunk + c.length) A.limit) :
    Rep A m' (as ++ c :: bs) := by
  obtain ⟨hbefore, htile⟩ := h.seam
  obtain ⟨⟨hc, hbs⟩, hends, hpos, hdvd⟩ := htile
  refine h.edit (hlow.mono (Nat.le_refl _) (by omega)) hbefore ⟨⟨?_, ?_⟩, hends, hpos, hdvd⟩
  · rw [header_frame (hlow.mono (Nat.zero_le _) (Nat.le_refl _)), hc]
  · exact hbs.frame (hhigh.mono (Nat.le_refl _) (by rw [← hends]; rfl))

/-- The test of `__realloc` for a merge with the next chunk -/
def InPlace (A : Arena) (m : Memory) (cur size : Nat) : Prop :=
  let next := (A.header m cur).next
  next ≠ 0 ∧ (A.header m next).allocated = 0 ∧
    size ≤ (((A.header m cur).length + (A.header m next).length) % 2 ^ 32 + A.sizeofChunk) %
      256 ^ A.ptr

theorem inPlace_iff (h : Tiles A m prev off (c :: bs)) :
    InPlace A m off size ↔ ∃ d ds, bs = d :: ds ∧ d.allocated = false ∧
      size ≤ c.length + d.length + A.sizeofChunk := by
  have hb := A.ptr_bound
  have hlen := A.length_lt
  have hlimit : A.limit = A.start + A.sizeofChunk + A.length := rfl
  obtain ⟨⟨hc, hbs⟩, hends, hpos, -⟩ := h
  have hstart := A.start_pos
  unfold InPlace
  cases bs with
  | nil => simp [hc]
  | cons d ds =>
    have hd := hbs.1
    have hle := le_endOf (A := A) (off + A.sizeofChunk + c.length + A.sizeofChunk + d.length) ds
    simp only [endOf] at hends
    have hsum : ((c.length + d.length) % 2 ^ 32 + A.sizeofChunk) % 256 ^ A.ptr =
        c.length + d.length + A.sizeofChunk := by
      rw [Nat.mod_eq_of_lt (a := c.length + d.length) (by omega), Nat.mod_eq_of_lt (by omega)]
    simp only [hc, link_cons, hd, hsum, ne_eq, Bool.toNat_eq_zero, List.cons.injEq]
    constructor
    · rintro ⟨-, hfree, hsize⟩
      exact ⟨d, ds, ⟨rfl, rfl⟩, hfree, hsize⟩
    · rintro ⟨d', ds', ⟨rfl, rfl⟩, hfree, hsize⟩
      exact ⟨by omega, hfree, hsize⟩

/-- What `__realloc` makes of the list when the next chunk is merged -/
theorem inPlace_list (hc : Taken c) (hd : d.allocated = false) (hcd : 8 ∣ c.length)
    (hdd : 8 ∣ d.length) (hlt : c.length + d.length + A.sizeofChunk < 2 ^ 32)
    (hsize : size ≤ c.length + d.length + A.sizeofChunk)
    (hsep : Separated Taken (as ++ c :: d :: bs)) :
    let new := A.split ⟨c.length + d.length + A.sizeofChunk, c.allocated⟩ size
    Separated Taken (as ++ (new ++ bs)) ∧
      Keeps A (as ++ c :: d :: bs) (as ++ (new ++ bs)) (A.endOf A.start as + A.sizeofChunk) ∧
      Live A (as ++ (new ++ bs)) (A.endOf A.start as + A.sizeofChunk) size := by
  intro new
  have hsum : 8 ∣ (⟨c.length + d.length + A.sizeofChunk, c.allocated⟩ : Chunk).length := by
    have hpd := A.dvd_sizeofChunk
    show 8 ∣ c.length + d.length + A.sizeofChunk
    omega
  have hr := roundUp_le hsize hsum
  have hge := le_roundUp hsize hsum hlt
  obtain ⟨has, hdbs⟩ := (Separated.append_taken hc).mp hsep
  obtain ⟨hbs, hhead⟩ := (Separated.cons_gap (by simp [hd])).mp hdbs
  have hextent : A.endOf (A.endOf A.start as) new = A.endOf (A.endOf A.start as) [c, d] := by
    simp only [new, split]
    split
    next hbig =>
      simp only [endOf]
      omega
    next =>
      simp only [endOf]
      omega
  refine ⟨?_, ?_, ?_⟩
  · simp only [new, split]
    split
    next =>
      refine (Separated.append_taken (show Taken ⟨roundUp size, c.allocated⟩ from hc)).mpr ⟨has, ?_⟩
      exact (Separated.cons_gap (by simp)).mpr ⟨hbs, hhead⟩
    next =>
      exact (Separated.append_taken (show Taken ⟨c.length + d.length + A.sizeofChunk, c.allocated⟩
        from hc)).mpr ⟨has, hbs⟩
  · intro b e h he hb
    have h : (b, e) ∈ placed A A.start (as ++ [c, d] ++ bs) := by simpa using h
    rw [← List.append_assoc]
    refine (mem_placed_replace hextent h).resolve_left fun hcd => ?_
    simp only [placed, List.mem_cons, Prod.mk.injEq, hb, false_and, false_or, List.not_mem_nil,
      or_false] at hcd
    rw [hcd.2, hd] at he
    cases he
  · simp only [Live, new, split, placed_append]
    split
    next => exact ⟨_, List.mem_append_right _ List.mem_cons_self, hc, hge⟩
    next => exact ⟨_, List.mem_append_right _ List.mem_cons_self, hc, hsize⟩

/-- What `__realloc` makes of a heap, when the block `old` of `len` bytes becomes `block` -/
structure Reallocated (A : Arena) (m m' : Memory) (cs cs' : List Chunk)
    (old block len size : Nat) : Prop where
  rep : Rep A m' cs'
  separated : Separated Taken cs'
  keeps : Keeps A cs cs' old
  live : Live A cs' block size
  data : ∀ i < min size len, m' (block + i) = m (old + i)
  others : ∀ b c, (b, c) ∈ placed A A.start cs → Taken c → b ≠ old → Agree m m' b (b + c.length)

theorem realloc_inPlace (h : Rep A m (as ++ c :: d :: bs)) (hc : Taken c) (hd : d.allocated = false)
    (hsize : size ≤ c.length + d.length + A.sizeofChunk)
    (hsep : Separated Taken (as ++ c :: d :: bs)) :
    ∃ m' cs, A.realloc m (A.endOf A.start as + A.sizeofChunk) size =
        .ok (A.endOf A.start as + A.sizeofChunk, m') ∧
      Reallocated A m m' (as ++ c :: d :: bs) cs (A.endOf A.start as + A.sizeofChunk)
        (A.endOf A.start as + A.sizeofChunk) c.length size := by
  obtain ⟨hbefore, htile⟩ := h.seam
  have hin : InPlace A m (A.endOf A.start as) size := (inPlace_iff htile).mpr ⟨d, bs, rfl, hd, hsize⟩
  obtain ⟨h1, h2⟩ := htile.mergeNext
  obtain ⟨h3, h4⟩ := h1.shrinkChunk hsize
  have hlt : c.length + d.length + A.sizeofChunk < 2 ^ 32 := h1.length_lt _ List.mem_cons_self
  have hnext : (A.header m (A.endOf A.start as)).next =
      A.endOf A.start as + A.sizeofChunk + c.length := by
    rw [htile.linked.1]
    rfl
  obtain ⟨hsep', hkeep, hlive⟩ := inPlace_list (A := A) hc hd (h.dvd c (by simp))
    (h.dvd d (by simp)) hlt hsize hsep
  -- the headers before the merge, and after the split
  have hmerge : HeadersOnly A A.start (as ++ c :: d :: bs) m _ :=
    (headersOnly_mergeNext htile).mono fun p hp =>
      ⟨p.2, by rw [placed_append]; exact List.mem_append_right _ hp⟩
  have hsplit : HeadersOnly A A.start (as ++ (A.split
      ⟨c.length + d.length + A.sizeofChunk, c.allocated⟩ size ++ bs)) _ _ :=
    (headersOnly_shrinkChunk h1 hsize).mono fun p hp =>
      ⟨p.2, by rw [placed_append]; exact List.mem_append_right _ hp⟩
  refine ⟨A.shrinkChunk (A.mergeNext m (A.endOf A.start as)
    (A.endOf A.start as + A.sizeofChunk + c.length)) (A.endOf A.start as) size, _, ?_, ?_, hsep',
    hkeep, hlive, ?_, ?_⟩
  · unfold realloc
    rw [Nat.add_sub_cancel, ← hnext]
    exact if_pos hin
  · unfold split at h3 ⊢
    split at h3
    next hbig =>
      rw [if_pos hbig]
      exact h.edit (h2.trans h4) hbefore h3
    next hsmall =>
      rw [if_neg hsmall]
      exact h.edit (h2.trans h4) hbefore h3
  · intro i hi
    obtain ⟨e, he, -, hle⟩ := hlive
    have hold : (A.endOf A.start as + A.sizeofChunk, c) ∈
        placed A A.start (as ++ c :: d :: bs) := by
      rw [placed_append]
      exact List.mem_append_right _ mem_placed_head
    rw [hsplit.payload he _ (by omega) (by omega), hmerge.payload hold _ (by omega) (by omega)]
  · intro b e he hea hb
    exact (hmerge.payload he).trans (hsplit.payload (hkeep b e he hea hb))

/-- The block moves: a new one, a copy of this many words, and `__free` of the old one -/
theorem realloc_move (h : ¬ InPlace A m off size) (hlen : (A.header m off).length = c.length) :
    A.realloc m (off + A.sizeofChunk) size = (A.malloc m size).bind fun r =>
      (A.memcpy8 r.2 r.1 (off + A.sizeofChunk) ((min size c.length + 7) / 8)).bind fun m =>
        (A.free m (off + A.sizeofChunk)).bind fun m => .ok (r.1, m) := by
  have hmin : (if size < c.length then size else c.length) = min size c.length := by
    split <;> omega
  unfold realloc
  rw [Nat.add_sub_cancel]
  simp only [hlen, hmin]
  rw [← hlen]
  exact if_neg h

/-! ## Safe calls -/

/-- The previous chunk is free. -/
def AfterFree (A : Arena) (m : Memory) (cur : Nat) : Prop :=
  (A.header m cur).prev ≠ 0 ∧ (A.header m (A.header m cur).prev).allocated = 0

/-- Nothing follows the chunk, or only a free chunk at the end. -/
def Trailing (A : Arena) (m : Memory) (cur : Nat) : Prop :=
  let next := (A.header m cur).next
  next = 0 ∨ ((A.header m next).allocated = 0 ∧ (A.header m next).next = 0)

/-- `__malloc` takes the previous chunk and leaves nothing of it. -/
def TakesPrevious (A : Arena) (m : Memory) (cur size : Nat) : Prop :=
  let prev := (A.header m cur).prev
  A.firstFit m size A.limit A.start = prev ∧
    (A.header m prev).length - roundUp size < 8 + A.sizeofChunk

/-- The call does not get to where the heap goes wrong. -/
def Safe (A : Arena) (m : Memory) : Call → Prop
  | .malloc _ => True
  | .free block =>
    let cur := block - A.sizeofChunk
    ¬ (AfterFree A m cur ∧ Trailing A m cur)
  | .realloc block size =>
    let cur := block - A.sizeofChunk
    InPlace A m cur size ∨ (0 < size ∧ 0 < (A.header m cur).length ∧
      (¬ (AfterFree A m cur ∧ Trailing A m cur) ∨ TakesPrevious A m cur size))

theorem trailing_of_absorbed (h : Tiles A m prev off (c :: bs)) (hb : (absorbed A c bs).2 = []) :
    Trailing A m off := by
  unfold Trailing
  obtain ⟨⟨hc, hbs⟩, -, -, -⟩ := h
  cases bs with
  | nil =>
    left
    rw [hc]
    rfl
  | cons d ds =>
    simp only [absorbed] at hb
    cases hd : d.allocated with
    | true => simp [hd] at hb
    | false =>
      rw [hd, if_neg (by simp)] at hb
      subst hb
      right
      rw [hc, link_cons, hbs.1]
      exact ⟨by rw [hd]; rfl, rfl⟩

theorem afterFree_of_last {p : Chunk} (h : Rep A m (as ++ p :: c :: bs)) (hp : p.allocated = false) :
    AfterFree A m (A.endOf A.start (as ++ [p])) := by
  obtain ⟨-, htile⟩ := h.seam
  have hpos : A.endOf A.start as ≠ 0 := by
    have h1 := le_endOf (A := A) A.start as
    have h2 := A.start_pos
    omega
  unfold AfterFree
  rw [endOf_concat, htile.linked.2.1, htile.linked.1]
  exact ⟨hpos, by rw [hp]; rfl⟩

theorem isSome_freed_of_last
    (h : ∀ p ∈ as.getLast?, p.allocated = true ∨ (absorbed A c bs).2 ≠ []) :
    (freed A as c bs).isSome := by
  unfold freed
  split
  next => rfl
  next p hp =>
    obtain hp | hb := h p hp
    · rw [if_pos hp]
      rfl
    · rw [if_neg hb]
      split <;> rfl

/-- `__free` goes wrong only behind a free chunk, at the end. -/
theorem isSome_freed (h : Rep A m (as ++ c :: bs))
    (hsafe : ¬ (AfterFree A m (A.endOf A.start as) ∧ Trailing A m (A.endOf A.start as))) :
    (freed A as c bs).isSome := by
  obtain ⟨-, htile⟩ := h.seam
  refine isSome_freed_of_last fun p hp => ?_
  by_cases hb : (absorbed A c bs).2 = []
  · left
    obtain ⟨as, rfl⟩ := List.getLast?_eq_some_iff.mp hp
    rw [← Bool.not_eq_false]
    intro hfree
    refine hsafe ⟨?_, trailing_of_absorbed htile hb⟩
    rw [List.append_assoc] at h
    exact afterFree_of_last h hfree
  · exact .inr hb

section Move

variable {e : Chunk} {xs ys : List Chunk}

theorem endOf_taken (he : 8 ∣ e.length) (hfit : Fits size e) (off : Nat) :
    A.endOf off (taken A e size) = off + A.sizeofChunk + e.length := by
  have hr := roundUp_le hfit.2 he
  unfold taken
  split
  next =>
    simp only [endOf]
    omega
  next => rfl

theorem endOf_lt (off : Nat) (xs ys : List Chunk) (e : Chunk) :
    A.endOf off xs < A.endOf off (xs ++ e :: ys) := by
  have hs := A.sizeofChunk_eq
  have hle := le_endOf (A := A) (A.endOf off xs + A.sizeofChunk + e.length) ys
  rw [endOf_append]
  simp only [endOf]
  omega

/-- The block that moves, in the list that `__malloc` leaves -/
theorem move_split (h : Rep A m (as ++ c :: bs)) (hc : c.allocated = true)
    (heq : as ++ c :: bs = xs ++ e :: ys) (hfit : Fits size e)
    (hff : A.firstFit m size A.limit A.start = A.endOf A.start xs)
    (hmove : ¬ InPlace A m (A.endOf A.start as) size)
    (hsafe : ¬ (AfterFree A m (A.endOf A.start as) ∧ Trailing A m (A.endOf A.start as)) ∨
      TakesPrevious A m (A.endOf A.start as) size) :
    ∃ as' bs', xs ++ (taken A e size ++ ys) = as' ++ c :: bs' ∧
      A.endOf A.start as' = A.endOf A.start as ∧ A.endOf A.start xs ≠ A.endOf A.start as ∧
      (freed A as' c bs').isSome := by
  have hed : 8 ∣ e.length := h.dvd e (by rw [heq]; simp)
  obtain ⟨-, htile⟩ := h.seam
  have hext := endOf_taken (A := A) hed hfit
  have hne : taken A e size ≠ [] := by
    unfold taken
    split <;> simp
  obtain ⟨zs, rfl, hzs⟩ | ⟨zs, rfl, hzs⟩ := List.append_eq_append_iff.mp heq
  · -- the new block is behind the old one, and not next to it
    cases zs with
    | nil =>
      cases hzs
      cases hc.symm.trans hfit.1
    | cons z zs =>
      obtain ⟨rfl, rfl⟩ : c = z ∧ bs = zs ++ e :: ys := by simpa using hzs
      refine ⟨as, zs ++ (taken A e size ++ ys), by simp, rfl, (endOf_lt _ _ _ _).ne', ?_⟩
      cases zs with
      | nil =>
        refine absurd ((inPlace_iff htile).mpr ⟨e, ys, rfl, hfit.1, ?_⟩) hmove
        have := hfit.2
        omega
      | cons z zs =>
        have hrest : (absorbed A c (z :: zs ++ (taken A e size ++ ys))).2 ≠ [] := by
          simp only [List.cons_append, absorbed]
          split <;> simp [hne]
        exact isSome_freed_of_last fun _ _ => .inr hrest
  · -- it is before the old one
    cases zs with
    | nil =>
      cases hzs
      cases hc.symm.trans hfit.1
    | cons z zs =>
      obtain ⟨rfl, rfl⟩ : e = z ∧ ys = zs ++ c :: bs := by simpa using hzs
      refine ⟨xs ++ (taken A e size ++ zs), bs, by simp, ?_, (endOf_lt _ _ _ _).ne, ?_⟩
      · simp only [endOf_append, hext, endOf]
      · refine isSome_freed_of_last fun p hp => ?_
        by_cases hb : (absorbed A c bs).2 = []
        · left
          have htrail := trailing_of_absorbed htile hb
          have hprev : (A.header m (A.endOf A.start (xs ++ e :: zs))).prev =
              A.prevOf 0 A.start (xs ++ e :: zs) := by rw [htile.linked.1]
          obtain rfl | ⟨zs, q, rfl⟩ := List.eq_nil_or_concat' zs
          · -- the previous chunk itself, of which nothing is left
            rw [List.append_assoc] at h
            have hwhole := (hsafe.resolve_left fun hs => hs ⟨afterFree_of_last h hfit.1, htrail⟩).2
            obtain ⟨-, he⟩ := h.seam
            rw [hprev, prevOf_append, he.linked.1] at hwhole
            have htaken : taken A e size = [⟨e.length, true⟩] := if_neg (by simpa using hwhole)
            rw [htaken] at hp
            obtain rfl : ⟨e.length, true⟩ = p := by simpa using hp
            rfl
          · obtain rfl : q = p := by simpa using hp
            rw [← Bool.not_eq_false]
            intro hfree
            rw [← List.cons_append, ← List.append_assoc] at h hsafe htrail hprev
            have haf : AfterFree A m (A.endOf A.start (xs ++ e :: zs ++ [q])) := by
              rw [List.append_assoc _ [q]] at h
              exact afterFree_of_last h hfree
            have hprevious := (hsafe.resolve_left fun hs => hs ⟨haf, htrail⟩).1
            rw [hprev, prevOf_append, hff] at hprevious
            exact absurd hprevious (endOf_lt _ _ _ _).ne
        · exact .inr hb

/-- The new block -/
theorem taken_cons (hd : 8 ∣ e.length) (hlt : e.length < 2 ^ 32) (hfit : Fits size e) :
    ∃ f fs, taken A e size = f :: fs ∧ size ≤ f.length ∧ 8 ∣ f.length := by
  unfold taken
  split
  next => exact ⟨_, _, rfl, le_roundUp hfit.2 hd hlt, dvd_roundUp size⟩
  next => exact ⟨_, _, rfl, hfit.2, hd⟩

theorem payload_le_limit (h : Tiles A m prev off (c :: bs)) :
    off + A.sizeofChunk + c.length ≤ A.limit := by
  have hends := h.ends
  have hle := le_endOf (A := A) (off + A.sizeofChunk + c.length) bs
  simp only [endOf] at hends
  omega

theorem words_le {n len : Nat} (h : n ≤ len) (hd : 8 ∣ len) : 8 * ((n + 7) / 8) ≤ len := by omega

/-- A copy into a payload -/
theorem memcpy8_spec {f : Chunk} {n : Nat} (source : Nat) (h : Rep A m (xs ++ f :: ys)) (hn : 0 < n)
    (hdest : 8 * n ≤ f.length) (hsource : source + 8 * n ≤ A.limit) :
    A.memcpy8 m (A.endOf A.start xs + A.sizeofChunk) source n =
        .ok (copyWords m (A.endOf A.start xs + A.sizeofChunk) source n) ∧
      Rep A (copyWords m (A.endOf A.start xs + A.sizeofChunk) source n) (xs ++ f :: ys) := by
  have hlimit := payload_le_limit h.seam.2
  constructor
  · have hwords : (if n = 0 then 2 ^ 32 else n) = n := if_neg (by omega)
    simp only [memcpy8, hwords]
    exact if_pos ⟨by omega, hsource⟩
  · have hwithin := within_copyWords m (A.endOf A.start xs + A.sizeofChunk) source n
    exact rep_payload h (hwithin.agree (.inl (Nat.le_refl _))) (hwithin.agree (.inr (by omega)))

/-- The block moves. -/
theorem realloc_moved (h : Rep A m (as ++ c :: bs)) (hc : c.allocated = true)
    (hsep : Separated Taken (as ++ c :: bs)) (hmove : ¬ InPlace A m (A.endOf A.start as) size)
    (hsize : 0 < size) (hlen : 0 < c.length)
    (hsafe : ¬ (AfterFree A m (A.endOf A.start as) ∧ Trailing A m (A.endOf A.start as)) ∨
      TakesPrevious A m (A.endOf A.start as) size) :
    A.realloc m (A.endOf A.start as + A.sizeofChunk) size = .error .outOfMemory ∨
      ∃ block m' cs, A.realloc m (A.endOf A.start as + A.sizeofChunk) size = .ok (block, m') ∧
        Reallocated A m m' (as ++ c :: bs) cs (A.endOf A.start as + A.sizeofChunk) block c.length
          size := by
  obtain ⟨-, htile⟩ := h.seam
  have hcd : 8 ∣ c.length := h.dvd c (by simp)
  rw [realloc_move hmove (by rw [htile.linked.1])]
  obtain hoom | ⟨xs, e, ys, m1, heq, hfit, hff, hmalloc, hrep1⟩ := malloc_spec size h
  · left
    rw [hoom]
    rfl
  · right
    have hed : 8 ∣ e.length := h.dvd e (by rw [heq]; simp)
    have helt : e.length < 2 ^ 32 := h.length_lt e (by rw [heq]; simp)
    obtain ⟨as', bs', hsplit, hend, hne, hsome⟩ := move_split h hc heq hfit hff hmove hsafe
    rw [heq] at hsep h
    obtain ⟨hsep1, hkeep1, hlive1⟩ := malloc_list (A := A) hed helt hfit hsep
      (A.endOf A.start as + A.sizeofChunk)
    have hheaders1 := headersOnly_malloc h hfit hff hmalloc
    -- the copy goes into the new block
    obtain ⟨f, fs, htaken, hf⟩ := taken_cons (A := A) hed helt hfit
    have hsource := payload_le_limit htile
    have hwords : 8 * ((min size c.length + 7) / 8) ≤ c.length := words_le (by omega) hcd
    have hwords' : 8 * ((min size c.length + 7) / 8) ≤ f.length := words_le (by omega) hf.2
    obtain ⟨hcopy, hcopied⟩ := memcpy8_spec (A.endOf A.start as + A.sizeofChunk)
      (n := (min size c.length + 7) / 8) (by rwa [htaken] at hrep1) (by omega) hwords' (by omega)
    -- both blocks are in the list between `__malloc` and `__free`
    have hnew : (A.endOf A.start xs + A.sizeofChunk, f) ∈
        placed A A.start (xs ++ (taken A e size ++ ys)) := by
      rw [htaken, placed_append]
      exact List.mem_append_right _ mem_placed_head
    have hold : (A.endOf A.start as + A.sizeofChunk, c) ∈
        placed A A.start (xs ++ (taken A e size ++ ys)) := by
      rw [hsplit, placed_append, hend]
      exact List.mem_append_right _ mem_placed_head
    have hrep2 : Rep A (copyWords m1 (A.endOf A.start xs + A.sizeofChunk)
        (A.endOf A.start as + A.sizeofChunk) ((min size c.length + 7) / 8)) (as' ++ c :: bs') := by
      rw [← hsplit, htaken]
      exact hcopied
    have hfree := free_spec hrep2
    obtain ⟨cs2, hcs2⟩ := Option.isSome_iff_exists.mp hsome
    rw [hcs2, hend] at hfree
    obtain ⟨m3, hm3, hrep3⟩ := hfree
    have hheaders3 := headersOnly_free hrep2 (by rwa [hend])
    rw [← hsplit] at hheaders3
    refine ⟨A.endOf A.start xs + A.sizeofChunk, m3, cs2, ?_, hrep3, ?_, ?_, ?_, ?_, ?_⟩
    · rw [hmalloc]
      show (A.memcpy8 m1 _ _ _).bind _ = _
      rw [hcopy]
      show (A.free _ _).bind _ = _
      rw [hm3]
      rfl
    · rw [hsplit] at hsep1
      exact separated_freed hsep1 hcs2
    · rw [heq]
      intro b f hf hfa hb
      have h1 := hkeep1 b f hf hfa hb
      rw [hsplit] at h1
      exact keeps_freed hcs2 b f h1 hfa (by rwa [hend])
    · rw [hsplit] at hlive1
      exact (keeps_freed hcs2).live hlive1 (by omega)
    · intro i hi
      have hapart := placed_apart hnew hold
      rw [hheaders3.payload hnew _ (by omega) (by omega), copyWords_apply (by omega) (by omega),
        hheaders1.payload hold _ (by omega) (by omega)]
    · intro b g hg hga hb
      rw [heq] at hg
      have hg1 := hkeep1 b g hg hga hb
      have hcopy' : Agree m1 (copyWords m1 (A.endOf A.start xs + A.sizeofChunk)
          (A.endOf A.start as + A.sizeofChunk) ((min size c.length + 7) / 8)) b (b + g.length) := by
        refine (within_copyWords _ _ _ _).agree ?_
        obtain ⟨rfl, -⟩ | h1 | h1 := placed_apart hnew hg1
        · -- the chunk there was free
          have he : (A.endOf A.start xs + A.sizeofChunk, e) ∈ placed A A.start (xs ++ e :: ys) := by
            rw [placed_append]
            exact List.mem_append_right _ mem_placed_head
          have hs := A.sizeofChunk_eq
          obtain ⟨-, rfl⟩ | h1 | h1 := placed_apart hg he
          · cases hga.symm.trans hfit.1
          · omega
          · omega
        · exact .inr (by omega)
        · exact .inl (by omega)
      exact ((hheaders1.payload hg1).trans hcopy').trans (hheaders3.payload hg1)

end Move

/-! ## The invariant -/

/-- The memory is one list of chunks from end to end: linked both ways, of lengths that are
multiples of eight, without two free ones side by side. The live blocks are chunks that are taken
and long enough. -/
def Inv (A : Arena) (s : State) : Prop :=
  ∃ cs, Rep A s.mem cs ∧ Separated Taken cs ∧ ∀ p ∈ s.live, Live A cs p.1 p.2

theorem inv_init (m : Memory) : Inv A (State.init A m) := by
  have hz := A.zero_lt
  refine ⟨[⟨A.length, false⟩], ⟨⟨?_, trivial⟩, rfl, Nat.le_refl _, ?_⟩, .singleton _, nofun⟩
  · unfold State.init initHeap
    rw [header_setLength A.length_lt, header_setAllocated (by decide), header_setNext hz,
      header_setPrev hz]
    rfl
  · simpa using A.length_dvd

theorem live_drop {cs' : List Chunk} {live : List (Nat × Nat)}
    (h : ∀ p ∈ live, Live A cs p.1 p.2) (hk : Keeps A cs cs' block) :
    ∀ p ∈ State.drop live block, Live A cs' p.1 p.2 := by
  intro p hp
  obtain ⟨hp, hne⟩ := List.mem_filter.mp hp
  exact hk.live (h p hp) (by simpa using hne)

/-- The chunk of a live block -/
theorem exists_of_live (h : ∀ p ∈ s.live, Live A cs p.1 p.2) (hb : block ∈ s.live.map (·.1)) :
    ∃ as c bs, cs = as ++ c :: bs ∧ c.allocated = true ∧
      block = A.endOf A.start as + A.sizeofChunk := by
  obtain ⟨p, hp, rfl⟩ := List.mem_map.mp hb
  obtain ⟨c, hc, hca, -⟩ := h p hp
  obtain ⟨as, bs, rfl, hb⟩ := exists_of_mem_placed hc
  exact ⟨as, c, bs, rfl, hca, hb⟩

/-- A call that is safe runs out of memory or keeps the list. -/
theorem inv_step {call : Call} (h : Inv A s) (hv : s.Valid call)
    (hsafe : Safe A s.mem call) :
    s.step A call = .error .outOfMemory ∨ ∃ s', s.step A call = .ok s' ∧ Inv A s' := by
  obtain ⟨cs, hrep, hsep, hlive⟩ := h
  cases call with
  | malloc size =>
    simp only [State.step]
    obtain hoom | ⟨as, c, bs, m', rfl, hfit, -, hm, hrep'⟩ := malloc_spec size hrep
    · left
      rw [hoom]
      rfl
    · right
      have hlist := malloc_list (A := A) (hrep.dvd c (by simp)) (hrep.length_lt c (by simp)) hfit hsep
      rw [hm]
      refine ⟨_, rfl, _, hrep', (hlist 0).1, ?_⟩
      intro p hp
      obtain rfl | hp := List.mem_cons.mp hp
      · exact (hlist 0).2.2
      · exact (hlist (p.1 + 1)).2.1.live (hlive p hp) (by omega)
  | free block =>
    obtain ⟨as, c, bs, rfl, hca, rfl⟩ := exists_of_live hlive hv
    simp only [Safe, Nat.add_sub_cancel] at hsafe
    have hspec := free_spec hrep
    obtain ⟨cs', hcs'⟩ := Option.isSome_iff_exists.mp (isSome_freed hrep hsafe)
    rw [hcs'] at hspec
    obtain ⟨m', hm, hrep'⟩ := hspec
    right
    simp only [State.step]
    rw [hm]
    exact ⟨_, rfl, _, hrep', separated_freed hsep hcs', live_drop hlive (keeps_freed hcs')⟩
  | realloc block size =>
    obtain ⟨as, c, bs, rfl, hca, rfl⟩ := exists_of_live hlive hv.1
    simp only [Safe, Nat.add_sub_cancel] at hsafe
    have htile := hrep.seam.2
    simp only [State.step]
    by_cases hin : InPlace A s.mem (A.endOf A.start as) size
    · right
      obtain ⟨d, ds, rfl, hd, hsize⟩ := (inPlace_iff htile).mp hin
      obtain ⟨m', cs, hm, hnew⟩ := realloc_inPlace hrep hca hd hsize hsep
      rw [hm]
      refine ⟨_, rfl, cs, hnew.rep, hnew.separated, ?_⟩
      intro p hp
      obtain rfl | hp := List.mem_cons.mp hp
      · exact hnew.live
      · exact live_drop hlive hnew.keeps p hp
    · obtain ⟨h0, hlen, hsafe⟩ := hsafe.resolve_left hin
      rw [htile.linked.1] at hlen
      obtain hoom | ⟨block, m', cs, hm, hnew⟩ := realloc_moved hrep hca hsep hin h0 hlen hsafe
      · left
        rw [hoom]
        rfl
      · right
        rw [hm]
        refine ⟨_, rfl, cs, hnew.rep, hnew.separated, ?_⟩
        intro p hp
        obtain rfl | hp := List.mem_cons.mp hp
        · exact hnew.live
        · exact live_drop hlive hnew.keeps p hp

/-- The calls of the run are safe. -/
def SafeRun (A : Arena) (s : State) : List Call → Prop
  | [] => True
  | call :: calls => Safe A s.mem call ∧
    match s.step A call with
    | .ok s => SafeRun A s calls
    | .error _ => True

theorem inv_run {calls : List Call} (h : Inv A s) (hvalid : s.ValidRun A calls)
    (hsafe : SafeRun A s calls) :
    s.run A calls = .error .outOfMemory ∨ ∃ s', s.run A calls = .ok s' ∧ Inv A s' := by
  induction calls generalizing s with
  | nil => exact .inr ⟨s, rfl, h⟩
  | cons call calls ih =>
    obtain ⟨hv, hvrest⟩ := hvalid
    obtain ⟨hs, hrest⟩ := hsafe
    simp only [State.run]
    obtain hoom | ⟨s', hs', hinv⟩ := inv_step h hv hs
    · left
      rw [hoom]
      rfl
    · rw [hs'] at hvrest hrest ⊢
      exact ih hinv hvrest hrest

/-- Every run of safe calls from `__init_heap` that does not run out of memory goes through, and
keeps the chunk list. -/
theorem run_keeps_heap (A : Arena) (m : Memory) (calls : List Call)
    (hvalid : (State.init A m).ValidRun A calls) (hsafe : SafeRun A (State.init A m) calls) :
    (State.init A m).run A calls = .error .outOfMemory ∨
      ∃ s, (State.init A m).run A calls = .ok s ∧ Inv A s :=
  inv_run (inv_init m) hvalid hsafe

/-! ## Samples -/

instance (m : Memory) (cur : Nat) : Decidable (AfterFree A m cur) :=
  inferInstanceAs (Decidable (_ ∧ _))

instance (m : Memory) (cur : Nat) : Decidable (Trailing A m cur) :=
  inferInstanceAs (Decidable (_ ∨ _))

instance (m : Memory) (cur size : Nat) : Decidable (InPlace A m cur size) :=
  inferInstanceAs (Decidable (_ ∧ _))

instance (m : Memory) (cur size : Nat) : Decidable (TakesPrevious A m cur size) :=
  inferInstanceAs (Decidable (_ ∧ _))

instance (m : Memory) (call : Call) : Decidable (Safe A m call) :=
  match call with
  | .malloc _ => .isTrue trivial
  | .free _ => inferInstanceAs (Decidable (¬ (_ ∧ _)))
  | .realloc _ _ => inferInstanceAs (Decidable (_ ∨ _))

instance decidableSafeRun (s : State) : (calls : List Call) → Decidable (SafeRun A s calls)
  | [] => .isTrue trivial
  | call :: calls =>
    have : Decidable (match s.step A call with
      | .ok s => SafeRun A s calls
      | .error _ => True) :=
      match s.step A call with
      | .ok s => decidableSafeRun s calls
      | .error _ => .isTrue trivial
    inferInstanceAs (Decidable (_ ∧ _))

namespace Sample

/-- The payload of the first chunk -/
def first : Nat := solana.start + solana.sizeofChunk

/-- The payload of the chunk behind a first one of eight bytes -/
def second : Nat := first + 8 + solana.sizeofChunk

/-- The second block is freed first, and the one that is left grows in place. -/
def growing : List Call := [.malloc 8, .malloc 20, .free second, .realloc first 100, .free first]

theorem run_keeps_heap_growing :
    (State.init solana fun _ => 0).ValidRun solana growing ∧
      SafeRun solana (State.init solana fun _ => 0) growing ∧
      ((State.init solana fun _ => 0).run solana growing = .error .outOfMemory ∨
        ∃ s, (State.init solana fun _ => 0).run solana growing = .ok s ∧ Inv solana s) :=
  ⟨by decide +kernel, by decide +kernel,
    run_keeps_heap solana (fun _ => 0) growing (by decide +kernel) (by decide +kernel)⟩

def fault : Except Fault State → Option Fault
  | .error f => some f
  | .ok _ => none

/-- Two blocks are freed in the order in which they were made. -/
def inOrder : List Call := [.malloc 8, .malloc 8, .free first, .free second]

/-- The second `__free` writes the header of a next chunk that is not there. -/
theorem nullHeader_inOrder :
    (State.init solana fun _ => 0).ValidRun solana inOrder ∧
      ¬ ((State.init solana fun _ => 0).run solana inOrder = .error .outOfMemory ∨
        ∃ s, (State.init solana fun _ => 0).run solana inOrder = .ok s ∧ Inv solana s) := by
  have hfault : fault ((State.init solana fun _ => 0).run solana inOrder) = some .nullHeader := by
    decide +kernel
  refine ⟨by decide +kernel, ?_⟩
  rintro (h | ⟨s, h, -⟩)
  · rw [h] at hfault
    cases hfault
  · rw [h] at hfault
    cases hfault

end Sample

end Solang.Stdlib.Heap
