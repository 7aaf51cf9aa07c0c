import Solang.Stdlib.HeapList

/-!
# What the calls of the heap do to the chunk list
-/

namespace Solang.Stdlib.Heap

open Memory Arena

variable {A : Arena} {m m' : Memory} {prev off size : Nat} {c d : Chunk}
  {as bs cs ds : List Chunk}

/-! ## Places -/

/-- The chunks with the addresses of their payloads -/
def placed (A : Arena) (off : Nat) : List Chunk → List (Nat × Chunk)
  | [] => []
  | c :: cs => (off + A.sizeofChunk, c) :: placed A (off + A.sizeofChunk + c.length) cs

theorem placed_append (off : Nat) (as bs : List Chunk) :
    placed A off (as ++ bs) = placed A off as ++ placed A (A.endOf off as) bs := by
  induction as generalizing off with
  | nil => rfl
  | cons a as ih => simp only [List.cons_append, placed, endOf, ih]

theorem exists_of_mem_placed {b : Nat} (h : (b, c) ∈ placed A off cs) :
    ∃ as bs, cs = as ++ c :: bs ∧ b = A.endOf off as + A.sizeofChunk := by
  induction cs generalizing off with
  | nil => cases h
  | cons a cs ih =>
    obtain h | h := List.mem_cons.mp h
    · cases h
      exact ⟨[], cs, rfl, rfl⟩
    · obtain ⟨as, bs, rfl, rfl⟩ := ih h
      exact ⟨a :: as, bs, rfl, rfl⟩

/-- The chunks before and behind some that are replaced by others of the same extent -/
theorem mem_placed_replace {b : Nat} {xs ys : List Chunk}
    (hend : A.endOf (A.endOf off as) ys = A.endOf (A.endOf off as) xs)
    (h : (b, c) ∈ placed A off (as ++ xs ++ bs)) :
    (b, c) ∈ placed A (A.endOf off as) xs ∨ (b, c) ∈ placed A off (as ++ ys ++ bs) := by
  simp only [placed_append, endOf_append, List.mem_append, hend] at h ⊢
  tauto

/-! ## The whole list -/

/-- The memory holds these chunks. -/
abbrev Rep (A : Arena) (m : Memory) (cs : List Chunk) : Prop := Tiles A m 0 A.start cs

theorem length_mul_le (off : Nat) (cs : List Chunk) : off + 8 * cs.length ≤ A.endOf off cs := by
  induction cs generalizing off with
  | nil => simp [endOf]
  | cons c cs ih =>
    have hs := A.sizeofChunk_eq
    have h := ih (off + A.sizeofChunk + c.length)
    simp only [endOf, List.length_cons]
    omega

/-! ## `__malloc` -/

/-- A chunk that the search stops at -/
def Fits (size : Nat) (c : Chunk) : Prop := c.allocated = false ∧ size ≤ c.length

theorem firstFit_spec {fuel : Nat} (size : Nat) (h : A.Linked m prev off cs) (hpos : 0 < off) (hne : cs ≠ [])
    (hfuel : cs.length ≤ fuel) :
    A.firstFit m size fuel off = 0 ∨ ∃ as c bs, cs = as ++ c :: bs ∧
      Fits size c ∧ A.firstFit m size fuel off = A.endOf off as := by
  induction cs generalizing prev off fuel with
  | nil => exact absurd rfl hne
  | cons c cs ih =>
    obtain ⟨fuel, rfl⟩ : ∃ k, fuel = k + 1 := ⟨fuel - 1, by simp at hfuel; omega⟩
    have hc := h.1
    simp only [firstFit, hc]
    rw [if_neg (by omega)]
    split
    next hbusy =>
      cases cs with
      | nil =>
        left
        cases fuel <;> simp [firstFit]
      | cons d cs =>
        obtain h0 | ⟨as, e, bs, heq, hfit, hff⟩ := ih h.2 (by omega) (by simp) (by simpa using hfuel)
        · exact .inl h0
        · right
          exact ⟨c :: as, e, bs, by rw [heq]; rfl, hfit, hff⟩
    next hfree =>
      right
      refine ⟨[], c, cs, rfl, ⟨?_, by omega⟩, rfl⟩
      cases hb : c.allocated with
      | false => rfl
      | true => simp [hb] at hfree

/-- The chunk that `__malloc` takes, and what it leaves of it -/
def taken (A : Arena) (c : Chunk) (size : Nat) : List Chunk :=
  if 8 + A.sizeofChunk ≤ c.length - roundUp size then
    [⟨roundUp size, true⟩, ⟨c.length - roundUp size - A.sizeofChunk, false⟩]
  else [⟨c.length, true⟩]

theorem malloc_spec (size : Nat) (h : Rep A m cs) :
    A.malloc m size = .error .outOfMemory ∨ ∃ as c bs m', cs = as ++ c :: bs ∧ Fits size c ∧
      A.firstFit m size A.limit A.start = A.endOf A.start as ∧
      A.malloc m size = .ok (A.endOf A.start as + A.sizeofChunk, m') ∧
      Rep A m' (as ++ (taken A c size ++ bs)) := by
  have hne : cs ≠ [] := by
    rintro rfl
    have hends := h.ends
    have hs := A.sizeofChunk_eq
    simp only [endOf, limit] at hends
    omega
  have hfuel : cs.length ≤ A.limit := by
    have hle := length_mul_le (A := A) A.start cs
    rw [h.ends] at hle
    omega
  unfold malloc
  obtain h0 | ⟨as, c, bs, rfl, hfit, hff⟩ := firstFit_spec size h.linked A.start_pos hne hfuel
  · left
    rw [h0]
    rfl
  · right
    obtain ⟨hbefore, htile⟩ := h.seam
    have hpos : A.endOf A.start as ≠ 0 := by
      have h1 := le_endOf (A := A) A.start as
      have h2 := A.start_pos
      omega
    obtain ⟨hshrink, hagree⟩ := htile.shrinkChunk hfit.2
    refine ⟨as, c, bs, _, rfl, hfit, hff, by rw [hff, if_neg hpos], ?_⟩
    have hout : Agree m (A.setAllocated (A.shrinkChunk m (A.endOf A.start as) size)
        (A.endOf A.start as) 1) 0 (A.endOf A.start as) :=
      agree_setAllocated hagree (.inr (Nat.le_refl _))
    unfold split at hshrink
    unfold taken
    split at hshrink
    next hbig =>
      rw [if_pos hbig]
      exact h.edit hout hbefore (hshrink.setAllocated true)
    next hsmall =>
      rw [if_neg hsmall]
      exact h.edit hout hbefore (hshrink.setAllocated true)

/-! ## `__free` -/

/-- The chunk with the next one, if that is free, and the chunks behind it -/
def absorbed (A : Arena) (c : Chunk) : List Chunk → Chunk × List Chunk
  | [] => (⟨c.length, false⟩, [])
  | d :: bs =>
    if d.allocated then (⟨c.length, false⟩, d :: bs)
    else (⟨c.length + d.length + A.sizeofChunk, false⟩, bs)

/-- `__free` before it looks at the previous chunk -/
def freeNext (A : Arena) (m : Memory) (cur : Nat) : Memory :=
  let m := A.setAllocated m cur 0
  let next := (A.header m cur).next
  if next ≠ 0 ∧ (A.header m next).allocated = 0 then A.mergeNext m cur next else m

theorem tiles_freeNext (h : Tiles A m prev off (c :: bs)) :
    Tiles A (freeNext A m off) prev off ((absorbed A c bs).1 :: (absorbed A c bs).2) ∧
      Agree m (freeNext A m off) 0 off := by
  have hset : Tiles A (A.setAllocated m off 0) prev off (⟨c.length, false⟩ :: bs) :=
    h.setAllocated false
  have hagree : Agree m (A.setAllocated m off 0) 0 off :=
    agree_setAllocated .refl (.inr (Nat.le_refl _))
  have hpos := h.pos
  have hstart := A.start_pos
  unfold freeNext
  cases bs with
  | nil =>
    have hc : (A.header (A.setAllocated m off 0) off).next = 0 := by
      rw [hset.linked.1]
      rfl
    simp only [hc, ne_eq, not_true, false_and, if_false]
    exact ⟨hset, hagree⟩
  | cons d bs =>
    have hc : (A.header (A.setAllocated m off 0) off).next = off + A.sizeofChunk + c.length := by
      rw [hset.linked.1]
      rfl
    have hd : (A.header (A.setAllocated m off 0) (off + A.sizeofChunk + c.length)).allocated =
        d.allocated.toNat := by rw [hset.linked.2.1]
    simp only [hc, hd, absorbed]
    cases hda : d.allocated with
    | true =>
      rw [if_neg (by simp)]
      exact ⟨hset, hagree⟩
    | false =>
      rw [if_pos ⟨by omega, rfl⟩]
      obtain ⟨h1, h2⟩ := hset.mergeNext
      exact ⟨h1, hagree.trans h2⟩

theorem free_eq {cur : Nat} : A.free m (cur + A.sizeofChunk) =
    (let m := freeNext A m cur
    let next := (A.header m cur).next
    let prev := (A.header m cur).prev
    if prev ≠ 0 ∧ (A.header m prev).allocated = 0 then
      if next = 0 then .error .nullHeader
      else
        let m := A.setPrev (A.setNext m prev next) next prev
        .ok (A.setLength m prev
          ((A.header m prev).length + (A.header m cur).length + A.sizeofChunk))
    else .ok m) := by
  have hs := A.sizeofChunk_eq
  unfold free freeNext
  simp only [Nat.add_sub_cancel]
  rw [if_neg (by omega)]

/-- The first chunk -/
theorem free_first (h : Rep A m (c :: bs)) :
    ∃ m', A.free m (A.start + A.sizeofChunk) = .ok m' ∧
      Rep A m' ((absorbed A c bs).1 :: (absorbed A c bs).2) := by
  obtain ⟨h1, -⟩ := tiles_freeNext h
  have hprev : (A.header (freeNext A m A.start) A.start).prev = 0 := by rw [h1.linked.1]
  refine ⟨_, ?_, h1⟩
  rw [free_eq]
  simp only [hprev, ne_eq, not_true, false_and, if_false]

section Previous

variable {p : Chunk}

/-- The list when `__free` looks at the previous chunk -/
theorem rep_freeNext (h : Rep A m (as ++ p :: c :: bs)) :
    Rep A (freeNext A m (A.endOf A.start (as ++ [p])))
      (as ++ p :: (absorbed A c bs).1 :: (absorbed A c bs).2) := by
  rw [List.append_cons as p] at h
  rw [List.append_cons as p (_ :: _)]
  obtain ⟨hbefore, htile⟩ := h.seam
  obtain ⟨h1, h2⟩ := tiles_freeNext htile
  exact h.edit h2 hbefore h1

variable {cur : Nat}

theorem endOf_concat (off : Nat) (as : List Chunk) (p : Chunk) :
    A.endOf off (as ++ [p]) = A.endOf off as + A.sizeofChunk + p.length := by
  rw [endOf_append]
  rfl

/-- A chunk behind another one -/
theorem free_after (h : Rep A m (as ++ p :: c :: bs)) :
    if p.allocated then
      ∃ m', A.free m (A.endOf A.start (as ++ [p]) + A.sizeofChunk) = .ok m' ∧
        Rep A m' (as ++ p :: (absorbed A c bs).1 :: (absorbed A c bs).2)
    else if (absorbed A c bs).2 = [] then
      A.free m (A.endOf A.start (as ++ [p]) + A.sizeofChunk) = .error .nullHeader
    else
      ∃ m', A.free m (A.endOf A.start (as ++ [p]) + A.sizeofChunk) = .ok m' ∧
        Rep A m' (as ++ ⟨p.length + (absorbed A c bs).1.length + A.sizeofChunk, false⟩ ::
          (absorbed A c bs).2) := by
  have h2 := rep_freeNext h
  rw [free_eq, endOf_concat] at *
  generalize (absorbed A c bs).1 = c' at *
  generalize (absorbed A c bs).2 = bs' at *
  generalize freeNext A m (A.endOf A.start as + A.sizeofChunk + p.length) = m2 at *
  obtain ⟨hbefore, htile⟩ := h2.seam
  have hpos : A.endOf A.start as ≠ 0 := by
    have h1 := le_endOf (A := A) A.start as
    have h2 := A.start_pos
    omega
  have hp := htile.linked.1
  have hc := htile.linked.2.1
  rw [link_cons] at hp
  simp only [hc, hp, ne_eq, hpos, not_false_iff, true_and]
  cases hpa : p.allocated with
  | true => exact ⟨m2, rfl, h2⟩
  | false =>
    cases bs' with
    | nil => rfl
    | cons b bs' =>
      have hb := A.ptr_bound
      have hs := A.sizeofChunk_eq
      have hends := htile.ends
      simp only [endOf] at hends
      generalize hprev : A.endOf A.start as = q at *
      generalize hcur : q + A.sizeofChunk + p.length = cur at *
      have hle := le_endOf (A := A) (cur + A.sizeofChunk + c'.length + A.sizeofChunk + b.length) bs'
      -- the same edit as the merge with a next chunk, from the chunk before
      have hmem := mergeNext_eq hp hc (by omega) (.inr (by rw [link_cons]; omega))
        (by rw [link_cons]; omega)
      rw [link_cons] at hmem hc
      rw [if_pos (by omega)] at hmem
      have hmp : (A.header (A.setPrev (A.setNext m2 q (cur + A.sizeofChunk + c'.length))
          (cur + A.sizeofChunk + c'.length) q) q).length = p.length := by
        rw [header_frame (agree_setPrev .refl (.inr (by omega))), header_setNext (by omega), hp]
      have hmc : (A.header (A.setPrev (A.setNext m2 q (cur + A.sizeofChunk + c'.length))
          (cur + A.sizeofChunk + c'.length) q) cur).length = c'.length := by
        rw [header_frame (agree_setPrev .refl (.inr (by omega))),
          header_frame (agree_setNext .refl (.inl (by omega))), hc]
      obtain ⟨h3, h4⟩ := htile.mergeNext
      rw [hcur, hpa] at h3
      rw [hcur] at h4
      refine ⟨A.mergeNext m2 q cur, ?_, ?_⟩
      · simp only [link_cons, hmp, hmc, hmem]
        rw [if_pos (show false.toNat = 0 from rfl), if_neg (by omega)]
      · exact h2.edit (by rwa [hprev]) hbefore (by rwa [hprev])

end Previous

/-- The chunks after `__free`, unless it accesses a header through a null pointer -/
def freed (A : Arena) (as : List Chunk) (c : Chunk) (bs : List Chunk) : Option (List Chunk) :=
  match as.getLast? with
  | none => some ((absorbed A c bs).1 :: (absorbed A c bs).2)
  | some p =>
    if p.allocated then some (as ++ (absorbed A c bs).1 :: (absorbed A c bs).2)
    else if (absorbed A c bs).2 = [] then none
    else some (as.dropLast ++ ⟨p.length + (absorbed A c bs).1.length + A.sizeofChunk, false⟩ ::
      (absorbed A c bs).2)

theorem free_spec (h : Rep A m (as ++ c :: bs)) :
    match freed A as c bs with
    | none => A.free m (A.endOf A.start as + A.sizeofChunk) = .error .nullHeader
    | some cs => ∃ m', A.free m (A.endOf A.start as + A.sizeofChunk) = .ok m' ∧ Rep A m' cs := by
  unfold freed
  obtain rfl | ⟨as, p, rfl⟩ := List.eq_nil_or_concat' as
  · exact free_first h
  · rw [List.append_assoc] at h
    have hf := free_after h
    simp only [List.getLast?_append, List.getLast?_singleton, Option.some_or, List.dropLast_concat]
    cases hp : p.allocated with
    | true =>
      rw [hp, if_pos rfl] at hf
      simpa using hf
    | false =>
      rw [hp, if_neg (by simp)] at hf
      simp only [Bool.false_eq_true, if_false]
      split
      next hnone =>
        by_cases hbs : (absorbed A c bs).2 = []
        · rwa [if_pos hbs] at hf
        · simp [hbs] at hnone
      next cs hsome =>
        by_cases hbs : (absorbed A c bs).2 = []
        · simp [hbs] at hsome
        · rw [if_neg hbs] at hf hsome
          cases hsome
          exact hf

/-- A chunk is taken. -/
abbrev Taken (c : Chunk) : Prop := c.allocated = true

theorem not_taken_absorbed (c : Chunk) (bs : List Chunk) : ¬ Taken (absorbed A c bs).1 := by
  cases bs with
  | nil => simp [absorbed]
  | cons d bs =>
    simp only [absorbed]
    split <;> simp

theorem separated_absorbed (h : Separated Taken bs) :
    Separated Taken (absorbed A c bs).2 ∧ ∀ b ∈ (absorbed A c bs).2.head?, Taken b := by
  cases bs with
  | nil => exact ⟨.nil, by simp [absorbed]⟩
  | cons d bs =>
    simp only [absorbed]
    cases hd : d.allocated with
    | true => exact ⟨h, by simpa using hd⟩
    | false => exact (Separated.cons_gap (by simp [hd])).mp h

theorem separated_freed (h : Separated Taken (as ++ c :: bs)) (hf : freed A as c bs = some cs) :
    Separated Taken cs := by
  obtain ⟨h1, h2⟩ := separated_absorbed (A := A) (c := c) h.of_append_right.of_cons
  have hgap := not_taken_absorbed (A := A) c bs
  have has := h.of_append_left
  unfold freed at hf
  obtain rfl | ⟨as, p, rfl⟩ := List.eq_nil_or_concat' as
  · cases hf
    exact (Separated.cons_gap hgap).mpr ⟨h1, h2⟩
  · simp only [List.getLast?_append, List.getLast?_singleton, Option.some_or,
      List.dropLast_concat] at hf
    cases hp : p.allocated with
    | true =>
      rw [hp, if_pos rfl] at hf
      cases hf
      exact (Separated.append_gap hgap).mpr ⟨has, h1, by simpa using hp, h2⟩
    | false =>
      rw [hp, if_neg (by simp)] at hf
      split at hf
      next => cases hf
      next =>
        cases hf
        obtain ⟨h3, -, h4, -⟩ := (Separated.append_gap (by simp [hp])).mp has
        exact (Separated.append_gap (by simp)).mpr ⟨h3, h1, h4, h2⟩

/-- The other chunks that are taken stay where they are. -/
def Keeps (A : Arena) (cs cs' : List Chunk) (block : Nat) : Prop :=
  ∀ b c, (b, c) ∈ placed A A.start cs → c.allocated = true → b ≠ block →
    (b, c) ∈ placed A A.start cs'

theorem mem_placed_absorbed {b : Nat} {e : Chunk} (h : (b, e) ∈ placed A off (c :: bs))
    (he : e.allocated = true) (hb : b ≠ off + A.sizeofChunk) :
    (b, e) ∈ placed A (off + A.sizeofChunk + (absorbed A c bs).1.length) (absorbed A c bs).2 := by
  simp only [placed, List.mem_cons, Prod.mk.injEq, hb, false_and, false_or] at h
  cases bs with
  | nil => cases h
  | cons d bs =>
    simp only [absorbed]
    cases hd : d.allocated with
    | true => exact h
    | false =>
      have hoff : off + A.sizeofChunk + (c.length + d.length + A.sizeofChunk) =
          off + A.sizeofChunk + c.length + A.sizeofChunk + d.length := by omega
      simp only [Bool.false_eq_true, if_false, hoff]
      obtain h | h := List.mem_cons.mp h
      · cases h
        cases hd.symm.trans he
      · exact h

theorem keeps_freed (hf : freed A as c bs = some cs) :
    Keeps A (as ++ c :: bs) cs (A.endOf A.start as + A.sizeofChunk) := by
  intro b e h he hb
  rw [placed_append, List.mem_append] at h
  have htail := fun (h : (b, e) ∈ placed A (A.endOf A.start as) (c :: bs)) =>
    mem_placed_absorbed h he hb
  unfold freed at hf
  obtain rfl | ⟨as, p, rfl⟩ := List.eq_nil_or_concat' as
  · cases hf
    exact List.mem_cons_of_mem _ (htail (h.resolve_left (by simp [placed])))
  · simp only [List.getLast?_append, List.getLast?_singleton, Option.some_or,
      List.dropLast_concat] at hf
    cases hp : p.allocated with
    | true =>
      rw [hp, if_pos rfl] at hf
      cases hf
      rw [placed_append, List.mem_append]
      exact h.imp id fun h => List.mem_cons_of_mem _ (htail h)
    | false =>
      rw [hp, if_neg (by simp)] at hf
      split at hf
      next => cases hf
      next =>
        cases hf
        rw [placed_append, List.mem_append] at h ⊢
        obtain (h | h) | h := h
        · exact .inl h
        · obtain h | h := List.mem_cons.mp h
          · cases h
            cases hp.symm.trans he
          · cases h
        · right
          refine List.mem_cons_of_mem _ ?_
          have htail := htail h
          rw [endOf_concat] at htail
          have hoff : A.endOf A.start as + A.sizeofChunk +
              (p.length + (absorbed A c bs).1.length + A.sizeofChunk) =
              A.endOf A.start as + A.sizeofChunk + p.length + A.sizeofChunk +
                (absorbed A c bs).1.length := by omega
          rw [hoff]
          exact htail

/-! ## Live blocks -/

/-- The block is a chunk that is taken, of at least this size. -/
def Live (A : Arena) (cs : List Chunk) (block size : Nat) : Prop :=
  ∃ c, (block, c) ∈ placed A A.start cs ∧ c.allocated = true ∧ size ≤ c.length

theorem Keeps.live {cs' : List Chunk} {block b n : Nat} (h : Keeps A cs cs' block)
    (hl : Live A cs b n) (hb : b ≠ block) : Live A cs' b n := by
  obtain ⟨c, hc, hca, hn⟩ := hl
  exact ⟨c, h b c hc hca hb, hca, hn⟩

/-- What `__malloc` makes of the list -/
theorem malloc_list (hd : 8 ∣ c.length) (hlt : c.length < 2 ^ 32) (hfit : Fits size c)
    (hsep : Separated Taken (as ++ c :: bs)) (block : Nat) :
    Separated Taken (as ++ (taken A c size ++ bs)) ∧
      Keeps A (as ++ c :: bs) (as ++ (taken A c size ++ bs)) block ∧
      Live A (as ++ (taken A c size ++ bs)) (A.endOf A.start as + A.sizeofChunk) size := by
  have hr := roundUp_le hfit.2 hd
  have hge := le_roundUp hfit.2 hd hlt
  obtain ⟨has, hbs, -, hhead⟩ := (Separated.append_gap (by simp [hfit.1])).mp hsep
  have hextent : A.endOf (A.endOf A.start as) (taken A c size) = A.endOf (A.endOf A.start as) [c] := by
    unfold taken
    split
    next hbig =>
      simp only [endOf]
      omega
    next => rfl
  refine ⟨?_, ?_, ?_⟩
  · unfold taken
    split
    next =>
      refine (Separated.append_taken (show Taken ⟨roundUp size, true⟩ from rfl)).mpr ⟨has, ?_⟩
      exact (Separated.cons_gap (by simp)).mpr ⟨hbs, hhead⟩
    next => exact (Separated.append_taken (show Taken ⟨c.length, true⟩ from rfl)).mpr ⟨has, hbs⟩
  · intro b e h he _
    have h : (b, e) ∈ placed A A.start (as ++ [c] ++ bs) := by simpa using h
    rw [← List.append_assoc]
    refine (mem_placed_replace hextent h).resolve_left fun hc => ?_
    simp only [placed, List.mem_singleton, Prod.mk.injEq] at hc
    rw [hc.2, hfit.1] at he
    cases he
  · unfold Live taken
    rw [placed_append]
    split
    next => exact ⟨_, List.mem_append_right _ List.mem_cons_self, rfl, hge⟩
    next => exact ⟨_, List.mem_append_right _ List.mem_cons_self, rfl, hfit.2⟩

end Solang.Stdlib.Heap
