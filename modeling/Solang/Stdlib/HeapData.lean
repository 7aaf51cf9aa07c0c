import Solang.Stdlib.HeapRuns

/-!
# The data of blocks that `__realloc` moves

Calls that are not `Safe` fault, so every heap that is reached keeps the chunk list. In such a heap
`__realloc` keeps the data exactly when it is safe, or finds no chunk that is long enough.
-/

namespace Solang.Stdlib.Heap

open Memory Arena

variable {A : Arena} {m m' : Memory} {prev off size block : Nat} {c d : Chunk}
  {as bs cs : List Chunk} {s : State}

/-! ## Calls that are not safe -/

theorem absorbed_of_trailing (h : Tiles A m prev off (c :: bs)) (ht : Trailing A m off) :
    (absorbed A c bs).2 = [] := by
  have hstart := A.start_pos
  obtain ⟨⟨hc, hbs⟩, -, hpos, -⟩ := h
  unfold Trailing at ht
  cases bs with
  | nil => rfl
  | cons d ds =>
    simp only [hc, link_cons, hbs.1] at ht
    obtain h0 | ⟨hfree, hlast⟩ := ht
    · omega
    · have hds : ds = [] := by
        cases ds with
        | nil => rfl
        | cons e ds =>
          simp only [link_cons] at hlast
          omega
      simp only [absorbed, hds]
      rw [if_neg (by simpa using hfree)]

theorem last_of_afterFree (h : Rep A m (as ++ c :: bs)) (ha : AfterFree A m (A.endOf A.start as)) :
    ∃ as' p, as = as' ++ [p] ∧ p.allocated = false := by
  obtain rfl | ⟨as, p, rfl⟩ := List.eq_nil_or_concat' as
  · exact absurd (congrArg Header.prev h.linked.1) ha.1
  · rw [List.append_assoc] at h
    obtain ⟨-, htile⟩ := h.seam
    unfold AfterFree at ha
    rw [endOf_concat, htile.linked.2.1, htile.linked.1] at ha
    exact ⟨as, p, rfl, by simpa using ha.2⟩

theorem freed_eq_none {p : Chunk} (hp : p.allocated = false) (hb : (absorbed A c bs).2 = []) :
    freed A (as ++ [p]) c bs = none := by
  unfold freed
  simp only [List.getLast?_append, List.getLast?_singleton, Option.some_or, hp, hb]
  rfl

/-- `__free` behind a free chunk, at the end -/
theorem free_fault (h : Rep A m (as ++ c :: bs)) (ha : AfterFree A m (A.endOf A.start as))
    (ht : Trailing A m (A.endOf A.start as)) :
    A.free m (A.endOf A.start as + A.sizeofChunk) = .error .nullHeader := by
  obtain ⟨as, p, rfl, hp⟩ := last_of_afterFree h ha
  have hspec := free_spec h
  rwa [freed_eq_none hp (absorbed_of_trailing h.seam.2 ht)] at hspec

/-- The loop of `__memcpy8` that counts down from zero -/
theorem memcpy8_zero {dest : Nat} (m : Memory) (source : Nat) (h : A.start ≤ dest) :
    A.memcpy8 m dest source 0 = .error .outOfBounds := by
  have hlen := A.length_lt
  have hlimit : A.limit = A.start + A.sizeofChunk + A.length := rfl
  have hs := A.sizeofChunk_eq
  have hptr := A.ptr_eq
  unfold memcpy8
  rw [if_pos rfl]
  simp only
  rw [if_neg]
  omega

theorem realloc_outOfMemory (hmove : ¬ InPlace A m off size)
    (hff : A.firstFit m size A.limit A.start = 0) :
    A.realloc m (off + A.sizeofChunk) size = .error .outOfMemory := by
  rw [realloc_move hmove (c := ⟨(A.header m off).length, true⟩) rfl]
  unfold malloc
  rw [hff]
  rfl

section Move

variable {e : Chunk} {xs ys : List Chunk}

/-- The chunk before a block that moves is still free when the block is freed, unless `__malloc` has
taken all of it. -/
theorem freed_moved (h : Rep A m (as ++ c :: bs)) (hc : c.allocated = true)
    (heq : as ++ c :: bs = xs ++ e :: ys) (hfit : Fits size e)
    (hff : A.firstFit m size A.limit A.start = A.endOf A.start xs)
    (hmove : ¬ InPlace A m (A.endOf A.start as) size)
    (ha : AfterFree A m (A.endOf A.start as)) (ht : Trailing A m (A.endOf A.start as))
    (hprevious : ¬ TakesPrevious A m (A.endOf A.start as) size) :
    ∃ as', xs ++ (taken A e size ++ ys) = as' ++ c :: bs ∧
      A.endOf A.start as' = A.endOf A.start as ∧ freed A as' c bs = none := by
  have hed : 8 ∣ e.length := h.dvd e (by rw [heq]; simp)
  have htile := h.seam.2
  have hnone := absorbed_of_trailing htile ht
  have hext := endOf_taken (A := A) hed hfit
  obtain ⟨zs, rfl, hzs⟩ | ⟨zs, rfl, hzs⟩ := List.append_eq_append_iff.mp heq
  · -- behind the block, only the next chunk can be the one that fits
    cases zs with
    | nil =>
      cases hzs
      cases hc.symm.trans hfit.1
    | cons z zs =>
      obtain ⟨rfl, rfl⟩ : c = z ∧ bs = zs ++ e :: ys := by simpa using hzs
      cases zs with
      | nil =>
        refine absurd ((inPlace_iff htile).mpr ⟨e, ys, rfl, hfit.1, ?_⟩) hmove
        have := hfit.2
        omega
      | cons z zs =>
        simp only [List.cons_append, absorbed] at hnone
        split at hnone <;> simp at hnone
  · cases zs with
    | nil =>
      cases hzs
      cases hc.symm.trans hfit.1
    | cons z zs =>
      obtain ⟨rfl, rfl⟩ : e = z ∧ ys = zs ++ c :: bs := by simpa using hzs
      refine ⟨xs ++ (taken A e size ++ zs), by simp, by simp only [endOf_append, hext, endOf], ?_⟩
      obtain ⟨as', p, hlast, hp⟩ := last_of_afterFree h ha
      have hprev : (A.header m (A.endOf A.start (xs ++ e :: zs))).prev =
          A.prevOf 0 A.start (xs ++ e :: zs) := by rw [htile.linked.1]
      obtain rfl | ⟨zs, q, rfl⟩ := List.eq_nil_or_concat' zs
      · -- something is left of the previous chunk
        rw [List.append_assoc] at h
        have he := h.seam.2.linked.1
        have hbig : 8 + A.sizeofChunk ≤ e.length - roundUp size := by
          by_contra hsmall
          refine hprevious ⟨?_, ?_⟩
          · rw [hff, hprev, prevOf_append]
          · rw [hprev, prevOf_append, he]
            simp only
            omega
        have htaken : taken A e size =
            [⟨roundUp size, true⟩] ++ [⟨e.length - roundUp size - A.sizeofChunk, false⟩] :=
          if_pos hbig
        rw [htaken, List.append_nil, ← List.append_assoc]
        exact freed_eq_none rfl hnone
      · obtain ⟨-, rfl⟩ : xs ++ e :: zs = as' ∧ q = p := by
          rw [← List.cons_append, ← List.append_assoc] at hlast
          simpa using List.append_inj' hlast rfl
        rw [← List.append_assoc, ← List.append_assoc]
        exact freed_eq_none hp hnone

/-- A `__realloc` that is not safe: the copy counts down from zero, or `__free` faults. -/
theorem realloc_fault (h : Rep A m (as ++ c :: bs)) (hc : c.allocated = true)
    (hnotSafe : ¬ Safe A m (.realloc (A.endOf A.start as + A.sizeofChunk) size))
    (hff : A.firstFit m size A.limit A.start ≠ 0) :
    ∃ f, f ≠ .outOfMemory ∧
      A.realloc m (A.endOf A.start as + A.sizeofChunk) size = .error f := by
  simp only [Safe, Nat.add_sub_cancel, not_or, not_and] at hnotSafe
  obtain ⟨hmove, hnotSafe⟩ := hnotSafe
  have htile := h.seam.2
  have hlen : (A.header m (A.endOf A.start as)).length = c.length := by rw [htile.linked.1]
  rw [hlen] at hnotSafe
  obtain hoom | ⟨xs, e, ys, m1, heq, hfit, hffx, hmalloc, hrep1⟩ := malloc_spec size h
  · unfold malloc at hoom
    rw [if_neg hff] at hoom
    cases hoom
  rw [realloc_move hmove hlen, hmalloc]
  show ∃ f, _ ∧ (A.memcpy8 m1 _ _ _).bind _ = _
  by_cases hzero : min size c.length = 0
  · refine ⟨.outOfBounds, by simp, ?_⟩
    have hle := le_endOf (A := A) A.start xs
    rw [hzero, memcpy8_zero m1 _ (by omega)]
    rfl
  · have hsize : 0 < size := by omega
    obtain ⟨hsafe, hprevious⟩ := hnotSafe hsize (by omega)
    obtain ⟨ha, ht⟩ : AfterFree A m (A.endOf A.start as) ∧ Trailing A m (A.endOf A.start as) := by
      simpa using hsafe
    obtain ⟨as', hsplit, hend, hnone⟩ := freed_moved h hc heq hfit hffx hmove ha ht hprevious
    have hed : 8 ∣ e.length := h.dvd e (by rw [heq]; simp)
    have helt : e.length < 2 ^ 32 := h.length_lt e (by rw [heq]; simp)
    obtain ⟨f, fs, htaken, hf⟩ := taken_cons (A := A) hed helt hfit
    have hsource := payload_le_limit htile
    have hwords : 8 * ((min size c.length + 7) / 8) ≤ c.length :=
      words_le (by omega) (h.dvd c (by simp))
    obtain ⟨hcopy, hcopied⟩ := memcpy8_spec (A.endOf A.start as + A.sizeofChunk)
      (n := (min size c.length + 7) / 8) (by rwa [htaken] at hrep1) (by omega)
      (words_le (by omega) hf.2) (by omega)
    refine ⟨.nullHeader, by simp, ?_⟩
    rw [hcopy]
    show (A.free _ _).bind _ = _
    have hfree := free_spec (A := A) (c := c)
      (m := copyWords m1 (A.endOf A.start xs + A.sizeofChunk)
        (A.endOf A.start as + A.sizeofChunk) ((min size c.length + 7) / 8)) (by
      rw [← hsplit, htaken]
      exact hcopied)
    rw [hnone, hend] at hfree
    rw [hfree]
    rfl

end Move

/-! ## Heaps that are reached -/

theorem inv_of_step {call : Call} {s' : State} (h : Inv A s) (hv : s.Valid call)
    (hs : s.step A call = .ok s') : Inv A s' := by
  by_cases hsafe : Safe A s.mem call
  · obtain hoom | ⟨t, ht, hinv⟩ := inv_step h hv hsafe
    · cases hoom.symm.trans hs
    · cases ht.symm.trans hs
      exact hinv
  · obtain ⟨cs, hrep, -, hlive⟩ := h
    cases call with
    | malloc size => exact absurd trivial hsafe
    | free block =>
      obtain ⟨as, c, bs, rfl, -, rfl⟩ := exists_of_live hlive hv
      simp only [Safe, Nat.add_sub_cancel, not_not] at hsafe
      simp only [State.step, free_fault hrep hsafe.1 hsafe.2] at hs
      cases hs
    | realloc block size =>
      obtain ⟨as, c, bs, rfl, hca, rfl⟩ := exists_of_live hlive hv.1
      by_cases hff : A.firstFit s.mem size A.limit A.start = 0
      · have hmove : ¬ InPlace A s.mem (A.endOf A.start as) size := fun hin =>
          hsafe (.inl (by rwa [Nat.add_sub_cancel]))
        simp only [State.step, realloc_outOfMemory hmove hff] at hs
        cases hs
      · obtain ⟨f, -, hf⟩ := realloc_fault hrep hca hsafe hff
        simp only [State.step, hf] at hs
        cases hs

/-- Every heap that is reached is one list of chunks. -/
theorem inv_of_run {calls : List Call} {s' : State} (h : Inv A s) (hvalid : s.ValidRun A calls)
    (hrun : s.run A calls = .ok s') : Inv A s' := by
  induction calls generalizing s with
  | nil =>
    cases hrun
    exact h
  | cons call calls ih =>
    obtain ⟨hv, hvrest⟩ := hvalid
    simp only [State.run] at hrun
    cases hs : s.step A call with
    | error f =>
      rw [hs] at hrun
      cases hrun
    | ok t =>
      rw [hs] at hrun hvrest
      exact ih (inv_of_step h hv hs) hvrest hrun

/-! ## The data -/

/-- The bytes that `__memcpy8` touches of the old block, and of the new one -/
def copied (A : Arena) (m : Memory) (block size : Nat) : Nat :=
  let cur := block - A.sizeofChunk
  let words := (min size (A.header m cur).length + 7) / 8
  if InPlace A m cur size then 0 else 8 * (if words = 0 then 2 ^ 32 else words)

/-- The block is long enough and has the data of the old one, the other blocks have theirs, and the
copy stays within both blocks. -/
structure DataKept (A : Arena) (s : State) (block size block' : Nat) (m' : Memory) : Prop where
  long : size ≤ (A.header m' (block' - A.sizeofChunk)).length
  data : ∀ i < min (A.header s.mem (block - A.sizeofChunk)).length size,
    m' (block' + i) = s.mem (block + i)
  others : ∀ p ∈ s.live, p.1 ≠ block →
    Agree s.mem m' p.1 (p.1 + (A.header s.mem (p.1 - A.sizeofChunk)).length)
  source : copied A s.mem block size ≤ (A.header s.mem (block - A.sizeofChunk)).length
  dest : copied A s.mem block size ≤ (A.header m' (block' - A.sizeofChunk)).length

/-- `__realloc` keeps the data, if the memory suffices. -/
def KeepsData (A : Arena) (s : State) (block size : Nat) : Prop :=
  A.realloc s.mem block size = .error .outOfMemory ∨
    ∃ block' m', A.realloc s.mem block size = .ok (block', m') ∧ DataKept A s block size block' m'

theorem length_of_placed {b : Nat} (h : Rep A m cs) (hb : (b, c) ∈ placed A A.start cs) :
    (A.header m (b - A.sizeofChunk)).length = c.length := by
  obtain ⟨as, bs, rfl, rfl⟩ := exists_of_mem_placed hb
  rw [Nat.add_sub_cancel, h.seam.2.linked.1]

theorem dataKept_of_reallocated {cs' : List Chunk} {block' : Nat} (h : Rep A s.mem cs)
    (hlive : ∀ p ∈ s.live, Live A cs p.1 p.2) (hb : (block, c) ∈ placed A A.start cs)
    (hcopied : copied A s.mem block size = 0 ∨
      copied A s.mem block size = 8 * ((min size c.length + 7) / 8))
    (hnew : Reallocated A s.mem m' cs cs' block block' c.length size) :
    DataKept A s block size block' m' := by
  obtain ⟨d, hd, -, hlong⟩ := hnew.live
  have hlen := length_of_placed h hb
  have hlen' := length_of_placed hnew.rep hd
  have hcd : 8 ∣ c.length := by
    obtain ⟨as, bs, rfl, -⟩ := exists_of_mem_placed hb
    exact h.dvd c (by simp)
  have hdd : 8 ∣ d.length := by
    obtain ⟨as, bs, rfl, -⟩ := exists_of_mem_placed hd
    exact hnew.rep.dvd d (by simp)
  have hwords : 8 * ((min size c.length + 7) / 8) ≤ c.length := words_le (by omega) hcd
  have hwords' : 8 * ((min size c.length + 7) / 8) ≤ d.length := words_le (by omega) hdd
  refine ⟨by rwa [hlen'], fun i hi => hnew.data i (by omega), fun p hp hne => ?_, ?_, ?_⟩
  · obtain ⟨e, he, hea, -⟩ := hlive p hp
    rw [length_of_placed h he]
    exact hnew.others p.1 e he hea hne
  · rw [hlen]
    omega
  · rw [hlen']
    omega

/-- In every heap that is reached, `__realloc` keeps the data of the blocks exactly when it is safe, or
no chunk is long enough. -/
theorem realloc_keeps_data_iff (A : Arena) (m : Memory) (calls : List Call)
    (hvalid : (State.init A m).ValidRun A calls) (hrun : (State.init A m).run A calls = .ok s)
    (hv : s.Valid (.realloc block size)) :
    KeepsData A s block size ↔ Safe A s.mem (.realloc block size) ∨
      ¬ InPlace A s.mem (block - A.sizeofChunk) size ∧
        A.firstFit s.mem size A.limit A.start = 0 := by
  obtain ⟨cs, hrep, hsep, hlive⟩ := inv_of_run (inv_init m) hvalid hrun
  obtain ⟨as, c, bs, rfl, hca, rfl⟩ := exists_of_live hlive hv.1
  have hplace : (A.endOf A.start as + A.sizeofChunk, c) ∈ placed A A.start (as ++ c :: bs) := by
    rw [placed_append]
    exact List.mem_append_right _ mem_placed_head
  have htile := hrep.seam.2
  have hlen : (A.header s.mem (A.endOf A.start as)).length = c.length := by rw [htile.linked.1]
  constructor
  · intro hkeeps
    by_contra hnot
    obtain ⟨hnotSafe, hfits⟩ := not_or.mp hnot
    have hmove : ¬ InPlace A s.mem (A.endOf A.start as) size := fun hin =>
      hnotSafe (.inl (by rwa [Nat.add_sub_cancel]))
    rw [Nat.add_sub_cancel] at hfits
    obtain ⟨f, hne, hf⟩ := realloc_fault hrep hca hnotSafe fun h0 => hfits ⟨hmove, h0⟩
    obtain hoom | ⟨block', m', hok, -⟩ := hkeeps
    · cases hoom.symm.trans hf
      exact hne rfl
    · cases hok.symm.trans hf
  · intro h
    by_cases hin : InPlace A s.mem (A.endOf A.start as) size
    · obtain ⟨d, ds, rfl, hd, hsize⟩ := (inPlace_iff htile).mp hin
      obtain ⟨m', cs', hm, hnew⟩ := realloc_inPlace hrep hca hd hsize hsep
      refine .inr ⟨_, m', hm, dataKept_of_reallocated hrep hlive hplace (.inl ?_) hnew⟩
      unfold copied
      rw [Nat.add_sub_cancel]
      exact if_pos hin
    · obtain hsafe | ⟨-, hff⟩ := h
      · simp only [Safe, Nat.add_sub_cancel] at hsafe
        obtain ⟨h0, hpos, hsafe⟩ := hsafe.resolve_left hin
        rw [hlen] at hpos
        obtain hoom | ⟨block', m', cs', hm, hnew⟩ := realloc_moved hrep hca hsep hin h0 hpos hsafe
        · exact .inl hoom
        · refine .inr ⟨_, m', hm, dataKept_of_reallocated hrep hlive hplace (.inr ?_) hnew⟩
          unfold copied
          simp only [Nat.add_sub_cancel, hlen]
          rw [if_neg (by omega : ¬ (min size c.length + 7) / 8 = 0)]
          exact if_neg hin
      · exact .inl (realloc_outOfMemory hin hff)

namespace Sample

/-- The heap after these calls, if they go through -/
def reached (calls : List Call) : State :=
  ((State.init solana fun _ => 0).run solana calls).toOption.getD (State.init solana fun _ => 0)

theorem run_reached {calls : List Call}
    (h : fault ((State.init solana fun _ => 0).run solana calls) = none) :
    (State.init solana fun _ => 0).run solana calls = .ok (reached calls) := by
  unfold reached
  cases hr : (State.init solana fun _ => 0).run solana calls with
  | ok s => rfl
  | error f =>
    rw [hr] at h
    cases h

/-- The first block moves behind the second one. -/
theorem grown_block_keeps_data :
    KeepsData solana (reached [.malloc 8, .malloc 8]) first 100 :=
  (realloc_keeps_data_iff solana (fun _ => 0) [.malloc 8, .malloc 8] (by decide +kernel)
    (run_reached (by decide +kernel)) (by decide +kernel)).mpr (.inl (by decide +kernel))

/-- No word is to be copied, and the copy does not stop. -/
theorem empty_realloc_faults :
    ¬ ∀ (A : Arena) (m : Memory) (calls : List Call) (s : State) (block size : Nat),
      (State.init A m).ValidRun A calls → (State.init A m).run A calls = .ok s →
      s.Valid (.realloc block size) → KeepsData A s block size := by
  intro hall
  have hrun := run_reached (show fault ((State.init solana fun _ => 0).run solana
    [.malloc 8, .malloc 8]) = none by decide +kernel)
  have hkeeps := hall solana (fun _ => 0) [.malloc 8, .malloc 8] _ first 0 (by decide +kernel) hrun
    (by decide +kernel)
  rw [realloc_keeps_data_iff solana (fun _ => 0) _ (by decide +kernel) hrun (by decide +kernel)]
    at hkeeps
  exact absurd hkeeps (by decide +kernel)

end Sample

end Solang.Stdlib.Heap

/-!
## What a call leaves alone

`Kept A s s' gone`: every block of `s` but `gone` is a block of `s'` with the same bytes, and
`s'` is a heap again. Each call that goes through keeps the blocks that it was not given, and so
does a write into one block.
-/

namespace Solang.Stdlib.Heap

open Memory Arena

variable {A : Arena} {s s' s'' : State} {m m' : Memory} {cs as bs : List Chunk} {c d : Chunk}
  {block block' size b n : Nat}

/-! ### Blocks -/

theorem Live.dvd (h : Rep A m cs) (hl : Live A cs b n) :
    ∃ len, (A.header m (b - A.sizeofChunk)).length = len ∧ n ≤ len ∧ 8 ∣ len ∧
      A.start + A.sizeofChunk ≤ b ∧ b + len ≤ A.limit := by
  obtain ⟨c, hc, -, hn⟩ := hl
  have hplace := le_of_mem_placed hc
  have hends := h.ends
  obtain ⟨as, bs, rfl, -⟩ := exists_of_mem_placed hc
  refine ⟨c.length, length_of_placed h hc, hn, h.dvd c (by simp), hplace.1, ?_⟩
  rw [← hends]
  exact hplace.2

/-- A live block stands in the memory, in a chunk that is long enough. -/
theorem Inv.room (h : Inv A s) (hb : (b, n) ∈ s.live) :
    n ≤ (A.header s.mem (b - A.sizeofChunk)).length ∧
      8 ∣ (A.header s.mem (b - A.sizeofChunk)).length ∧ A.start + A.sizeofChunk ≤ b ∧
      b + (A.header s.mem (b - A.sizeofChunk)).length ≤ A.limit := by
  obtain ⟨cs, hrep, -, hlive⟩ := h
  obtain ⟨len, hlen, h1, h2, h3, h4⟩ := (hlive _ hb).dvd hrep
  rw [hlen]
  exact ⟨h1, h2, h3, h4⟩

/-- Two blocks at different places have a header between them. -/
theorem Inv.apart {b' n' : Nat} (h : Inv A s) (hb : (b, n) ∈ s.live) (hb' : (b', n') ∈ s.live)
    (hne : b ≠ b') : b + n + A.sizeofChunk ≤ b' ∨ b' + n' + A.sizeofChunk ≤ b := by
  obtain ⟨cs, -, -, hlive⟩ := h
  obtain ⟨c, hc, -, hn⟩ := hlive _ hb
  obtain ⟨c', hc', -, hn'⟩ := hlive _ hb'
  obtain ⟨h1, -⟩ | h1 | h1 := placed_apart hc hc'
  · exact absurd h1 hne
  · simp only at hn
    omega
  · simp only at hn'
    omega

/-! ### The relation -/

/-- Every block but `gone` is still there, with its bytes. -/
structure Kept (A : Arena) (s s' : State) (gone : Option Nat) : Prop where
  inv : Inv A s'
  live : ∀ p ∈ s.live, gone ≠ some p.1 → p ∈ s'.live
  data : ∀ p ∈ s.live, gone ≠ some p.1 → Agree s.mem s'.mem p.1 (p.1 + p.2)
  length : ∀ p ∈ s.live, gone ≠ some p.1 →
    (A.header s'.mem (p.1 - A.sizeofChunk)).length = (A.header s.mem (p.1 - A.sizeofChunk)).length

theorem Kept.refl (h : Inv A s) (gone : Option Nat) : Kept A s s gone :=
  ⟨h, fun _ hp _ => hp, fun _ _ _ => .refl, fun _ _ _ => rfl⟩

theorem Kept.trans {gone : Option Nat} (h : Kept A s s' gone) (h' : Kept A s' s'' gone) :
    Kept A s s'' gone where
  inv := h'.inv
  live p hp hne := h'.live p (h.live p hp hne) hne
  data p hp hne := (h.data p hp hne).trans (h'.data p (h.live p hp hne) hne)
  length p hp hne := (h'.length p (h.live p hp hne) hne).trans (h.length p hp hne)

theorem Kept.weaken (h : Kept A s s' none) (gone : Option Nat) : Kept A s s' gone :=
  ⟨h.inv, fun p hp _ => h.live p hp nofun, fun p hp _ => h.data p hp nofun,
    fun p hp _ => h.length p hp nofun⟩

variable {gone : Option Nat} {cs' : List Chunk} {lo hi : Nat}

/-- The block that the second step touches is none of the others. -/
theorem Kept.after (h : Kept A s s' gone) (h' : Kept A s' s'' (some block))
    (hfresh : ∀ p ∈ s.live, gone ≠ some p.1 → p.1 ≠ block) : Kept A s s'' gone := by
  have hother : ∀ p ∈ s.live, gone ≠ some p.1 → some block ≠ some p.1 :=
    fun p hp hne heq => hfresh p hp hne (Option.some.inj heq).symm
  refine ⟨h'.inv, fun p hp hne => ?_, fun p hp hne => ?_, fun p hp hne => ?_⟩
  · exact h'.live p (h.live p hp hne) (hother p hp hne)
  · exact (h.data p hp hne).trans (h'.data p (h.live p hp hne) (hother p hp hne))
  · exact (h'.length p (h.live p hp hne) (hother p hp hne)).trans (h.length p hp hne)

/-- The chunks of a block that is kept -/
theorem kept_of_keeps (hrep : Rep A s.mem cs) (hrep' : Rep A s'.mem cs')
    (hsep : Separated Taken cs') (hlive : ∀ p ∈ s.live, Live A cs p.1 p.2)
    (hlive' : ∀ p ∈ s'.live, Live A cs' p.1 p.2)
    (hsub : ∀ p ∈ s.live, gone ≠ some p.1 → p ∈ s'.live)
    (hkeep : ∀ b c, (b, c) ∈ placed A A.start cs → Taken c → gone ≠ some b →
      (b, c) ∈ placed A A.start cs' ∧ Agree s.mem s'.mem b (b + c.length)) :
    Kept A s s' gone where
  inv := ⟨cs', hrep', hsep, hlive'⟩
  live := hsub
  data p hp hne := by
    obtain ⟨c, hc, hca, hn⟩ := hlive p hp
    exact (hkeep _ c hc hca hne).2.mono (Nat.le_refl _) (by omega)
  length p hp hne := by
    obtain ⟨c, hc, hca, -⟩ := hlive p hp
    rw [length_of_placed hrep hc, length_of_placed hrep' (hkeep _ c hc hca hne).1]

/-! ### The calls -/

theorem mem_drop {p : Nat × Nat} (hp : p ∈ s.live) (hne : some block ≠ some p.1) :
    p ∈ State.drop s.live block := by
  refine List.mem_filter.mpr ⟨hp, ?_⟩
  simpa using fun heq => hne (congrArg some heq.symm)

/-- `__malloc` gives a block that was not there, and keeps the others. -/
theorem malloc_kept {r : Nat × Memory} (h : Inv A s) (hm : A.malloc s.mem size = .ok r)
    (gone : Option Nat) :
    Kept A s ⟨r.2, (r.1, size) :: s.live⟩ gone ∧ ∀ p ∈ s.live, p.1 ≠ r.1 := by
  obtain ⟨cs, hrep, hsep, hlive⟩ := h
  obtain hoom | ⟨as, c, bs, m', rfl, hfit, hff, hm', hrep'⟩ := malloc_spec size hrep
  · cases hoom.symm.trans hm
  · cases hm'.symm.trans hm
    have hlist := malloc_list (A := A) (hrep.dvd c (by simp)) (hrep.length_lt c (by simp)) hfit hsep
    have hheaders := headersOnly_malloc hrep hfit hff hm'
    have hfresh : (A.endOf A.start as + A.sizeofChunk, c) ∈ placed A A.start (as ++ c :: bs) := by
      rw [placed_append]
      exact List.mem_append_right _ mem_placed_head
    refine ⟨kept_of_keeps hrep hrep' (hlist 0).1 hlive ?_ (fun p hp _ => List.mem_cons_of_mem _ hp) ?_, ?_⟩
    · intro p hp
      obtain rfl | hp := List.mem_cons.mp hp
      · exact (hlist 0).2.2
      · exact (hlist (p.1 + 1)).2.1.live (hlive p hp) (by omega)
    · intro b e hb he _
      have hb' := (hlist (b + 1)).2.1 b e hb he (by omega)
      exact ⟨hb', hheaders.payload hb'⟩
    · intro p hp heq
      -- the chunk that is taken was free
      obtain ⟨e, he, hea, -⟩ := hlive p hp
      obtain ⟨-, rfl⟩ | h1 | h1 := placed_apart he hfresh
      · cases hea.symm.trans hfit.1
      all_goals
        have hs := A.sizeofChunk_eq
        simp only at heq
        omega

theorem free_kept (h : Inv A s) (hb : block ∈ s.live.map (·.1)) (hm : A.free s.mem block = .ok m') :
    Kept A s ⟨m', State.drop s.live block⟩ (some block) := by
  obtain ⟨cs, hrep, hsep, hlive⟩ := h
  obtain ⟨as, c, bs, rfl, -, rfl⟩ := exists_of_live hlive hb
  have hspec := free_spec hrep
  have hheaders := headersOnly_free hrep hm
  cases hcs : freed A as c bs with
  | none =>
    rw [hcs] at hspec
    cases hspec.symm.trans hm
  | some cs' =>
    rw [hcs] at hspec
    obtain ⟨m'', hm'', hrep'⟩ := hspec
    cases hm''.symm.trans hm
    refine kept_of_keeps hrep hrep' (separated_freed hsep hcs) hlive
      (live_drop hlive (keeps_freed hcs)) (fun p hp hne => mem_drop hp hne) fun b e hb he hne => ?_
    exact ⟨keeps_freed hcs b e hb he fun heq => hne (congrArg some heq.symm), hheaders.payload hb⟩

/-- What becomes of a block that `__realloc` was given -/
structure Moved (A : Arena) (s : State) (block size block' : Nat) (m' : Memory) : Prop where
  kept : Kept A s ⟨m', (block', size) :: State.drop s.live block⟩ (some block)
  data : ∀ i < min size (A.header s.mem (block - A.sizeofChunk)).length, m' (block' + i) = s.mem (block + i)
  fresh : ∀ p ∈ s.live, some block ≠ some p.1 → p.1 ≠ block'

theorem moved_of_reallocated (hrep : Rep A s.mem cs) (hlive : ∀ p ∈ s.live, Live A cs p.1 p.2)
    (hc : (block, c) ∈ placed A A.start cs)
    (hnew : Reallocated A s.mem m' cs cs' block block' c.length size)
    (hfresh : ∀ p ∈ s.live, some block ≠ some p.1 → p.1 ≠ block') : Moved A s block size block' m' where
  kept := by
    refine kept_of_keeps hrep hnew.rep hnew.separated hlive ?_
      (fun p hp hne => List.mem_cons_of_mem _ (mem_drop hp hne)) ?_
    · intro p hp
      obtain rfl | hp := List.mem_cons.mp hp
      · exact hnew.live
      · exact live_drop hlive hnew.keeps p hp
    · intro b e he hea hne
      have hne : b ≠ block := fun heq => hne (congrArg some heq.symm)
      exact ⟨hnew.keeps b e he hea hne, hnew.others b e he hea hne⟩
  data := by
    rw [length_of_placed hrep hc]
    exact hnew.data
  fresh := hfresh

theorem realloc_moves (h : Inv A s) (hb : block ∈ s.live.map (·.1))
    (hm : A.realloc s.mem block size = .ok (block', m')) : Moved A s block size block' m' := by
  have hinv := h
  obtain ⟨cs, hrep, hsep, hlive⟩ := h
  obtain ⟨as, c, bs, rfl, hca, rfl⟩ := exists_of_live hlive hb
  have htile := hrep.seam.2
  have hplace : (A.endOf A.start as + A.sizeofChunk, c) ∈ placed A A.start (as ++ c :: bs) := by
    rw [placed_append]
    exact List.mem_append_right _ mem_placed_head
  by_cases hin : InPlace A s.mem (A.endOf A.start as) size
  · obtain ⟨d, ds, rfl, hd, hfits⟩ := (inPlace_iff htile).mp hin
    obtain ⟨m'', cs', hm'', hnew⟩ := realloc_inPlace hrep hca hd hfits hsep
    cases hm''.symm.trans hm
    exact moved_of_reallocated hrep hlive hplace hnew fun _ _ hne heq => hne (congrArg some heq.symm)
  · have hlen : (A.header s.mem (A.endOf A.start as)).length = c.length := by rw [htile.linked.1]
    have hsafe : Safe A s.mem (.realloc (A.endOf A.start as + A.sizeofChunk) size) := by
      by_contra hnot
      by_cases hff : A.firstFit s.mem size A.limit A.start = 0
      · cases (realloc_outOfMemory hin hff).symm.trans hm
      · obtain ⟨f, -, hf⟩ := realloc_fault hrep hca hnot hff
        cases hf.symm.trans hm
    simp only [Safe, Nat.add_sub_cancel] at hsafe
    obtain ⟨h0, hpos, hsafe⟩ := hsafe.resolve_left hin
    rw [hlen] at hpos
    obtain hoom | ⟨block, m'', cs', hm'', hnew⟩ := realloc_moved hrep hca hsep hin h0 hpos hsafe
    · cases hoom.symm.trans hm
    · cases hm''.symm.trans hm
      refine moved_of_reallocated hrep hlive hplace hnew fun p hp _ => ?_
      -- the new block is the one that `__malloc` gave
      rw [realloc_move hin hlen] at hm
      cases hmalloc : A.malloc s.mem size with
      | error f =>
        rw [hmalloc] at hm
        cases hm
      | ok r =>
        have hfresh := (malloc_kept hinv hmalloc none).2 p hp
        rw [hmalloc] at hm
        simp only [Except.bind] at hm
        split at hm
        · cases hm
        · split at hm
          · cases hm
          · cases hm
            exact hfresh

/-! ### The program's own writes -/

/-- Bytes of one block are written. -/
theorem inv_of_within (h : Inv A s) (hb : (block, n) ∈ s.live) (hm : Within s.mem m' lo hi)
    (hlo : block ≤ lo) (hhi : hi ≤ block + n) :
    Inv A ⟨m', s.live⟩ ∧ ∀ p ∈ s.live, (A.header m' (p.1 - A.sizeofChunk)).length =
      (A.header s.mem (p.1 - A.sizeofChunk)).length := by
  obtain ⟨cs, hrep, hsep, hlive⟩ := h
  obtain ⟨c, hc, hca, hn⟩ := hlive _ hb
  obtain ⟨as, bs, rfl, hplace⟩ := exists_of_mem_placed hc
  simp only at hplace hn
  have hrep' : Rep A m' (as ++ c :: bs) := by
    refine rep_payload hrep (hm.agree (.inl ?_)) (hm.agree (.inr ?_))
    · rw [← hplace]
      exact hlo
    · rw [← hplace]
      omega
  refine ⟨⟨_, hrep', hsep, hlive⟩, fun p hp => ?_⟩
  obtain ⟨d, hd, -, -⟩ := hlive p hp
  rw [length_of_placed hrep hd, length_of_placed hrep' hd]

theorem kept_of_within (h : Inv A s) (hb : (block, n) ∈ s.live) (hm : Within s.mem m' lo hi)
    (hlo : block ≤ lo) (hhi : hi ≤ block + n) :
    Kept A s ⟨m', s.live⟩ (some block) where
  inv := (inv_of_within h hb hm hlo hhi).1
  live _ hp _ := hp
  data p hp hne := by
    have hapart := h.apart hp hb fun heq => hne (congrArg some heq.symm)
    exact hm.agree (by omega)
  length p hp _ := (inv_of_within h hb hm hlo hhi).2 p hp

/-- Bytes outside the heap are written. -/
theorem kept_of_outside (h : Inv A s) (hm : Agree s.mem m' A.start A.limit) :
    Kept A s ⟨m', s.live⟩ none := by
  obtain ⟨cs, hrep, hsep, hlive⟩ := h
  have hrep' : Rep A m' cs :=
    ⟨hrep.linked.frame (by rwa [hrep.ends]), hrep.ends, hrep.pos, hrep.dvd⟩
  refine kept_of_keeps hrep hrep' hsep hlive hlive (fun _ hp _ => hp) fun b c hb _ _ => ⟨hb, ?_⟩
  obtain ⟨h1, h2⟩ := le_of_mem_placed hb
  rw [hrep.ends] at h2
  exact hm.mono (by omega) h2

end Solang.Stdlib.Heap
