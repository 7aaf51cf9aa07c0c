import Solang.Emit.PolkadotSlots

/-!
# Values one behind the other

A layout says which slots belong to a value, and how far a delete of the value gets. Layouts are put one
behind the other, repeated, and put behind the hash of a slot; each way keeps what is shown of the deletes
here. The delete of a row is right when all that is in a slot is deleted where it is.
-/

namespace Solang.Emit.Polkadot

/-! ## Slots below a slot -/

namespace Slot

variable {slot x : Slot} {i m n : Nat}

theorem under_add_iff : Under slot n (slot.add i) ↔ i < n := by
  refine ⟨fun h => ?_, under_add slot⟩
  by_contra hlt
  rw [← add_zero slot] at h
  exact h.disjoint (by simpa using under_self (slot.add i)) (.inl (by omega))

theorem Under.left (h : Under slot n x) (hle : n ≤ m) : Under slot m x := by
  rw [← add_zero slot] at h
  exact h.mono (by omega)

/-- The slots of what is first are not those of what is behind it. -/
theorem Under.not_behind (h : Under slot n x) : ¬ Under (slot.add n) m x := by
  intro h'
  rw [← add_zero slot] at h
  exact h.disjoint h' (.inl (by omega))

theorem add_not_under_elem (slot : Slot) (i a n : Nat) : ¬ Under (.elem slot a) n (slot.add i) := by
  intro h
  have hle := h.depth_le
  simp only [depth, depth_add] at hle
  omega

end Slot

/-! ## Layouts -/

/-- The slots of a value, those that belong to it, and the lengths that it has in storage; how far the
slot is advanced by a delete and its caller, if nothing is in a slot, and if the delete is right -/
structure Layout where
  slots : Nat
  owned : Storage → Slot → Slot → Prop
  sized : Storage → Slot → Prop
  reach : Nat
  isVoid : Bool
  deletes : Bool

namespace Layout

/-- A value in one slot, behind which the slot is advanced by so much -/
def leaf (reach : Nat) : Layout where
  slots := 1
  owned _ slot x := x = slot
  sized _ _ := True
  reach := reach
  isVoid := false
  deletes := true

/-- A mapping, whose entries are behind the hash of its slot -/
def mapping : Layout where
  slots := 1
  owned _ _ _ := False
  sized _ _ := True
  reach := 0
  isVoid := true
  deletes := true

def nil : Layout where
  slots := 0
  owned _ _ _ := False
  sized _ _ := True
  reach := 0
  isVoid := true
  deletes := true

/-- One behind the other. The delete of the second is right where it reaches its slot, or when nothing of
it is in a slot. -/
def seq (a b : Layout) : Layout where
  slots := a.slots + b.slots
  owned st slot x := a.owned st slot x ∨ b.owned st (slot.add a.slots) x
  sized st slot := a.sized st slot ∧ b.sized st (slot.add a.slots)
  reach := a.reach + b.reach
  isVoid := a.isVoid && b.isVoid
  deletes := a.deletes && b.deletes && (b.isVoid || a.reach = a.slots)

def times (a : Layout) : Nat → Layout
  | 0 => nil
  | n + 1 => a.seq (a.times n)

/-- A length, and so many values behind the hash of its slot. Those behind the first one are deleted where
they are. -/
def dynamic (a : Layout) : Layout where
  slots := 1
  owned st slot x := x = slot ∨
    ∃ length, getStorageInt st slot 256 = some length ∧ (a.times length).owned st (.elem slot 0) x
  sized st slot :=
    ∃ length, getStorageInt st slot 256 = some length ∧ (a.times length).sized st (.elem slot 0)
  reach := 0
  isVoid := false
  deletes := (a.times 2).deletes

/-! ## What layouts are -/

/-- What belongs to a value is below its slots, and so are its lengths. -/
structure Lawful (a : Layout) : Prop where
  reach_le : a.reach ≤ a.slots
  within : ∀ {st slot x}, a.owned st slot x → slot.Under a.slots x
  owned_congr : ∀ {st st' slot}, (∀ y, slot.Under a.slots y → st' y = st y) →
    ∀ x, a.owned st' slot x ↔ a.owned st slot x
  sized_congr : ∀ {st st' slot}, (∀ y, slot.Under a.slots y → st' y = st y) →
    a.sized st slot → a.sized st' slot
  sized_of_read :
    ∀ {st}, (∀ slot, ∃ length, getStorageInt st slot 256 = some length) → ∀ slot, a.sized st slot
  not_owned : a.isVoid = true → ∀ {st slot x}, ¬ a.owned st slot x
  void_deletes : a.isVoid = true → a.deletes = true

theorem lawful_leaf {reach : Nat} (h : reach ≤ 1) : Lawful (leaf reach) where
  reach_le := h
  within := by
    rintro st slot x rfl
    exact Slot.under_self x
  owned_congr _ _ := Iff.rfl
  sized_congr _ h := h
  sized_of_read _ _ := trivial
  not_owned := nofun
  void_deletes _ := rfl

theorem lawful_mapping : Lawful mapping where
  reach_le := Nat.zero_le 1
  within h := h.elim
  owned_congr _ _ := Iff.rfl
  sized_congr _ h := h
  sized_of_read _ _ := trivial
  not_owned _ _ _ _ h := h
  void_deletes _ := rfl

theorem lawful_nil : Lawful nil where
  reach_le := Nat.le_refl 0
  within h := h.elim
  owned_congr _ _ := Iff.rfl
  sized_congr _ h := h
  sized_of_read _ _ := trivial
  not_owned _ _ _ _ h := h
  void_deletes _ := rfl

variable {a b : Layout}

theorem Lawful.seq (ha : Lawful a) (hb : Lawful b) : Lawful (a.seq b) where
  reach_le := Nat.add_le_add ha.reach_le hb.reach_le
  within := by
    rintro st slot x (h | h)
    · exact (ha.within h).left (Nat.le_add_right _ _)
    · exact (hb.within h).mono (Nat.le_refl _)
  owned_congr h x :=
    or_congr (ha.owned_congr (fun y hy => h y (hy.left (Nat.le_add_right _ _))) x)
      (hb.owned_congr (fun y hy => h y (hy.mono (Nat.le_refl _))) x)
  sized_congr h hs :=
    ⟨ha.sized_congr (fun y hy => h y (hy.left (Nat.le_add_right _ _))) hs.1,
      hb.sized_congr (fun y hy => h y (hy.mono (Nat.le_refl _))) hs.2⟩
  sized_of_read h slot := ⟨ha.sized_of_read h slot, hb.sized_of_read h _⟩
  not_owned h := by
    obtain ⟨hva, hvb⟩ := Bool.and_eq_true_iff.mp h
    rintro st slot x (hx | hx)
    · exact ha.not_owned hva hx
    · exact hb.not_owned hvb hx
  void_deletes h := by
    obtain ⟨hva, hvb⟩ := Bool.and_eq_true_iff.mp h
    simp [Layout.seq, ha.void_deletes hva, hb.void_deletes hvb, hvb]

theorem Lawful.times (ha : Lawful a) (n : Nat) : Lawful (a.times n) := by
  induction n with
  | zero => exact lawful_nil
  | succ n ih => exact ha.seq ih

theorem Lawful.dynamic (ha : Lawful a) : Lawful a.dynamic where
  reach_le := Nat.zero_le 1
  within := by
    rintro st slot x (rfl | ⟨length, -, h⟩)
    · exact Slot.under_self x
    · exact ((ha.times length).within h).of_elem
  owned_congr := by
    intro st st' slot h x
    have hslot := h slot (Slot.under_self slot)
    refine or_congr Iff.rfl (exists_congr fun length => ?_)
    rw [getStorageInt_congr hslot]
    exact and_congr_right fun _ => (ha.times length).owned_congr (fun y hy => h y hy.of_elem) x
  sized_congr := by
    rintro st st' slot h ⟨length, hlength, hs⟩
    have hslot := h slot (Slot.under_self slot)
    refine ⟨length, ?_, (ha.times length).sized_congr (fun y hy => h y hy.of_elem) hs⟩
    rw [getStorageInt_congr hslot, hlength]
  sized_of_read h slot := by
    obtain ⟨length, hlength⟩ := h slot
    exact ⟨length, hlength, (ha.times length).sized_of_read h _⟩
  not_owned := nofun
  void_deletes := nofun

theorem slots_times (a : Layout) (n : Nat) : (a.times n).slots = n * a.slots := by
  induction n with
  | zero => exact (Nat.zero_mul _).symm
  | succ n ih => rw [times, seq, ih, Nat.succ_mul, Nat.add_comm]

/-- All slots belong to the value. -/
def Covers (a : Layout) : Prop := ∀ st slot, ∀ i < a.slots, a.owned st slot (slot.add i)

theorem covers_leaf (reach : Nat) : Covers (leaf reach) := by
  intro st slot i hi
  rw [Nat.lt_one_iff.mp hi]
  exact Slot.add_zero slot

theorem Covers.seq (ha : Covers a) (hb : Covers b) : Covers (a.seq b) := by
  intro st slot i hi
  by_cases hlt : i < a.slots
  · exact .inl (ha st slot i hlt)
  · have hbehind := hb st (slot.add a.slots) (i - a.slots) (by simp only [Layout.seq] at hi; omega)
    rw [Slot.add_add, Nat.add_sub_cancel' (by omega)] at hbehind
    exact .inr hbehind

theorem Covers.times (ha : Covers a) (n : Nat) : Covers (a.times n) := by
  induction n with
  | zero => exact fun _ _ i hi => absurd hi (Nat.not_lt_zero i)
  | succ n ih => exact ha.seq ih

theorem covers_dynamic (a : Layout) : Covers a.dynamic := by
  intro st slot i hi
  rw [Nat.lt_one_iff.mp hi]
  exact .inl (Slot.add_zero slot)

/-- Two values one behind the other are as good as many. -/
theorem times_deletes {n : Nat} (h : (a.times 2).deletes = true) : (a.times n).deletes = true := by
  have hcases : a.deletes = true ∧ (a.isVoid = true ∨ a.reach = a.slots) := by
    simpa [times, seq, nil] using h
  induction n with
  | zero => rfl
  | succ n ih =>
    have hvoid : a.isVoid = true → (a.times n).isVoid = true := by
      intro hv
      clear ih h
      induction n with
      | zero => rfl
      | succ n ih => simp [times, seq, hv, ih]
    rcases hcases.2 with hv | hreach
    · simp [times, seq, hcases.1, ih, hvoid hv]
    · simp [times, seq, hcases.1, ih, hreach]

end Layout

/-! ## Deletes -/

abbrev Delete := Storage → Slot → Option (Storage × Slot)

/-- What is owned is deleted, and nothing else changes. -/
def Deleted (owned : Slot → Prop) (st st' : Storage) : Prop :=
  ∀ x, (owned x → st' x = none) ∧ (¬ owned x → st' x = st x)

variable {owned owned' : Slot → Prop} {st st' : Storage} {slot : Slot}

theorem Deleted.refl (st : Storage) (h : ∀ x, ¬ owned x) : Deleted owned st st :=
  fun x => ⟨fun hx => (h x hx).elim, fun _ => rfl⟩

theorem Deleted.append {st'' : Storage} (h : Deleted owned st st') (h' : Deleted owned' st' st'') :
    Deleted (fun x => owned x ∨ owned' x) st st'' := by
  intro x
  refine ⟨fun hx => ?_, fun hx => ?_⟩
  · by_cases hx' : owned' x
    · exact (h' x).1 hx'
    · rw [(h' x).2 hx']
      exact (h x).1 (hx.resolve_right hx')
  · rw [not_or] at hx
    rw [(h' x).2 hx.2, (h x).2 hx.1]

theorem Deleted.congr (h : Deleted owned st st') (heq : ∀ x, owned' x ↔ owned x) :
    Deleted owned' st st' :=
  fun x => ⟨fun hx => (h x).1 ((heq x).mp hx), fun hx => (h x).2 (mt (heq x).mpr hx)⟩

/-- The delete of one value and then of another -/
def Delete.andThen (d e : Delete) : Delete := fun st slot => do
  let (st, slot) ← d st slot
  e st slot

/-- So many values, one after the other -/
def Delete.times (d : Delete) : Nat → Delete
  | 0 => fun st slot => some (st, slot)
  | n + 1 => d.andThen (d.times n)

/-- A length, and so many values behind the hash of its slot -/
def Delete.dynamic (d : Delete) : Delete := fun st slot => do
  let length ← getStorageInt st slot 256
  let (st, _) ← d.times length st (.elem slot 0)
  some (st.set slot none, slot)

/-- Every slot holds the number 2, or nothing. -/
def Uniform (st : Storage) : Prop := ∀ x, st x = none ∨ st x = some (toBytes 32 2)

theorem getStorageInt_of_eq {data : Option (List UInt8)} (h : st slot = data) :
    getStorageInt st slot 256 = getStorageInt (fun _ => data) (.num 0) 256 := by
  unfold getStorageInt Storage.get
  rw [h]

theorem length_of_some (h : st slot = some (toBytes 32 2)) :
    getStorageInt st slot 256 = some 2 := by
  rw [getStorageInt_of_eq h]
  decide +kernel

theorem Uniform.length {st : Storage} (h : Uniform st) (slot : Slot) :
    ∃ length, getStorageInt st slot 256 = some length := by
  rcases h slot with hnone | hsome
  · exact ⟨0, getStorageInt_of_eq hnone⟩
  · exact ⟨2, length_of_some hsome⟩

theorem Uniform.set {st : Storage} (h : Uniform st) (slot : Slot) : Uniform (st.set slot none) := by
  intro x
  unfold Storage.set
  split
  · exact .inl rfl
  · exact h x

namespace Layout

/-- The delete is one of values with the layout. -/
structure Follows (a : Layout) (d : Delete) : Prop where
  void : a.isVoid = true → ∀ st slot, d st slot = some (st, slot.add a.reach)
  exact : a.deletes = true → ∀ st slot, a.sized st slot →
    ∃ st', d st slot = some (st', slot.add a.reach) ∧ Deleted (a.owned st slot) st st'
  total : ∀ st slot, Uniform st → ∃ st', d st slot = some (st', slot.add a.reach) ∧ Uniform st' ∧
    ∀ x, ¬ slot.Under a.slots x → st' x = st x

variable {a b : Layout} {d e : Delete}

theorem Follows.nil : Follows nil fun st slot => some (st, slot) where
  void _ st slot := by rw [Layout.nil, Slot.add_zero]
  exact _ st slot _ := ⟨st, by rw [Layout.nil, Slot.add_zero], .refl st fun _ h => h⟩
  total st slot h := ⟨st, by rw [Layout.nil, Slot.add_zero], h, fun _ _ => rfl⟩

theorem Follows.seq (hla : Lawful a) (hlb : Lawful b) (ha : Follows a d) (hb : Follows b e) :
    Follows (a.seq b) (d.andThen e) where
  void h st slot := by
    obtain ⟨hva, hvb⟩ := Bool.and_eq_true_iff.mp h
    simp only [Delete.andThen, ha.void hva, hb.void hvb, Option.bind_eq_bind, Option.bind_some, Slot.add_add]
    rfl
  exact h st slot hs := by
    obtain ⟨hab, hnext⟩ := Bool.and_eq_true_iff.mp h
    obtain ⟨hda, hdb⟩ := Bool.and_eq_true_iff.mp hab
    obtain ⟨st1, hd, hdeleted⟩ := ha.exact hda st slot hs.1
    simp only [Delete.andThen, hd, Option.bind_eq_bind, Option.bind_some]
    cases hvoid : b.isVoid with
    | true =>
      -- nothing of the second is in a slot, wherever its delete is
      refine ⟨st1, ?_, hdeleted.congr fun x => or_iff_left (hlb.not_owned hvoid)⟩
      rw [hb.void hvoid, Slot.add_add]
      rfl
    | false =>
      have hreach : a.reach = a.slots := by simpa [hvoid] using hnext
      have hbehind : ∀ y, (slot.add a.slots).Under b.slots y → st1 y = st y :=
        fun y hy => (hdeleted y).2 fun hown => (hla.within hown).not_behind hy
      obtain ⟨st2, he, hrest⟩ := hb.exact hdb st1 (slot.add a.slots) (hlb.sized_congr hbehind hs.2)
      refine ⟨st2, ?_, ?_⟩
      · rw [hreach, he, Slot.add_add]
        simp [Layout.seq, hreach]
      · exact (hdeleted.append hrest).congr fun x => or_congr Iff.rfl (hlb.owned_congr hbehind x).symm
  total st slot h := by
    obtain ⟨st1, hd, hu, hframe⟩ := ha.total st slot h
    obtain ⟨st2, he, hu', hframe'⟩ := hb.total st1 (slot.add a.reach) hu
    refine ⟨st2, ?_, hu', fun x hx => ?_⟩
    · simp only [Delete.andThen, hd, he, Option.bind_eq_bind, Option.bind_some, Slot.add_add]
      rfl
    · have hle := hla.reach_le
      rw [hframe' x fun hu => hx (hu.mono (Nat.add_le_add_right hle _)),
        hframe x fun hu => hx (hu.left (Nat.le_add_right _ _))]

theorem Follows.times (hla : Lawful a) (ha : Follows a d) (n : Nat) : Follows (a.times n) (d.times n) := by
  induction n with
  | zero => exact .nil
  | succ n ih => exact .seq hla (hla.times n) ha ih

theorem Follows.dynamic (hla : Lawful a) (ha : Follows a d) : Follows a.dynamic d.dynamic where
  void := nofun
  exact h := by
    rintro st slot ⟨length, hlength, hs⟩
    obtain ⟨st1, hd, hdeleted⟩ := (ha.times hla length).exact (times_deletes h) st (.elem slot 0) hs
    refine ⟨st1.set slot none, ?_, fun x => ⟨?_, fun hx => ?_⟩⟩
    · simp only [Delete.dynamic, hlength, hd, Option.bind_eq_bind, Option.bind_some]
      rw [Layout.dynamic, Slot.add_zero]
    · rintro (rfl | ⟨length', hlength', hx⟩)
      · exact if_pos rfl
      · cases Option.some.inj (hlength.symm.trans hlength')
        unfold Storage.set
        split
        · rfl
        · exact (hdeleted x).1 hx
    · have hne : x ≠ slot := fun heq => hx (.inl heq)
      have hout : ¬ (a.times length).owned st (.elem slot 0) x :=
        fun hown => hx (.inr ⟨length, hlength, hown⟩)
      exact (if_neg hne).trans ((hdeleted x).2 hout)
  total st slot h := by
    obtain ⟨length, hlength⟩ := h.length slot
    obtain ⟨st1, hd, hu, hframe⟩ := (ha.times hla length).total st (.elem slot 0) h
    refine ⟨st1.set slot none, ?_, hu.set slot, fun x hx => ?_⟩
    · simp only [Delete.dynamic, hlength, hd, Option.bind_eq_bind, Option.bind_some]
      rw [Layout.dynamic, Slot.add_zero]
    · have hne : x ≠ slot := fun heq => hx (heq ▸ Slot.under_self slot)
      exact (if_neg hne).trans (hframe x fun hu => hx hu.of_elem)

theorem follows_leaf (reach : Nat) :
    Follows (leaf reach) fun st slot => some (st.set slot none, slot.add reach) where
  void := nofun
  exact _ st slot _ := by
    refine ⟨_, rfl, fun x => ⟨fun hx => if_pos hx, fun hx => if_neg hx⟩⟩
  total st slot h := by
    refine ⟨_, rfl, h.set slot, fun x hx => if_neg ?_⟩
    rintro rfl
    exact hx (Slot.under_self x)

theorem follows_mapping : Follows mapping fun st slot => some (st, slot) where
  void _ st slot := by rw [mapping, Slot.add_zero]
  exact _ st slot _ := ⟨st, by rw [mapping, Slot.add_zero], .refl st fun _ h => h⟩
  total st slot h := ⟨st, by rw [mapping, Slot.add_zero], h, fun _ _ => rfl⟩

/-! ## Deletes that are not right -/

/-- All slots of the value hold the number 2. -/
def Full (a : Layout) (st : Storage) (slot : Slot) : Prop :=
  ∀ x, slot.Under a.slots x → st x = some (toBytes 32 2)

/-- The delete is right for the slots of the value. -/
def DeletedBelow (a : Layout) (st st' : Storage) (slot : Slot) : Prop :=
  ∀ x, slot.Under a.slots x → (a.owned st slot x → st' x = none) ∧ (¬ a.owned st slot x → st' x = st x)

/-- A delete that is right where all slots are full is right. There is a last slot, if any, and the delete
does not get behind it. -/
structure Tight (a : Layout) (d : Delete) : Prop where
  last : a.isVoid = false → ∃ m < a.slots, (∀ st slot, a.owned st slot (slot.add m)) ∧
    ∀ st slot st' slot', Uniform st → d st slot = some (st', slot') →
      ∀ i, m < i → st' (slot.add i) = st (slot.add i)
  needed : ∀ st slot st' slot', Uniform st → a.Full st slot → d st slot = some (st', slot') →
    a.DeletedBelow st st' slot → a.deletes = true

theorem tight_leaf (reach : Nat) :
    Tight (leaf reach) fun st slot => some (st.set slot none, slot.add reach) where
  last _ := by
    refine ⟨0, Nat.zero_lt_one, fun _ slot => Slot.add_zero slot, ?_⟩
    rintro st slot st' slot' - h i hi
    cases h
    refine if_neg fun heq => ?_
    rw [← Slot.add_zero slot, Slot.add_add, Nat.zero_add] at heq
    have hzero := Slot.add_inj heq
    omega
  needed _ _ _ _ _ _ _ _ := rfl

theorem Tight.of_void (hl : Lawful a) (h : a.isVoid = true) : Tight a d where
  last := by
    intro hfalse
    rw [h] at hfalse
    cases hfalse
  needed _ _ _ _ _ _ _ _ := hl.void_deletes h

/-- What the first delete leaves of a full row -/
theorem Full.behind {st st1 : Storage} {slot : Slot} (hfull : (a.seq b).Full st slot)
    (hframe : ∀ x, ¬ slot.Under a.slots x → st1 x = st x) : b.Full st1 (slot.add a.slots) := by
  intro x hx
  rw [hframe x fun hu => hu.not_behind hx]
  exact hfull x (hx.mono (Nat.le_refl _))

theorem Full.left {st : Storage} {slot : Slot} (hfull : (a.seq b).Full st slot) : a.Full st slot :=
  fun x hx => hfull x (hx.left (Nat.le_add_right _ _))

theorem Tight.seq (hla : Lawful a) (hlb : Lawful b) (hfa : Follows a d) (hfb : Follows b e)
    (ha : Tight a d) (hb : Tight b e) : Tight (a.seq b) (d.andThen e) where
  last h := by
    cases hvoid : b.isVoid with
    | true =>
      have hva : a.isVoid = false := by simpa [Layout.seq, hvoid] using h
      obtain ⟨m, hm, hown, hlast⟩ := ha.last hva
      refine ⟨m, Nat.lt_add_right _ hm, fun st slot => .inl (hown st slot), ?_⟩
      intro st slot st' slot' hu hrun i hi
      obtain ⟨st1, hd, -⟩ := hfa.total st slot hu
      simp only [Delete.andThen, hd, hfb.void hvoid, Option.bind_eq_bind, Option.bind_some] at hrun
      cases hrun
      exact hlast st slot st' _ hu hd i hi
    | false =>
      obtain ⟨m, hm, hown, hlast⟩ := hb.last hvoid
      refine ⟨a.slots + m, Nat.add_lt_add_left hm _, fun st slot => .inr ?_, ?_⟩
      · rw [← Slot.add_add]
        exact hown st (slot.add a.slots)
      · intro st slot st' slot' hu hrun i hi
        obtain ⟨st1, hd, hu1, hframe⟩ := hfa.total st slot hu
        simp only [Delete.andThen, hd, Option.bind_eq_bind, Option.bind_some] at hrun
        have hle := hla.reach_le
        have hkeep := hlast st1 (slot.add a.reach) st' slot' hu1 hrun (i - a.reach) (by omega)
        rw [Slot.add_add, Nat.add_sub_cancel' (by omega)] at hkeep
        rw [hkeep]
        exact hframe _ fun hu => absurd (Slot.under_add_iff.mp hu) (by omega)
  needed st slot st' slot' hu hfull hrun hbelow := by
    obtain ⟨st1, hd, hu1, hframe⟩ := hfa.total st slot hu
    simp only [Delete.andThen, hd, Option.bind_eq_bind, Option.bind_some] at hrun
    -- the slots of the first value are as its own delete leaves them
    have hfirst : (∀ x, slot.Under a.slots x → st' x = st1 x) → a.deletes = true := by
      intro hsame
      refine ha.needed st slot st1 _ hu hfull.left hd fun x hx => ?_
      have hin : slot.Under (a.seq b).slots x := hx.left (Nat.le_add_right _ _)
      rw [← hsame x hx]
      refine ⟨fun hown => (hbelow x hin).1 (.inl hown), fun hown => (hbelow x hin).2 ?_⟩
      rintro (h | h)
      · exact hown h
      · exact hx.not_behind (hlb.within h)
    cases hvoid : b.isVoid with
    | true =>
      rw [hfb.void hvoid] at hrun
      cases hrun
      simp [Layout.seq, hfirst fun _ _ => rfl, hlb.void_deletes hvoid, hvoid]
    | false =>
      obtain ⟨m, hm, hown, hlast⟩ := hb.last hvoid
      have hle := hla.reach_le
      have hreach : a.reach = a.slots := by
        by_contra hne
        -- the last slot of the second value is not reached
        have hin : slot.Under (a.seq b).slots (slot.add (a.slots + m)) :=
          Slot.under_add slot (Nat.add_lt_add_left hm _)
        have hgone := (hbelow _ hin).1 (.inr (by rw [← Slot.add_add]; exact hown st (slot.add a.slots)))
        have hkeep := hlast st1 (slot.add a.reach) st' slot' hu1 hrun (a.slots + m - a.reach) (by omega)
        rw [Slot.add_add, Nat.add_sub_cancel' (by omega),
          hframe _ fun hu => absurd (Slot.under_add_iff.mp hu) (by omega), hfull _ hin, hgone] at hkeep
        cases hkeep
      obtain ⟨st2, he, -, hframe'⟩ := hfb.total st1 (slot.add a.reach) hu1
      rw [he] at hrun
      cases hrun
      rw [hreach] at he hframe'
      have hsame : ∀ x, slot.Under a.slots x → st' x = st1 x := fun x hx => hframe' x hx.not_behind
      have hsecond : b.deletes = true := by
        refine hb.needed st1 (slot.add a.slots) st' _ hu1 (hfull.behind hframe) he fun x hx => ?_
        have hin : slot.Under (a.seq b).slots x := hx.mono (Nat.le_refl _)
        have hcongr : b.owned st1 (slot.add a.slots) x ↔ b.owned st (slot.add a.slots) x :=
          hlb.owned_congr (fun y hy => hframe y fun hu => hu.not_behind hy) x
        rw [hcongr, hframe x fun hu => hu.not_behind hx]
        refine ⟨fun h => (hbelow x hin).1 (.inr h), fun h => (hbelow x hin).2 ?_⟩
        rintro (h' | h')
        · exact (hla.within h').not_behind hx
        · exact h h'
      simp [Layout.seq, hfirst hsame, hsecond, hreach]

theorem tight_nil : Tight nil fun st slot => some (st, slot) := .of_void lawful_nil rfl

theorem Tight.times (hla : Lawful a) (hfa : Follows a d) (ha : Tight a d) (n : Nat) :
    Tight (a.times n) (d.times n) := by
  induction n with
  | zero => exact tight_nil
  | succ n ih => exact .seq hla (hla.times n) hfa (hfa.times hla n) ha ih

theorem Tight.dynamic (hla : Lawful a) (hfa : Follows a d) (ha : Tight a d) : Tight a.dynamic d.dynamic where
  last _ := by
    refine ⟨0, Nat.zero_lt_one, fun _ slot => .inl (Slot.add_zero slot), ?_⟩
    intro st slot st' slot' hu hrun i hi
    obtain ⟨length, hlength⟩ := hu.length slot
    obtain ⟨st1, hd, -, hframe⟩ := (hfa.times hla length).total st (.elem slot 0) hu
    simp only [Delete.dynamic, hlength, hd, Option.bind_eq_bind, Option.bind_some] at hrun
    cases hrun
    have hne : slot.add i ≠ slot := by
      intro heq
      rw [← Slot.add_zero slot, Slot.add_add, Nat.zero_add] at heq
      have hzero := Slot.add_inj heq
      omega
    exact (if_neg hne).trans (hframe _ (Slot.add_not_under_elem slot i 0 _))
  needed st slot st' slot' hu hfull hrun hbelow := by
    have hlength := length_of_some (hfull slot (Slot.under_self slot))
    obtain ⟨st1, hd, -⟩ := (hfa.times hla 2).total st (.elem slot 0) hu
    simp only [Delete.dynamic, hlength, hd, Option.bind_eq_bind, Option.bind_some] at hrun
    cases hrun
    refine (ha.times hla hfa 2).needed st (.elem slot 0) st1 _ hu (fun x hx => hfull x hx.of_elem) hd
      fun x hx => ?_
    have hne : x ≠ slot := fun heq => Slot.not_under_elem slot 0 _ (heq ▸ hx)
    have hx' := hbelow x hx.of_elem
    rw [show st1.set slot none x = st1 x from if_neg hne] at hx'
    refine ⟨fun hown => hx'.1 (.inr ⟨2, hlength, hown⟩), fun hown => hx'.2 ?_⟩
    rintro (heq | ⟨length, hlength', h⟩)
    · exact hne heq
    · cases Option.some.inj (hlength.symm.trans hlength')
      exact hown h

end Layout

end Solang.Emit.Polkadot
