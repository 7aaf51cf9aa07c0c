import Solang.Emit.SolanaMappingRuns

/-!
# Lookups in a mapping

`Chain m ptr es`: the entries `es` are linked from the word at `ptr` on. The chain of each bucket
is made of the entries with that bucket, in the order in which they were made.
-/

namespace Solang.Emit.Solana

open Memory

namespace Table

variable {T : Table} {al : Allocator} {base fixed : Nat}

/-! ## Buckets -/

theorem bucketIndex_spec {key : Key} (hT : T.Ok base fixed) (hkey : T.KeyOk key)
    (hplain : ¬T.Narrow key) : ∃ j < bucketSize, bucketIndex T.keyTy key = j := by
  have hwide : ∀ h, ∃ j : Nat, j < 251 ∧
      (if h % 251 < 2 ^ 63 then ((h % 251 : Nat) : Int) else (h % 251 : Nat) - 2 ^ 64) = j := by
    intro h
    have hlt : h % 251 < 251 := Nat.mod_lt _ (by omega)
    exact ⟨h % 251, hlt, if_pos (by omega)⟩
  unfold bucketIndex bucketSize
  cases key with
  | address data | bytes data =>
    rw [hkey.1]
    exact hwide _
  | int v =>
    obtain ⟨bits, hty, hv⟩ := hkey
    rw [hty]
    unfold hash
    by_cases hbits : 64 < bits
    · simp only [hbits, if_true]
      exact hwide _
    · simp only [hbits, if_false]
      obtain rfl | ⟨h8, hmod⟩ := hT.width bits hty
      · exact ⟨0, by omega, by simp [Nat.mod_one]⟩
      · by_cases heq : bits = 8
        · subst heq
          have hnarrow : v % 251 < 128 := by
            by_contra hno
            exact hplain ⟨v, rfl, hty, Nat.le_of_not_lt hno⟩
          exact ⟨v % 251, Nat.mod_lt _ (by omega), if_pos hnarrow⟩
        · have hpow : 2 ^ 15 ≤ 2 ^ (bits - 1) := Nat.pow_le_pow_right (by omega) (by omega)
          have hpow' : 2 ^ 16 ≤ 2 ^ bits := Nat.pow_le_pow_right (by omega) (by omega)
          have hbucket : 251 % 2 ^ bits = 251 := Nat.mod_eq_of_lt (by omega)
          have hlt : v % 251 < 251 := Nat.mod_lt _ (by omega)
          rw [hbucket]
          exact ⟨v % 251, hlt, if_pos (by omega)⟩

theorem bucketWord_eq {key : Key} {j : Nat} (hj : bucketIndex T.keyTy key = j) :
    T.bucketWord key = T.slot + 4 * j := by
  unfold bucketWord
  rw [hj]
  omega

/-! ## Chains -/

variable (T) in
def Chain (m : Memory) : Nat → List Entry → Prop
  | ptr, [] => m.load ptr 4 = 0
  | ptr, e :: es => m.load ptr 4 = e.offset ∧ Chain m (e.offset + T.nextAt) es

variable (T) in
/-- The word at the end of a chain -/
def lastWord : Nat → List Entry → Nat
  | ptr, [] => ptr
  | _, e :: es => lastWord (e.offset + T.nextAt) es

variable (T) in
/-- All words of a chain -/
def words (ptr : Nat) (es : List Entry) : List Nat := ptr :: es.map (·.offset + T.nextAt)

variable {m m' : Memory} {ptr : Nat} {es : List Entry} {e : Entry} {key : Key}

theorem lastWord_mem (T : Table) (ptr : Nat) (es : List Entry) :
    T.lastWord ptr es ∈ T.words ptr es := by
  induction es generalizing ptr with
  | nil => exact List.mem_cons_self
  | cons e es ih => exact List.mem_cons_of_mem _ (ih _)

theorem Chain.frame (h : T.Chain m ptr es) (hsame : ∀ w ∈ T.words ptr es, m'.load w 4 = m.load w 4) :
    T.Chain m' ptr es := by
  induction es generalizing ptr with
  | nil => exact (hsame ptr List.mem_cons_self).trans h
  | cons e es ih =>
    obtain ⟨hptr, hrest⟩ := h
    exact ⟨(hsame ptr List.mem_cons_self).trans hptr,
      ih hrest fun w hw => hsame w (List.mem_cons_of_mem _ hw)⟩

/-- An entry at the end -/
theorem Chain.append (h : T.Chain m ptr es) (hnodup : (T.words ptr es).Nodup)
    (hsame : ∀ w ∈ T.words ptr es, w ≠ T.lastWord ptr es → m'.load w 4 = m.load w 4)
    (hlast : m'.load (T.lastWord ptr es) 4 = e.offset) (hnew : m'.load (e.offset + T.nextAt) 4 = 0) :
    T.Chain m' ptr (es ++ [e]) := by
  induction es generalizing ptr with
  | nil => exact ⟨hlast, hnew⟩
  | cons e' es ih =>
    obtain ⟨hptr, hrest⟩ := h
    obtain ⟨hnot, hnodup'⟩ := List.nodup_cons.mp hnodup
    refine ⟨?_, ih hrest hnodup' (fun w hw => hsame w (List.mem_cons_of_mem _ hw)) hlast⟩
    rw [hsame ptr List.mem_cons_self, hptr]
    intro heq
    have hmem : T.lastWord ptr (e' :: es) ∈ (e' :: es).map (·.offset + T.nextAt) :=
      lastWord_mem T (e'.offset + T.nextAt) es
    rw [← heq] at hmem
    exact hnot hmem

/-- The walk over a chain finds the entry of the key, or the end. -/
theorem walk_spec (al : Allocator) (h : T.Chain m ptr es) (hne : ∀ e ∈ es, e.offset ≠ 0)
    (hmatch : ∀ e ∈ es, T.matchesKey al m e.offset key = true ↔ e.key = key) {fuel : Nat}
    (hfuel : es.length < fuel) :
    (∃ e ∈ es, e.key = key ∧ T.walk al m key fuel ptr = some (.entry e.offset)) ∨
      (∀ e ∈ es, e.key ≠ key) ∧ T.walk al m key fuel ptr = some (.last (T.lastWord ptr es)) := by
  induction es generalizing ptr fuel with
  | nil =>
    obtain ⟨n, rfl⟩ : ∃ n, fuel = n + 1 := ⟨fuel - 1, by simp at hfuel; omega⟩
    refine .inr ⟨nofun, ?_⟩
    have hzero : m.load ptr 4 = 0 := h
    simp only [walk, hzero, if_true, lastWord]
  | cons e es ih =>
    obtain ⟨n, rfl⟩ : ∃ n, fuel = n + 1 := ⟨fuel - 1, by simp at hfuel; omega⟩
    obtain ⟨hptr, hrest⟩ := h
    have hoff := hne e List.mem_cons_self
    have hiff := hmatch e List.mem_cons_self
    simp only [walk, hptr, hoff, if_false]
    by_cases hkey : e.key = key
    · rw [if_pos (hiff.mpr hkey)]
      exact .inl ⟨e, List.mem_cons_self, hkey, rfl⟩
    · rw [if_neg fun hm => hkey (hiff.mp hm)]
      obtain ⟨e', he', hk, hw⟩ | ⟨hall, hw⟩ := ih hrest
          (fun e he => hne e (List.mem_cons_of_mem _ he))
          (fun e he => hmatch e (List.mem_cons_of_mem _ he)) (by simpa using hfuel)
      · exact .inl ⟨e', List.mem_cons_of_mem _ he', hk, hw⟩
      · exact .inr ⟨List.forall_mem_cons.mpr ⟨hkey, hall⟩, hw⟩

/-- More steps do not change where the walk ends. -/
theorem walk_mono {n fuel : Nat} {r : Found} (h : T.walk al m key n ptr = some r) (hle : n ≤ fuel) :
    T.walk al m key fuel ptr = some r := by
  induction n generalizing ptr fuel with
  | zero => cases h
  | succ n ih =>
    obtain ⟨fuel, rfl⟩ : ∃ k, fuel = k + 1 := ⟨fuel - 1, by omega⟩
    unfold walk at h ⊢
    simp only at h ⊢
    split at h
    next hzero => rwa [if_pos hzero]
    next hzero =>
      rw [if_neg hzero]
      split at h
      next hmatch => rwa [if_pos hmatch]
      next hmatch =>
        rw [if_neg hmatch]
        exact ih h (by omega)

/-! ## Keys -/

variable (T) in
/-- The key of an entry in account data -/
def HasKey (m : Memory) (e : Entry) : Prop :=
  match e.key with
  | .int v => m.load e.offset T.keySize = v
  | .address data => m.bytes e.offset 32 = data
  | .bytes data => m.load e.offset 4 = e.keyOffset ∧ m.bytes e.keyOffset data.length = data ∧
    (data = [] → e.keyOffset = 0)

theorem matchesKey_spec (he : T.KeyOk e.key) (hkey : T.KeyOk key) (hhas : T.HasKey m e)
    (hlen : ∀ data, e.key = .bytes data → al.len m e.keyOffset = data.length) :
    T.matchesKey al m e.offset key = true ↔ e.key = key := by
  obtain ⟨key', offset, keyOffset⟩ := e
  cases key' with
  | int v' =>
    obtain ⟨bits, hty, -⟩ := he
    have hload : m.load offset T.keySize = v' := hhas
    cases key with
    | int v => simp [matchesKey, hload]
    | address data | bytes data => cases hty.symm.trans hkey.1
  | address data' =>
    have hload : m.bytes offset 32 = data' := hhas
    cases key with
    | int v =>
      obtain ⟨bits, hty, -⟩ := hkey
      cases hty.symm.trans he.1
    | address data => simp [matchesKey, hload]
    | bytes data => cases he.1.symm.trans hkey.1
  | bytes data' =>
    obtain ⟨hload, hbytes, -⟩ := hhas
    have hlen' := hlen data' rfl
    cases key with
    | int v =>
      obtain ⟨bits, hty, -⟩ := hkey
      cases hty.symm.trans he.1
    | address data => cases he.1.symm.trans hkey.1
    | bytes data =>
      simp only at hload hbytes hlen'
      simp only [matchesKey, hload, hlen', hbytes, Bool.and_eq_true, decide_eq_true_eq, Key.bytes.injEq]
      exact ⟨fun h => h.2, fun h => ⟨by rw [h], h⟩⟩

theorem HasKey.frame (hhas : T.HasKey m e) (hkey : T.KeyOk e.key)
    (hsame : Agree m m' e.offset (e.offset + T.keySize))
    (hdata : ∀ data, e.key = .bytes data → Agree m m' e.keyOffset (e.keyOffset + data.length)) :
    T.HasKey m' e := by
  obtain ⟨key', offset, keyOffset⟩ := e
  cases key' with
  | int v => exact (hsame.load (Nat.le_refl _) (Nat.le_refl _)).trans hhas
  | address data =>
    rw [show T.keySize = 32 by rw [keySize, hkey.1]] at hsame
    exact (hsame.bytes (Nat.le_refl _) (Nat.le_refl _)).trans hhas
  | bytes data =>
    obtain ⟨hload, hbytes, hnil⟩ := hhas
    rw [show T.keySize = 4 by rw [keySize, hkey.1]] at hsame
    exact ⟨(hsame.load (Nat.le_refl _) (Nat.le_refl _)).trans hload,
      ((hdata data rfl).bytes (Nat.le_refl _) (Nat.le_refl _)).trans hbytes, hnil⟩

/-! ## New entries -/

theorem le_up (n : Nat) : n ≤ up n := by
  unfold up
  omega

theorem store_of_not {a n v x : Nat} (hx : ¬(a ≤ x ∧ x < a + n)) : m.store a n v x = m x :=
  if_neg hx

theorem write_of_not {a x : Nat} {data : List UInt8} (hx : ¬(a ≤ x ∧ x < a + data.length)) :
    m.write a data x = m x :=
  if_neg hx

theorem write_nil (m : Memory) (a : Nat) : m.write a [] = m := by
  funext x
  exact write_of_not (by simp)

theorem int_lt_keySize {bits v : Nat} (hty : T.keyTy = .int bits) (hv : v < 2 ^ bits) :
    v < 256 ^ T.keySize := by
  have hsize : T.keySize = (bits + 7) / 8 := by
    unfold keySize
    rw [hty]
  have hpow : 2 ^ bits ≤ (2 ^ 8) ^ ((bits + 7) / 8) := by
    rw [← Nat.pow_mul]
    exact Nat.pow_le_pow_right (by omega) (by omega)
  rw [hsize]
  exact Nat.lt_of_lt_of_le hv hpow

section New

variable (C : Contract al base fixed) (hT : T.Ok base fixed) {bs : List Block} {offset : Nat}

include hT

/-- The key is written in the entry, and a string in a block of its own. -/
theorem setKey_spec (hkey : T.KeyOk key) (hbs : C.Holds m ((offset, T.entryLength) :: bs))
    (hset : T.setKey al m offset key = some m') :
    C.Holds m' (T.blocks ⟨key, offset, m'.load offset 4⟩ ++ bs) ∧
      T.HasKey m' ⟨key, offset, m'.load offset 4⟩ ∧
      ∀ x, (x < fixed ∨ ∃ b ∈ (offset, T.entryLength) :: bs, Block.Has b x) →
        ¬(offset ≤ x ∧ x < offset + T.keySize) → m' x = m x := by
  have hentry := C.bound hbs (offset, T.entryLength) List.mem_cons_self
  have hup := le_up T.entryLength
  have h1 := hT.key
  have h2 := hT.next
  have h3 := hT.value
  -- a byte of the key is in the block of the entry
  have hin : ∀ x, offset ≤ x → x < offset + T.keySize →
      (base ≤ x ∧ x < fixed) ∨ ∃ b ∈ (offset, T.entryLength) :: bs, Block.Has b x := by
    intro x hx hx'
    exact .inr ⟨_, List.mem_cons_self, hx, show x < offset + up T.entryLength by omega⟩
  cases key with
  | int v =>
    obtain ⟨bits, hty, hv⟩ := hkey
    obtain rfl := Option.some.inj hset
    refine ⟨C.frame hbs fun x hx => ?_, load_store_of_lt (int_lt_keySize hty hv), fun x _ hx => store_of_not hx⟩
    by_contra hno
    refine hx (store_of_not fun hkey => hno (hin x hkey.1 hkey.2))
  | address data =>
    obtain ⟨hty, hlen⟩ := hkey
    have hsize : T.keySize = 32 := by
      unfold keySize
      rw [hty]
    obtain rfl := Option.some.inj hset
    rw [hsize] at hin ⊢
    refine ⟨C.frame hbs fun x hx => ?_, ?_, fun x _ hx => write_of_not (by rwa [hlen])⟩
    · by_contra hno
      refine hx (write_of_not fun hkey => hno (hin x hkey.1 ?_))
      rw [← hlen]
      exact hkey.2
    · show (m.write offset data).bytes offset 32 = data
      rw [← hlen]
      exact bytes_write m offset data
  | bytes data =>
    obtain ⟨hty, hlen⟩ := hkey
    have hsize : T.keySize = 4 := by
      unfold keySize
      rw [hty]
    rw [hsize] at hin ⊢
    obtain ⟨⟨k, m1⟩, halloc, hm'⟩ := Option.bind_eq_some_iff.mp hset
    obtain rfl := Option.some.inj hm'
    cases data with
    | nil =>
      obtain ⟨rfl, rfl⟩ := Prod.mk.inj (Option.some.inj ((C.alloc_zero m).symm.trans halloc))
      rw [write_nil]
      have hload : (m.store offset 4 0).load offset 4 = 0 := load_store_of_lt (by omega)
      refine ⟨C.frame hbs fun x hx => ?_, ⟨rfl, rfl, fun _ => hload⟩, fun x _ hx => store_of_not hx⟩
      by_contra hno
      exact hx (store_of_not fun hkey => hno (hin x hkey.1 hkey.2))
    | cons b data =>
      obtain ⟨hholds, hold⟩ := C.alloc hbs (by simp) hlen halloc
      obtain ⟨-, hkfixed, hkbound⟩ := C.bound hholds _ List.mem_cons_self
      have hapart := (List.pairwise_cons.mp (C.apart hholds)).1
      have hsep := hapart _ List.mem_cons_self
      have hupk := le_up (b :: data).length
      simp only at hkfixed hkbound hsep
      generalize hn : (b :: data).length = n at *
      -- the string is in its own block
      have hout : ∀ x, (x < fixed ∨ ∃ c ∈ (offset, T.entryLength) :: bs, Block.Has c x) →
          ¬(k ≤ x ∧ x < k + n) := by
        rintro x (hx | ⟨c, hc, hcx, hcx'⟩) ⟨hk, hk'⟩
        · omega
        · have hsep' := hapart c hc
          simp only at hsep'
          omega
      have hagree : Agree (m1.store offset 4 k) ((m1.store offset 4 k).write k (b :: data)) offset
          (offset + 4) := Agree.refl.write (by omega)
      have hload : ((m1.store offset 4 k).write k (b :: data)).load offset 4 = k := by
        rw [hagree.load (Nat.le_refl _) (Nat.le_refl _)]
        exact load_store_of_lt (by omega)
      refine ⟨C.frame (C.perm hholds ?_) fun x hx => ?_, ⟨rfl, ?_, nofun⟩, fun x hx hkey => ?_⟩
      · rw [hload]
        simp only [blocks, hn]
        exact List.Perm.swap _ _ _
      · rw [hload]
        simp only [blocks, hn]
        by_cases hstr : k ≤ x ∧ x < k + n
        · exact .inr ⟨(k, n), by simp, hstr.1, show x < k + up n by omega⟩
        · refine .inr ⟨(offset, T.entryLength), by simp, ?_⟩
          by_contra hno
          refine hx ?_
          rw [write_of_not (by rwa [hn]), store_of_not]
          rintro ⟨hx1, hx2⟩
          exact hno ⟨hx1, show x < offset + up T.entryLength by omega⟩
      · show ((m1.store offset 4 k).write k (b :: data)).bytes _ (b :: data).length = b :: data
        rw [hload]
        exact bytes_write _ _ _
      · rw [write_of_not (by rw [hn]; exact hout x hx), store_of_not hkey]
        exact hold x hx

/-- A new entry: it is zero but for the key, and apart from it only the word at `ptr` is changed. -/
theorem newEntry_spec (hkey : T.KeyOk key) (hbs : C.Holds m bs)
    (hptr : ∀ x, ptr ≤ x → x < ptr + 4 → (base ≤ x ∧ x < fixed) ∨ ∃ b ∈ bs, Block.Has b x)
    (hnew : T.newEntry al m ptr key = some (offset, m')) :
    C.Holds m' (T.blocks ⟨key, offset, m'.load offset 4⟩ ++ bs) ∧
      T.HasKey m' ⟨key, offset, m'.load offset 4⟩ ∧ m'.load ptr 4 = offset ∧
      (∀ x, offset + T.keySize ≤ x → x < offset + T.entryLength → m' x = 0) ∧
      ∀ x, (x < fixed ∨ ∃ b ∈ bs, Block.Has b x) → ¬(ptr ≤ x ∧ x < ptr + 4) → m' x = m x := by
  obtain ⟨⟨o, m1⟩, halloc, hrest⟩ := Option.bind_eq_some_iff.mp hnew
  obtain ⟨m2, hset, hsome⟩ := Option.bind_eq_some_iff.mp hrest
  obtain ⟨rfl, rfl⟩ := Prod.mk.inj (Option.some.inj hsome)
  have h1 := hT.key
  have h2 := hT.next
  have h3 := hT.value
  obtain ⟨hholds, hold⟩ := C.alloc hbs (by omega) hT.length halloc
  obtain ⟨-, hofixed, hobound⟩ := C.bound hholds _ List.mem_cons_self
  have hapart := (List.pairwise_cons.mp (C.apart hholds)).1
  have hup := le_up T.entryLength
  simp only at hofixed hobound hapart
  -- what was there before is not in the new block
  have hout : ∀ x, (x < fixed ∨ ∃ c ∈ bs, Block.Has c x) → ¬(o ≤ x ∧ x < o + up T.entryLength) := by
    rintro x (hx | ⟨c, hc, hcx, hcx'⟩) ⟨hk, hk'⟩
    · omega
    · have hsep := hapart c hc
      omega
  have hword : ∀ x, ptr ≤ x → x < ptr + 4 → x < fixed ∨ ∃ c ∈ bs, Block.Has c x :=
    fun x hx hx' => (hptr x hx hx').imp And.right id
  have hzeroed : C.Holds ((m1.store ptr 4 o).store o (up T.entryLength) 0) ((o, T.entryLength) :: bs) := by
    refine C.frame hholds fun x hx => ?_
    by_cases hblock : o ≤ x ∧ x < o + up T.entryLength
    · exact .inr ⟨_, List.mem_cons_self, hblock⟩
    · rw [store_of_not hblock] at hx
      by_cases hp : ptr ≤ x ∧ x < ptr + 4
      · refine (hptr x hp.1 hp.2).imp id ?_
        rintro ⟨c, hc, hcx⟩
        exact ⟨c, List.mem_cons_of_mem _ hc, hcx⟩
      · exact absurd (store_of_not hp) hx
  obtain ⟨hholds', hhas, hsame⟩ := setKey_spec C hT hkey hzeroed hset
  have hkept : ∀ x, (x < fixed ∨ ∃ b ∈ bs, Block.Has b x) → m2 x = m1.store ptr 4 o x := by
    intro x hx
    have hnot := hout x hx
    rw [hsame x (hx.imp id fun ⟨c, hc, hcx⟩ => ⟨c, List.mem_cons_of_mem _ hc, hcx⟩) (by omega),
      store_of_not hnot]
  refine ⟨hholds', hhas, ?_, fun x hx hx' => ?_, fun x hx hnot => ?_⟩
  · have hagree : Agree (m1.store ptr 4 o) m2 ptr (ptr + 4) := fun x hx hx' => hkept x (hword x hx hx')
    rw [hagree.load (Nat.le_refl _) (Nat.le_refl _)]
    exact load_store_of_lt (by omega)
  · rw [hsame x (.inr ⟨_, List.mem_cons_self, show o ≤ x by omega, show x < o + up T.entryLength by omega⟩)
      (by omega)]
    exact store_zero_apply (by omega) (by omega)
  · rw [hkept x hx, store_of_not hnot]
    exact hold x hx

end New

/-! ## The invariant -/

section Inv

variable (T) (C : Contract al base fixed)

/-- The entries of a bucket -/
def bucket (entries : List Entry) (j : Nat) : List Entry :=
  entries.filter fun e => bucketIndex T.keyTy e.key = j

/-- The entries are in account data, those of each bucket in a chain. -/
structure Inv (s : State) : Prop where
  holds : C.Holds s.mem (T.owned s.entries ++ s.others)
  keyOk : ∀ e ∈ s.entries, T.KeyOk e.key
  hasKey : ∀ e ∈ s.entries, T.HasKey s.mem e
  chain : ∀ j < bucketSize, T.Chain s.mem (T.slot + 4 * j) (T.bucket s.entries j)

variable {T C} {s : State} (hT : T.Ok base fixed) (h : T.Inv C s)

variable {b : Block} {w p x : Nat}

theorem owned_mem (he : e ∈ s.entries) (hb : b ∈ T.blocks e) :
    b ∈ T.owned s.entries ++ s.others :=
  List.mem_append_left _ (List.mem_flatMap.mpr ⟨e, he, hb⟩)

include h

theorem Inv.entry_bound (he : e ∈ s.entries) :
    fixed ≤ e.offset ∧ e.offset + up T.entryLength < 2 ^ 31 :=
  (C.bound h.holds _ (owned_mem he List.mem_cons_self)).2

/-- Blocks of different entries are apart. -/
theorem Inv.entries_apart : s.entries.Pairwise fun e e' => ∀ b ∈ T.blocks e, ∀ c ∈ T.blocks e',
    b.1 + up b.2 ≤ c.1 ∨ c.1 + up c.2 ≤ b.1 := by
  have hpair := (List.pairwise_append.mp (C.apart h.holds)).1
  exact (List.pairwise_flatMap.mp hpair).2

theorem Inv.apart_of_ne {e' : Entry} (he : e ∈ s.entries) (he' : e' ∈ s.entries) (hne : e ≠ e') :
    ∀ b ∈ T.blocks e, ∀ c ∈ T.blocks e', b.1 + up b.2 ≤ c.1 ∨ c.1 + up c.2 ≤ b.1 := by
  have hsymm : Std.Symm fun e e' : Entry => ∀ b ∈ T.blocks e, ∀ c ∈ T.blocks e',
      b.1 + up b.2 ≤ c.1 ∨ c.1 + up c.2 ≤ b.1 :=
    ⟨fun _ _ hab b hb c hc => (hab c hc b hb).symm⟩
  exact h.entries_apart.forall he he' hne

theorem Inv.len {data : List UInt8} (he : e ∈ s.entries) (hdata : e.key = .bytes data) :
    al.len s.mem e.keyOffset = data.length := by
  have hhas := h.hasKey e he
  unfold HasKey at hhas
  rw [hdata] at hhas
  cases data with
  | nil =>
    rw [hhas.2.2 rfl, C.len_zero]
    rfl
  | cons b data =>
    refine C.len h.holds (e.keyOffset, (b :: data).length) (owned_mem he ?_)
    simp [blocks, hdata]

/-! ## Words -/

variable (T s) in
omit h in
/-- The words that hold the offset of an entry -/
def Word (w : Nat) : Prop :=
  (∃ j < bucketSize, w = T.slot + 4 * j) ∨ ∃ e ∈ s.entries, w = e.offset + T.nextAt

omit h in
theorem word_of_mem {j : Nat} (hj : j < bucketSize)
    (hw : w ∈ T.words (T.slot + 4 * j) (T.bucket s.entries j)) : T.Word s w := by
  obtain rfl | hw := List.mem_cons.mp hw
  · exact .inl ⟨j, hj, rfl⟩
  · obtain ⟨e, he, rfl⟩ := List.mem_map.mp hw
    exact .inr ⟨e, (List.mem_filter.mp he).1, rfl⟩

include hT

theorem Inv.entry_offset (he : e ∈ s.entries) : e.offset ≠ 0 := by
  have h1 := (h.entry_bound he).1
  have h2 := hT.fixed
  have h3 := hT.slot
  omega

/-- Different words do not overlap. -/
theorem Inv.words_apart (hw : T.Word s w) (hp : T.Word s p) (hne : w ≠ p) :
    w + 4 ≤ p ∨ p + 4 ≤ w := by
  have hfixed := hT.fixed
  have hup := le_up T.entryLength
  have h2 := hT.next
  have h3 := hT.value
  obtain ⟨j, hj, rfl⟩ | ⟨e, he, rfl⟩ := hw
  · obtain ⟨j', hj', rfl⟩ | ⟨e', he', rfl⟩ := hp
    · omega
    · have hb := (h.entry_bound he').1
      omega
  · have hb := (h.entry_bound he).1
    obtain ⟨j', hj', rfl⟩ | ⟨e', he', rfl⟩ := hp
    · omega
    · have hne' : e ≠ e' := by
        rintro rfl
        exact hne rfl
      have hsep := h.apart_of_ne he he' hne' _ List.mem_cons_self _ List.mem_cons_self
      simp only at hsep
      omega

omit h in
/-- A word is in a storage variable or in an entry. -/
theorem word_in (hw : T.Word s w) (hx : w ≤ x) (hx' : x < w + 4) :
    (base ≤ x ∧ x < fixed) ∨ ∃ b ∈ T.owned s.entries ++ s.others, Block.Has b x := by
  have hbase := hT.base
  have hfixed := hT.fixed
  have hup := le_up T.entryLength
  have h2 := hT.next
  have h3 := hT.value
  obtain ⟨j, hj, rfl⟩ | ⟨e, he, rfl⟩ := hw
  · exact .inl (by omega)
  · refine .inr ⟨_, owned_mem he List.mem_cons_self, ?_, ?_⟩
    · show e.offset ≤ x
      omega
    · show x < e.offset + up T.entryLength
      omega

theorem Inv.words_nodup {j : Nat} (hj : j < bucketSize) :
    (T.words (T.slot + 4 * j) (T.bucket s.entries j)).Nodup := by
  have hfixed := hT.fixed
  have hup := le_up T.entryLength
  have h2 := hT.next
  have h3 := hT.value
  refine List.nodup_cons.mpr ⟨fun hmem => ?_, ?_⟩
  · obtain ⟨e, he, heq⟩ := List.mem_map.mp hmem
    have hb := (h.entry_bound (List.mem_filter.mp he).1).1
    omega
  · have hpair := h.entries_apart.sublist (List.filter_sublist (l := s.entries)
      (p := fun e => bucketIndex T.keyTy e.key = j))
    refine List.pairwise_map.mpr (hpair.imp fun {e e'} hsep heq => ?_)
    have hsep' := hsep _ List.mem_cons_self _ List.mem_cons_self
    simp only at hsep'
    omega

omit h in
/-- A byte behind the storage variables that is in no entry at the place of the next field -/
theorem not_in_word (hp : T.Word s p) (hx : fixed ≤ x)
    (hnext : ∀ e ∈ s.entries, ¬(e.offset + T.nextAt ≤ x ∧ x < e.offset + T.nextAt + 4)) :
    ¬(p ≤ x ∧ x < p + 4) := by
  have hfixed := hT.fixed
  rintro ⟨hpx, hpx'⟩
  obtain ⟨j, hj, rfl⟩ | ⟨e, he, rfl⟩ := hp
  · omega
  · exact hnext e he ⟨hpx, hpx'⟩

/-- The bytes of an entry other than those of the next field -/
theorem Inv.entry_not_word (he : e ∈ s.entries) (hp : T.Word s p) (hx : e.offset ≤ x)
    (hx' : x < e.offset + up T.entryLength)
    (hnext : x < e.offset + T.nextAt ∨ e.offset + T.valueAt ≤ x) :
    ¬(p ≤ x ∧ x < p + 4) := by
  have hup := le_up T.entryLength
  have h2 := hT.next
  have h3 := hT.value
  have hb := (h.entry_bound he).1
  refine not_in_word hT hp (by omega) fun e' he' => ?_
  by_cases heq : e' = e
  · subst heq
    omega
  · have hsep := h.apart_of_ne he' he heq _ List.mem_cons_self _ List.mem_cons_self
    simp only at hsep
    omega

theorem Inv.string_not_word (he : e ∈ s.entries) (hp : T.Word s p) (hb : b ∈ (T.blocks e).tail)
    (hx : Block.Has b x) : ¬(p ≤ x ∧ x < p + 4) := by
  have hup := le_up T.entryLength
  have h2 := hT.next
  have h3 := hT.value
  have hmem : b ∈ T.blocks e := List.mem_of_mem_tail hb
  have hbound := (C.bound h.holds b (owned_mem he hmem)).2.1
  obtain ⟨hx1, hx2⟩ := hx
  refine not_in_word hT hp (by omega) fun e' he' => ?_
  have hsep : e'.offset + up T.entryLength ≤ b.1 ∨ b.1 + up b.2 ≤ e'.offset := by
    by_cases heq : e' = e
    · subst heq
      have hpair := (List.pairwise_append.mp (C.apart h.holds)).1
      exact (List.pairwise_cons.mp ((List.pairwise_flatMap.mp hpair).1 e' he')).1 b hb
    · exact h.apart_of_ne he' he heq _ List.mem_cons_self b hmem
  omega

theorem Inv.others_not_word (hp : T.Word s p) (hb : b ∈ s.others) (hx : Block.Has b x) :
    ¬(p ≤ x ∧ x < p + 4) := by
  have hup := le_up T.entryLength
  have h2 := hT.next
  have h3 := hT.value
  have hbound := (C.bound h.holds b (List.mem_append_right _ hb)).2.1
  obtain ⟨hx1, hx2⟩ := hx
  refine not_in_word hT hp (by omega) fun e' he' => ?_
  have hmem : (e'.offset, T.entryLength) ∈ T.owned s.entries :=
    List.mem_flatMap.mpr ⟨e', he', List.mem_cons_self⟩
  have hsep := (List.pairwise_append.mp (C.apart h.holds)).2.2 _ hmem b hb
  simp only at hsep
  omega

end Inv

/-! ## Lookups -/

section Step

variable {C : Contract al base fixed} {s : State} (hT : T.Ok base fixed) (h : T.Inv C s)

include hT h

/-- The entries are still there when only a word and new blocks were changed. -/
theorem Inv.hasKey_frame {p : Nat} (hp : T.Word s p) (he : e ∈ s.entries)
    (hsame : ∀ x, (x < fixed ∨ ∃ b ∈ T.owned s.entries ++ s.others, Block.Has b x) →
      ¬(p ≤ x ∧ x < p + 4) → m' x = s.mem x) : T.HasKey m' e := by
  have hup := le_up T.entryLength
  have h1 := hT.key
  have h2 := hT.next
  have h3 := hT.value
  refine (h.hasKey e he).frame (h.keyOk e he) (fun x hx hx' => ?_) fun data hdata x hx hx' => ?_
  · have hin : Block.Has (e.offset, T.entryLength) x := ⟨hx, show x < e.offset + up T.entryLength by omega⟩
    exact hsame x (.inr ⟨_, owned_mem he List.mem_cons_self, hin⟩)
      (h.entry_not_word hT he hp hx (by omega) (.inl (by omega)))
  · cases data with
    | nil =>
      rw [List.length_nil] at hx'
      omega
    | cons b data =>
      have hblock : (e.keyOffset, (b :: data).length) ∈ (T.blocks e).tail := by
        simp [blocks, hdata]
      have hup' := le_up (b :: data).length
      have hin : Block.Has (e.keyOffset, (b :: data).length) x :=
        ⟨hx, show x < e.keyOffset + up (b :: data).length by omega⟩
      exact hsame x (.inr ⟨_, owned_mem he (List.mem_of_mem_tail hblock), hin⟩)
        (h.string_not_word hT he hp hblock hin)

theorem Inv.load_word {p w : Nat} (hp : T.Word s p) (hw : T.Word s w) (hne : w ≠ p)
    (hsame : ∀ x, (x < fixed ∨ ∃ b ∈ T.owned s.entries ++ s.others, Block.Has b x) →
      ¬(p ≤ x ∧ x < p + 4) → m' x = s.mem x) : m'.load w 4 = s.mem.load w 4 := by
  have hsep := h.words_apart hT hw hp hne
  have hagree : Agree s.mem m' w (w + 4) := by
    intro x hx hx'
    exact hsame x ((word_in hT hw hx hx').imp And.right id) (by omega)
  exact hagree.load (Nat.le_refl _) (Nat.le_refl _)

/-- Different buckets have different words. -/
theorem Inv.words_ne {w p j j' : Nat} (hj : j < bucketSize) (hj' : j' < bucketSize) (hne : j ≠ j')
    (hw : w ∈ T.words (T.slot + 4 * j) (T.bucket s.entries j))
    (hp : p ∈ T.words (T.slot + 4 * j') (T.bucket s.entries j')) : w ≠ p := by
  have hfixed := hT.fixed
  have hup := le_up T.entryLength
  have h2 := hT.next
  have h3 := hT.value
  obtain rfl | hw := List.mem_cons.mp hw
  · obtain rfl | hp := List.mem_cons.mp hp
    · omega
    · obtain ⟨e, he, rfl⟩ := List.mem_map.mp hp
      have hb := (h.entry_bound (List.mem_filter.mp he).1).1
      omega
  · obtain ⟨e, he, rfl⟩ := List.mem_map.mp hw
    obtain ⟨he, hindex⟩ := List.mem_filter.mp he
    have hb := (h.entry_bound he).1
    obtain rfl | hp := List.mem_cons.mp hp
    · omega
    · obtain ⟨e', he', rfl⟩ := List.mem_map.mp hp
      obtain ⟨he', hindex'⟩ := List.mem_filter.mp he'
      have hne' : e ≠ e' := by
        rintro rfl
        have heq := (of_decide_eq_true hindex).symm.trans (of_decide_eq_true hindex')
        omega
      have hsep := h.apart_of_ne he he' hne' _ List.mem_cons_self _ List.mem_cons_self
      simp only at hsep
      omega

variable {ptr j : Nat} (hj : j < bucketSize) (hindex : bucketIndex T.keyTy key = j)
  (hkey : T.KeyOk key) (hptr : ptr = T.lastWord (T.slot + 4 * j) (T.bucket s.entries j))

include hj hindex hkey hptr

omit h hT hindex hkey in
theorem word_ptr : T.Word s ptr := by
  rw [hptr]
  exact word_of_mem hj (lastWord_mem _ _ _)

/-- The state after a new entry -/
theorem inv_new (hholds : C.Holds m' (T.blocks e ++ (T.owned s.entries ++ s.others)))
    (hek : e.key = key) (hhas : T.HasKey m' e) (hload : m'.load ptr 4 = e.offset)
    (hnext : m'.load (e.offset + T.nextAt) 4 = 0)
    (hsame : ∀ x, (x < fixed ∨ ∃ b ∈ T.owned s.entries ++ s.others, Block.Has b x) →
      ¬(ptr ≤ x ∧ x < ptr + 4) → m' x = s.mem x) :
    T.Inv C ⟨m', s.entries ++ [e], s.others⟩ := by
  have hp : T.Word s ptr := word_ptr hj hptr
  refine ⟨?_, ?_, ?_, fun j' hj' => ?_⟩
  · refine C.perm hholds ?_
    have howned : T.owned (s.entries ++ [e]) = T.owned s.entries ++ T.blocks e := by
      simp [owned]
    rw [howned, ← List.append_assoc]
    exact List.Perm.append_right _ List.perm_append_comm
  · intro e' he'
    obtain he' | he' := List.mem_append.mp he'
    · exact h.keyOk e' he'
    · obtain rfl := List.mem_singleton.mp he'
      rw [hek]
      exact hkey
  · intro e' he'
    obtain he' | he' := List.mem_append.mp he'
    · exact h.hasKey_frame hT hp he' hsame
    · obtain rfl := List.mem_singleton.mp he'
      exact hhas
  · have hchain := h.chain j' hj'
    have hbucket : T.bucket (s.entries ++ [e]) j' =
        T.bucket s.entries j' ++ if j' = j then [e] else [] := by
      unfold bucket
      rw [List.filter_append, List.filter_singleton, hek, hindex]
      by_cases heq : j' = j
      · simp [heq]
      · have hne : ¬((j : Int) = j') := by omega
        simp [heq, hne]
    rw [hbucket]
    by_cases heq : j' = j
    · subst heq
      rw [if_pos rfl]
      refine hchain.append (h.words_nodup hT hj) (fun w hw hne => ?_) (by rw [← hptr]; exact hload) hnext
      exact h.load_word hT hp (word_of_mem hj hw) (by rwa [hptr]) hsame
    · rw [if_neg heq, List.append_nil]
      refine hchain.frame fun w hw => h.load_word hT hp (word_of_mem hj' hw) ?_ hsame
      exact h.words_ne hT hj' hj heq hw (by rw [hptr]; exact lastWord_mem _ _ _)

omit hindex hkey in
/-- What a new entry is for the table -/
theorem first_new (hfits : T.valueAt + T.valueSize ≤ T.entryLength)
    (hfresh : ∀ e ∈ s.entries, e.key ≠ key)
    (hholds : C.Holds m' (T.blocks e ++ (T.owned s.entries ++ s.others))) (hek : e.key = key)
    (hzero : ∀ x, e.offset + T.keySize ≤ x → x < e.offset + T.entryLength → m' x = 0)
    (hsame : ∀ x, (x < fixed ∨ ∃ b ∈ T.owned s.entries ++ s.others, Block.Has b x) →
      ¬(ptr ≤ x ∧ x < ptr + 4) → m' x = s.mem x) :
    T.First fixed s key (e.offset + T.valueAt) ⟨m', s.entries ++ [e], s.others⟩ := by
  have hp : T.Word s ptr := word_ptr hj hptr
  have hup := le_up T.entryLength
  have h1 := hT.key
  have h2 := hT.next
  have hnew := (C.bound hholds _ (List.mem_append_left _ List.mem_cons_self)).2.1
  have hapart := (List.pairwise_append.mp (C.apart hholds)).2.2 _ List.mem_cons_self
  simp only at hnew hapart
  have hvalue : ∀ e' ∈ s.entries, ∀ x, T.Value e' x → Block.Has (e'.offset, T.entryLength) x := by
    rintro e' - x ⟨hx, hx'⟩
    exact ⟨show e'.offset ≤ x by omega, show x < e'.offset + up T.entryLength by omega⟩
  refine ⟨hfresh, ⟨e, hek, rfl, rfl⟩, rfl, fun x hx hx' => hzero x (by omega) (by omega),
    fun x hx hx' => ⟨by omega, fun b hb hin => ?_, fun e' he' hin => ?_⟩, fun x hx hnot => ?_,
    fun b hb x hin => ?_, fun e' he' x hin => ?_⟩
  · obtain ⟨hb1, hb2⟩ := hin
    have hsep := hapart b (List.mem_append_right _ hb)
    omega
  · obtain ⟨hb1, hb2⟩ := hvalue e' he' x hin
    have hsep := hapart _ (owned_mem he' List.mem_cons_self)
    simp only at hb1 hb2 hsep
    omega
  · refine hsame x (.inl hx) fun hin => ?_
    obtain ⟨j', hj', rfl⟩ | ⟨e', he', rfl⟩ := hp
    · exact hnot (by omega)
    · have hb := (h.entry_bound he').1
      omega
  · exact hsame x (.inr ⟨b, List.mem_append_right _ hb, hin⟩) (h.others_not_word hT hp hb hin)
  · have hin' := hvalue e' he' x hin
    exact hsame x (.inr ⟨_, owned_mem he' List.mem_cons_self, hin'⟩)
      (h.entry_not_word hT he' hp hin'.1 hin'.2 (.inr hin.1))

end Step

section Run

variable {C : Contract al base fixed} {s : State} (hT : T.Ok base fixed)
  (hfits : T.valueAt + T.valueSize ≤ T.entryLength)

include hT hfits

theorem look_spec (h : T.Inv C s) (hkey : T.KeyOk key) (hplain : ¬T.Narrow key) :
    ∃ n r, (∀ fuel, n ≤ fuel → T.look al s key fuel = some r) ∧
      ∀ v s', r = some (v, s') → (T.Again s key v s' ∨ T.First fixed s key v s') ∧ T.Inv C s' := by
  obtain ⟨j, hj, hindex⟩ := bucketIndex_spec hT hkey hplain
  have hword := bucketWord_eq hindex
  have hmem : ∀ e ∈ T.bucket s.entries j, e ∈ s.entries := fun e he => (List.mem_filter.mp he).1
  have hwalk := walk_spec al (h.chain j hj)
    (fun e he => h.entry_offset hT (hmem e he))
    (fun e he => matchesKey_spec (h.keyOk e (hmem e he)) hkey (h.hasKey e (hmem e he))
      fun data hdata => h.len (hmem e he) hdata) (Nat.lt_succ_self _)
  obtain ⟨e, he, hek, hw⟩ | ⟨hnone, hw⟩ := hwalk
  · refine ⟨(T.bucket s.entries j).length + 1, some (e.offset + T.valueAt, s), fun fuel hle => ?_, ?_⟩
    · have hany : (s.entries.any fun e => e.key = key) = true :=
        List.any_eq_true.mpr ⟨e, hmem e he, by simp [hek]⟩
      unfold look lookup
      rw [hword, walk_mono hw hle]
      simp only [Option.bind_eq_bind, Option.bind_some, hany, if_true]
    · rintro v s' ⟨⟩
      exact ⟨.inl ⟨rfl, e, hmem e he, hek, rfl⟩, h⟩
  · -- an entry of the key would be in the bucket
    have hfresh : ∀ e ∈ s.entries, e.key ≠ key := by
      intro e he heq
      refine hnone e (List.mem_filter.mpr ⟨he, ?_⟩) heq
      rw [heq]
      exact decide_eq_true hindex
    have hany : (s.entries.any fun e => e.key = key) = false :=
      List.any_eq_false.mpr fun e he => by simp [hfresh e he]
    cases hnew : T.newEntry al s.mem (T.lastWord (T.slot + 4 * j) (T.bucket s.entries j)) key with
    | none =>
      refine ⟨(T.bucket s.entries j).length + 1, none, fun fuel hle => ?_, nofun⟩
      unfold look lookup
      rw [hword, walk_mono hw hle]
      simp only [Option.bind_eq_bind, Option.bind_some, hnew]
    | some r =>
      obtain ⟨offset, m'⟩ := r
      have hp : T.Word s (T.lastWord (T.slot + 4 * j) (T.bucket s.entries j)) := word_ptr hj rfl
      obtain ⟨hholds, hhas, hload, hzero, hsame⟩ := newEntry_spec C hT hkey h.holds
        (fun x hx hx' => word_in hT hp hx hx') hnew
      have h1 := hT.key
      have h2 := hT.next
      have h3 := hT.value
      have hnext : m'.load (offset + T.nextAt) 4 = 0 :=
        load_eq_zero fun x hx hx' => hzero x (by omega) (by omega)
      refine ⟨(T.bucket s.entries j).length + 1, some (offset + T.valueAt,
        ⟨m', s.entries ++ [⟨key, offset, m'.load offset 4⟩], s.others⟩), fun fuel hle => ?_, ?_⟩
      · unfold look lookup
        rw [hword, walk_mono hw hle]
        simp only [Option.bind_eq_bind, Option.bind_some, hnew, hany, Nat.add_sub_cancel]
        rfl
      · rintro v s' ⟨⟩
        exact ⟨.inr (first_new hT h hj rfl hfits hfresh hholds rfl hzero hsame),
          inv_new hT h hj hindex hkey rfl hholds rfl hhas hload hnext hsame⟩

/-- What other code does -/
theorem inv_other {mem : Memory} {others : List Block} (h : T.Inv C s)
    (hleaves : T.Leaves C s mem others) : T.Inv C ⟨mem, s.entries, others⟩ := by
  have hup := le_up T.entryLength
  have h1 := hT.key
  have h2 := hT.next
  have h3 := hT.value
  have hentry : ∀ e ∈ s.entries, Agree s.mem mem e.offset (e.offset + T.valueAt) := by
    intro e he x hx hx'
    refine hleaves.entries e he _ List.mem_cons_self x ⟨hx, ?_⟩ fun hvalue => ?_
    · show x < e.offset + up T.entryLength
      omega
    · have hge := hvalue.1
      omega
  refine ⟨hleaves.holds, h.keyOk, fun e he => ?_, fun j hj => ?_⟩
  · refine (h.hasKey e he).frame (h.keyOk e he) ((hentry e he).mono (Nat.le_refl _) (by omega))
      fun data hdata x hx hx' => ?_
    cases data with
    | nil =>
      rw [List.length_nil] at hx'
      omega
    | cons b data =>
      have hblock : (e.keyOffset, (b :: data).length) ∈ (T.blocks e).tail := by
        simp [blocks, hdata]
      have hup' := le_up (b :: data).length
      -- the string is apart from the entry
      have hpair := (List.pairwise_append.mp (C.apart h.holds)).1
      have hsep := (List.pairwise_cons.mp ((List.pairwise_flatMap.mp hpair).1 e he)).1 _ hblock
      simp only at hsep
      refine hleaves.entries e he _ (List.mem_of_mem_tail hblock) x ⟨hx, ?_⟩ fun hvalue => ?_
      · show x < e.keyOffset + up (b :: data).length
        omega
      · obtain ⟨hv1, hv2⟩ := hvalue
        omega
  · refine (h.chain j hj).frame fun w hw => ?_
    obtain ⟨j', hj', rfl⟩ | ⟨e, he, rfl⟩ := word_of_mem hj hw
    · exact hleaves.buckets.load (by omega) (by omega)
    · exact (hentry e he).load (by omega) (by omega)

theorem run_correct {ops : List Op} (h : T.Inv C s) (hvalid : T.Valid C s ops)
    (hplain : ∀ key, Op.lookup key ∈ ops → ¬T.Narrow key) : T.Correct al fixed s ops := by
  induction ops generalizing s with
  | nil => trivial
  | cons op ops ih =>
    have hrest : ∀ key, Op.lookup key ∈ ops → ¬T.Narrow key :=
      fun key hmem => hplain key (List.mem_cons_of_mem _ hmem)
    cases op with
    | lookup key =>
      obtain ⟨hkey, hnext⟩ := hvalid
      obtain ⟨n, r, hlook, hr⟩ := look_spec hT hfits h hkey (hplain key List.mem_cons_self)
      refine ⟨n, r, hlook, fun v s' heq => ?_⟩
      obtain ⟨hok, hinv⟩ := hr v s' heq
      refine ⟨hok, ih hinv (hnext n v s' ?_) hrest⟩
      rw [hlook n (Nat.le_refl n), heq]
    | other mem others =>
      exact ih (inv_other hT hfits h hvalid.1) hvalid.2 hrest

end Run

theorem inv_fresh {C : Contract al base fixed} {s : State} (hfresh : T.Fresh C s) : T.Inv C s := by
  obtain ⟨hholds, hnil, hzero⟩ := hfresh
  refine ⟨?_, ?_, ?_, fun j hj => ?_⟩
  · rw [hnil]
    exact hholds
  · rw [hnil]
    exact nofun
  · rw [hnil]
    exact nofun
  · rw [hnil]
    exact load_eq_zero fun x hx hx' => hzero x (by omega) (by omega)

/-- In every run without narrow keys, and with values that fit, a mapping is a map. -/
theorem lookups_are_map (T : Table) (C : Contract al base fixed) (hT : T.Ok base fixed) (s : State)
    (ops : List Op) (hfresh : T.Fresh C s) (hvalid : T.Valid C s ops) (hplain : T.Plain ops) :
    T.Correct al fixed s ops :=
  run_correct hT hplain.1 (inv_fresh hfresh) hvalid hplain.2

end Table

end Solang.Emit.Solana
