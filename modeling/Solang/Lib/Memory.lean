import Mathlib.Data.List.Chain
import Mathlib.Data.UInt
import Mathlib.Tactic.Ring

/-!
# Lists without two gaps side by side

`Separated taken l`: of two neighbours at least one is taken.
-/

variable {α : Type} {taken : α → Prop}

def Separated (taken : α → Prop) (l : List α) : Prop := l.IsChain fun a b => taken a ∨ taken b

namespace Separated

variable {a c : α} {as bs l : List α}

theorem nil : Separated taken [] := List.IsChain.nil

theorem singleton (a : α) : Separated taken [a] := List.IsChain.singleton a

/-- On both sides of one that is taken anything may stand. -/
theorem append_taken (hc : taken c) :
    Separated taken (as ++ c :: bs) ↔ Separated taken as ∧ Separated taken bs := by
  unfold Separated
  rw [List.isChain_append, List.isChain_cons]
  constructor
  · rintro ⟨h1, ⟨-, h2⟩, -⟩
    exact ⟨h1, h2⟩
  · rintro ⟨h1, h2⟩
    refine ⟨h1, ⟨fun _ _ => .inl hc, h2⟩, fun _ _ b hb => ?_⟩
    obtain rfl : c = b := by simpa using hb
    exact .inr hc

/-- A gap has neighbours that are taken. -/
theorem append_gap (hc : ¬ taken c) :
    Separated taken (as ++ c :: bs) ↔ Separated taken as ∧ Separated taken bs ∧
      (∀ a ∈ as.getLast?, taken a) ∧ ∀ b ∈ bs.head?, taken b := by
  unfold Separated
  rw [List.isChain_append, List.isChain_cons]
  constructor
  · rintro ⟨h1, ⟨h2, h3⟩, h4⟩
    refine ⟨h1, h3, fun a ha => ?_, fun b hb => (h2 b hb).resolve_left hc⟩
    exact (h4 a ha c (by simp)).resolve_right hc
  · rintro ⟨h1, h2, h3, h4⟩
    exact ⟨h1, ⟨fun b hb => .inr (h4 b hb), h2⟩, fun a ha _ _ => .inl (h3 a ha)⟩

theorem cons_gap (hc : ¬ taken c) :
    Separated taken (c :: bs) ↔ Separated taken bs ∧ ∀ b ∈ bs.head?, taken b := by
  have h : Separated taken ([] ++ c :: bs) ↔ _ := append_gap hc
  simpa [nil] using h

theorem of_append_left (h : Separated taken (as ++ bs)) : Separated taken as :=
  List.IsChain.left_of_append h

theorem of_append_right (h : Separated taken (as ++ bs)) : Separated taken bs :=
  List.IsChain.right_of_append h

theorem of_cons (h : Separated taken (a :: l)) : Separated taken l := List.IsChain.of_cons h

end Separated

/-!
## Byte memory

A memory is a byte for each address. `load` and `store` read and write words of any
number of bytes, least significant byte first; `copy` moves bytes between areas.
Every lemma about what stays the same is about the bytes of a range.
-/

abbrev Memory := Nat → UInt8

namespace Memory

/-- The word of `n` bytes at the address -/
def load (m : Memory) (a : Nat) : Nat → Nat
  | 0 => 0
  | n + 1 => (m a).toNat + 256 * load m (a + 1) n

/-- Write the word of `n` bytes at the address; what does not fit is cut off. -/
def store (m : Memory) (a n v : Nat) : Memory := fun x =>
  if a ≤ x ∧ x < a + n then UInt8.ofNat (v / 256 ^ (x - a)) else m x

/-- Copy `n` bytes; the areas may not overlap. -/
def copy (m : Memory) (dest source n : Nat) : Memory := fun x =>
  if dest ≤ x ∧ x < dest + n then m (source + (x - dest)) else m x

/-- `n` bytes as a list -/
def bytes (m : Memory) (a n : Nat) : List UInt8 := (List.range n).map fun i => m (a + i)

/-- Write these bytes. -/
def write (m : Memory) (a : Nat) (data : List UInt8) : Memory := fun x =>
  if a ≤ x ∧ x < a + data.length then data.getD (x - a) 0 else m x

/-- The bytes from `a` to `b` are the same. -/
def Agree (m m' : Memory) (a b : Nat) : Prop := ∀ x, a ≤ x → x < b → m' x = m x

section Agree

variable {m m' m'' : Memory} {a b c d n v : Nat}

theorem Agree.refl : Agree m m a b := fun _ _ _ => rfl

theorem Agree.trans (h : Agree m m' a b) (h' : Agree m' m'' a b) : Agree m m'' a b :=
  fun x ha hb => (h' x ha hb).trans (h x ha hb)

theorem Agree.mono (h : Agree m m' a b) (ha : a ≤ c) (hb : d ≤ b) : Agree m m' c d :=
  fun x hc hd => h x (ha.trans hc) (hd.trans_le hb)

theorem Agree.store (h : Agree m m' a b) (hd : c + n ≤ a ∨ b ≤ c) :
    Agree m (m'.store c n v) a b := by
  intro x ha hb
  unfold Memory.store
  rw [if_neg (by omega)]
  exact h x ha hb

theorem Agree.copy (h : Agree m m' a b) (hd : c + n ≤ a ∨ b ≤ c) :
    Agree m (m'.copy c d n) a b := by
  intro x ha hb
  unfold Memory.copy
  rw [if_neg (by omega)]
  exact h x ha hb

theorem Agree.write {data : List UInt8} (h : Agree m m' a b) (hd : c + data.length ≤ a ∨ b ≤ c) :
    Agree m (m'.write c data) a b := by
  intro x ha hb
  unfold Memory.write
  rw [if_neg (by omega)]
  exact h x ha hb

theorem Agree.bytes (h : Agree m m' a b) (hc : a ≤ c) (hd : c + n ≤ b) :
    m'.bytes c n = m.bytes c n := by
  refine List.map_congr_left fun i hi => ?_
  have hlt := List.mem_range.mp hi
  exact h _ (by omega) (by omega)

theorem Agree.load (h : Agree m m' a b) (hc : a ≤ c) (hd : c + n ≤ b) :
    m'.load c n = m.load c n := by
  induction n generalizing c with
  | zero => rfl
  | succ n ih =>
    simp only [Memory.load]
    rw [h c hc (by omega), ih (by omega) (by omega)]

end Agree

/-- Only bytes from `a` to `b` change. -/
def Within (m m' : Memory) (a b : Nat) : Prop := ∀ x, x < a ∨ b ≤ x → m' x = m x

section Within

variable {m m' m'' : Memory} {a b c d n v : Nat}

theorem Within.refl : Within m m a b := fun _ _ => rfl

theorem Within.trans (h : Within m m' a b) (h' : Within m' m'' a b) : Within m m'' a b :=
  fun x hx => (h' x hx).trans (h x hx)

theorem Within.mono (h : Within m m' c d) (ha : a ≤ c) (hb : d ≤ b) : Within m m' a b :=
  fun x hx => h x (hx.imp (fun h => h.trans_le ha) fun h => hb.trans h)

theorem Within.agree (h : Within m m' a b) (hd : d ≤ a ∨ b ≤ c) : Agree m m' c d :=
  fun x hc hx => h x (hd.imp (fun h => hx.trans_le h) fun h => h.trans hc)

theorem Within.store (h : Within m m' a b) (hc : a ≤ c) (hd : c + n ≤ b) :
    Within m (m'.store c n v) a b := by
  intro x hx
  unfold Memory.store
  rw [if_neg (by omega)]
  exact h x hx

theorem Within.copy (h : Within m m' a b) (hc : a ≤ c) (hd : c + n ≤ b) :
    Within m (m'.copy c d n) a b := by
  intro x hx
  unfold Memory.copy
  rw [if_neg (by omega)]
  exact h x hx

end Within

variable {m : Memory} {a b n k v : Nat}

theorem load_lt (m : Memory) (a n : Nat) : m.load a n < 256 ^ n := by
  induction n generalizing a with
  | zero => simp [load]
  | succ n ih =>
    have h1 := ih (a + 1)
    have h2 := (m a).toNat_lt
    simp only [load, pow_succ]
    omega

theorem load_store_of_disjoint (h : b + k ≤ a ∨ a + n ≤ b) :
    (m.store a n v).load b k = m.load b k :=
  Agree.load (a := b) (b := b + k) (Agree.refl.store (by omega)) (Nat.le_refl _) (Nat.le_refl _)

/-- The last `k` bytes of a word that was written -/
theorem load_store_tail (h : k ≤ n) :
    (m.store a n v).load (a + (n - k)) k = v / 256 ^ (n - k) % 256 ^ k := by
  induction k with
  | zero => simp [load, Nat.mod_one]
  | succ k ih =>
    have ih := ih (by omega)
    have hstep : n - k = n - (k + 1) + 1 := by omega
    rw [hstep, ← Nat.add_assoc] at ih
    simp only [load, ih]
    have hbyte : (m.store a n v) (a + (n - (k + 1))) = UInt8.ofNat (v / 256 ^ (n - (k + 1))) := by
      unfold store
      rw [if_pos (by omega), Nat.add_sub_cancel_left]
    have hdiv : v / 256 ^ (n - (k + 1) + 1) = v / 256 ^ (n - (k + 1)) / 256 := by
      rw [pow_succ, Nat.div_div_eq_div_mul]
    have hmod : (UInt8.ofNat (v / 256 ^ (n - (k + 1)))).toNat = v / 256 ^ (n - (k + 1)) % 256 :=
      UInt8.toNat_ofNat'
    rw [hbyte, hdiv, hmod, pow_succ, Nat.mul_comm (256 ^ k), Nat.mod_mul]

theorem load_store (m : Memory) (a n v : Nat) : (m.store a n v).load a n = v % 256 ^ n := by
  simpa using load_store_tail (m := m) (a := a) (v := v) (Nat.le_refl n)

theorem load_store_of_lt (h : v < 256 ^ n) : (m.store a n v).load a n = v := by
  rw [load_store, Nat.mod_eq_of_lt h]

theorem load_eq_zero (h : ∀ x, a ≤ x → x < a + n → m x = 0) : m.load a n = 0 := by
  induction n generalizing a with
  | zero => rfl
  | succ n ih =>
    unfold load
    rw [h a (Nat.le_refl _) (by omega), ih fun x hx hx' => h x (by omega) (by omega)]
    rfl

theorem bytes_write (m : Memory) (a : Nat) (data : List UInt8) :
    (m.write a data).bytes a data.length = data := by
  apply List.ext_getElem
  · simp [bytes]
  · intro i hi hi'
    simp only [bytes, write, List.getElem_map, List.getElem_range]
    rw [if_pos (by omega), Nat.add_sub_cancel_left, List.getD_eq_getElem?_getD,
      List.getElem?_eq_getElem hi', Option.getD_some]

theorem store_zero_apply {x : Nat} (ha : a ≤ x) (hx : x < a + n) : m.store a n 0 x = 0 := by
  unfold store
  rw [if_pos ⟨ha, hx⟩, Nat.zero_div]
  rfl

/-- The bytes that were copied -/
theorem copy_apply {dest source i : Nat} (hi : i < n) :
    m.copy dest source n (dest + i) = m (source + i) := by
  unfold copy
  rw [if_pos (by omega), Nat.add_sub_cancel_left]

end Memory
