import Solang.Lib.Positional
import Solang.Stdlib.BigInt

/-!
# Wide multiplication

The words that are written are the columns of the product, each with what the columns below carry
into it. A sum that wraps around 64 bits adds its carry to the next but one word, so nothing is lost.
-/

open Finset

namespace Solang.Stdlib.BigInt

/-! ## Words -/

/-- The number that the words stand for -/
def value (words : List (BitVec 32)) : Nat := Nat.ofDigits (2 ^ 32) (words.map BitVec.toNat)

/-- The word `i`, and 0 behind the last one -/
def digit (words : List (BitVec 32)) (i : Nat) : Nat := (words[i]?.getD 0).toNat

variable {words : List (BitVec 32)} {i n : Nat}

theorem digit_of_getElem? {x : BitVec 32} (h : words[i]? = some x) :
    digit words i = x.toNat := by
  simp [digit, h]

theorem digit_of_le (h : words.length ≤ i) : digit words i = 0 := by
  simp [digit, List.getElem?_eq_none h]

theorem value_eq_sum (words : List (BitVec 32)) :
    value words = ∑ i ∈ range words.length, digit words i * (2 ^ 32) ^ i := by
  unfold value
  rw [Positional.ofDigits_eq_sum, List.length_map]
  refine sum_congr rfl fun i _ => ?_
  unfold digit
  rw [List.getD_eq_getElem?_getD, List.getElem?_map]
  cases words[i]? <;> rfl

theorem value_lt (words : List (BitVec 32)) : value words < (2 ^ 32) ^ words.length := by
  have h := Nat.ofDigits_lt_base_pow_length (b := 2 ^ 32) (l := words.map BitVec.toNat) (by decide) (by
    intro x hx
    obtain ⟨w, -, rfl⟩ := List.mem_map.mp hx
    exact w.isLt)
  rwa [List.length_map] at h

theorem value_cons (x : BitVec 32) (words : List (BitVec 32)) :
    value (x :: words) = x.toNat + 2 ^ 32 * value words := by
  simp [value, Nat.ofDigits_cons]

/-- The column `l` of the product of two operands -/
abbrev columnSum (left right : List (BitVec 32)) (l : Nat) : Nat :=
  Positional.column (digit left) (digit right) l

/-- The operands are `len` words. -/
structure Operands (left right : List (BitVec 32)) (len : Nat) : Prop where
  left : left.length = len
  right : right.length = len

theorem Operands.mul_eq {left right : List (BitVec 32)} {len : Nat} (h : Operands left right len) :
    value left * value right = ∑ l ∈ range (len + len), columnSum left right l * (2 ^ 32) ^ l := by
  rw [value_eq_sum, value_eq_sum, h.left, h.right]
  exact Positional.mul_eq_sum_columns (fun i hi => digit_of_le (by rw [h.left]; exact hi))
    (fun i hi => digit_of_le (by rw [h.right]; exact hi)) _

/-- The first `n` words are trimmed to `k`. -/
structure Trimmed (words : List (BitVec 32)) (n k : Nat) : Prop where
  le : k ≤ n
  zero : ∀ i, k ≤ i → i < n → digit words i = 0

theorem trimmed_spec (words : List (BitVec 32)) (hn : n ≤ words.length) :
    ∃ k, trimmed words n = some k ∧ Trimmed words n k := by
  induction n with
  | zero => exact ⟨0, rfl, le_rfl, by omega⟩
  | succ n ih =>
    obtain ⟨k, hk, htrim⟩ := ih (by omega)
    have hget : words[n]? = some words[n] := List.getElem?_eq_getElem (by omega)
    unfold trimmed
    rw [hget, Option.bind_eq_bind, Option.bind_some]
    by_cases hzero : words[n] = 0
    · rw [if_pos hzero]
      refine ⟨k, hk, by have := htrim.le; omega, fun i hi hlt => ?_⟩
      rcases Nat.lt_succ_iff_lt_or_eq.mp hlt with hlt | rfl
      · exact htrim.zero i hi hlt
      · rw [digit_of_getElem? hget, hzero]
        rfl
    · rw [if_neg hzero]
      exact ⟨n + 1, rfl, le_rfl, by omega⟩

/-! ## Sums -/

/-- All bits of the sum -/
def Sum.total (s : Sum) : Nat := s.val1.toNat + 2 ^ 32 * s.carry.toNat

/-- At most `n` additions wrapped around. -/
def Sum.Carried (s : Sum) (n : Nat) : Prop := ∃ k ≤ n, s.carry.toNat = 2 ^ 32 * k

theorem Sum.add_spec {s : Sum} (h : s.Carried n) (hn : n + 1 < 2 ^ 32) (m : BitVec 64) :
    (s.add m).total = s.total + m.toNat ∧ (s.add m).Carried (n + 1) := by
  obtain ⟨k, hk, hcarry⟩ := h
  have hval := s.val1.isLt
  have hm := m.isLt
  unfold Sum.add Sum.total Sum.Carried
  dsimp only
  rw [BitVec.toNat_add]
  by_cases hlt : s.val1.toNat + m.toNat < 2 ^ 64
  · rw [if_pos hlt, Nat.mod_eq_of_lt hlt]
    exact ⟨by omega, k, by omega, hcarry⟩
  · rw [if_neg hlt]
    have hnext : (s.carry + 0x100000000).toNat = 2 ^ 32 * (k + 1) := by
      rw [BitVec.toNat_add, hcarry, show (0x100000000 : BitVec 64).toNat = 2 ^ 32 from rfl]
      omega
    have hmod : (s.val1.toNat + m.toNat) % 2 ^ 64 = s.val1.toNat + m.toNat - 2 ^ 64 := by omega
    rw [hnext, hmod]
    exact ⟨by omega, k + 1, by omega, rfl⟩

theorem Sum.shift_spec {s : Sum} (h : s.Carried n) :
    s.shift.val1.toNat = s.total / 2 ^ 32 := by
  obtain ⟨k, -, hcarry⟩ := h
  have hval := s.val1.isLt
  have hlow : s.val1.toNat / 2 ^ 32 < 2 ^ 32 := by omega
  unfold Sum.shift Sum.total
  rw [BitVec.toNat_or, BitVec.toNat_ushiftRight, Nat.shiftRight_eq_div_pow, hcarry, Nat.or_comm,
    ← Nat.two_pow_add_eq_or_of_lt hlow]
  omega

theorem Sum.word_spec (s : Sum) : (s.val1.setWidth 32).toNat = s.total % 2 ^ 32 := by
  unfold Sum.total
  rw [BitVec.toNat_setWidth]
  omega

/-- The product of two words fits into 64 bits. -/
theorem toNat_mul_setWidth (x y : BitVec 32) :
    (x.setWidth 64 * y.setWidth 64).toNat = x.toNat * y.toNat := by
  have hx : x.toNat % 2 ^ 64 = x.toNat := Nat.mod_eq_of_lt (by have := x.isLt; omega)
  have hy : y.toNat % 2 ^ 64 = y.toNat := Nat.mod_eq_of_lt (by have := y.isLt; omega)
  rw [BitVec.toNat_mul, BitVec.toNat_setWidth, BitVec.toNat_setWidth, hx, hy]
  refine Nat.mod_eq_of_lt ?_
  calc x.toNat * y.toNat < 2 ^ 32 * 2 ^ 32 := Nat.mul_lt_mul'' x.isLt y.isLt
    _ = 2 ^ 64 := rfl

/-! ## Columns -/

section Columns

variable {left right : List (BitVec 32)}

theorem sumColumn_spec {leftStart r n i : Nat} {s : Sum} {c : Nat}
    (hl : ∀ j < n, leftStart + i + j < left.length) (hr : ∀ j < n, r + j < right.length) (hs : s.Carried c)
    (hc : c + n < 2 ^ 32) :
    ∃ s', sumColumn left right leftStart r n i s = some s' ∧ s'.Carried (c + n) ∧
      s'.total = s.total + ∑ j ∈ range n, digit left (leftStart + i + j) * digit right (r + n - 1 - j) := by
  induction n generalizing i s c with
  | zero => exact ⟨s, rfl, hs, by simp⟩
  | succ n ih =>
    obtain ⟨x, hx⟩ : ∃ x, left[leftStart + i]? = some x :=
      ⟨_, List.getElem?_eq_getElem (hl 0 (by omega))⟩
    obtain ⟨y, hy⟩ : ∃ y, right[r + n]? = some y := ⟨_, List.getElem?_eq_getElem (hr n (by omega))⟩
    have hm : (x.setWidth 64 * y.setWidth 64).toNat = digit left (leftStart + i) * digit right (r + n) := by
      rw [digit_of_getElem? hx, digit_of_getElem? hy, toNat_mul_setWidth]
    obtain ⟨htotal, hcarried⟩ := Sum.add_spec hs (by omega) (x.setWidth 64 * y.setWidth 64)
    obtain ⟨s', hs', hcarried', htotal'⟩ := ih (i := i + 1) (c := c + 1)
      (fun j hj => by have := hl (j + 1) (by omega); omega) (fun j hj => hr j (by omega)) hcarried (by omega)
    refine ⟨s', ?_, by rw [show c + (n + 1) = c + 1 + n by omega]; exact hcarried', ?_⟩
    · unfold sumColumn
      rw [hx, hy]
      exact hs'
    · rw [htotal', htotal, hm, sum_range_succ']
      have hterm : ∀ j ∈ range n, digit left (leftStart + (i + 1) + j) * digit right (r + n - 1 - j) =
          digit left (leftStart + i + (j + 1)) * digit right (r + (n + 1) - 1 - (j + 1)) := by
        intro j hj
        have hlt := mem_range.mp hj
        rw [show leftStart + (i + 1) + j = leftStart + i + (j + 1) by omega,
          show r + n - 1 - j = r + (n + 1) - 1 - (j + 1) by omega]
      rw [sum_congr rfl hterm, show r + (n + 1) - 1 - 0 = r + n by omega]
      simp only [Nat.add_zero]
      omega

variable {len leftLen rightLen : Nat}

/-- The indices after the columns below `l` -/
def columnAt (leftLen rightLen l : Nat) : Column := ⟨l - leftLen, min l rightLen, l - rightLen⟩

theorem columnAt_succ (leftLen rightLen l : Nat) :
    (columnAt leftLen rightLen l).next leftLen rightLen l = columnAt leftLen rightLen (l + 1) := by
  unfold columnAt Column.next
  dsimp only
  congr 1
  · split <;> omega
  · split <;> omega
  · split <;> omega

/-- The products that the indices select are those of the column; the others are with a zero word. -/
theorem sum_selected (hl : Trimmed left len leftLen) (hr : Trimmed right len rightLen)
    (h : Operands left right len) (l : Nat) :
    ∑ j ∈ range (min (l + 1) rightLen - (l + 1 - leftLen)),
        digit left (l + 1 - rightLen + 0 + j) *
          digit right (l + 1 - leftLen + (min (l + 1) rightLen - (l + 1 - leftLen)) - 1 - j) =
      columnSum left right l := by
  have hzerol : ∀ i, leftLen ≤ i → digit left i = 0 := by
    intro i hi
    rcases Nat.lt_or_ge i len with hlt | hge
    · exact hl.zero i hi hlt
    · exact digit_of_le (by rw [h.left]; exact hge)
  have hzeror : ∀ i, rightLen ≤ i → digit right i = 0 := by
    intro i hi
    rcases Nat.lt_or_ge i len with hlt | hge
    · exact hr.zero i hi hlt
    · exact digit_of_le (by rw [h.right]; exact hge)
  set first := l + 1 - leftLen with hfirst
  set last := min (l + 1) rightLen with hlast
  rw [columnSum, Positional.column_eq_range]
  have hsub : ∑ r ∈ range (l + 1), digit left (l - r) * digit right r =
      ∑ r ∈ Ico first last, digit left (l - r) * digit right r := by
    symm
    refine sum_subset (fun r hr => ?_) fun r hr hout => ?_
    · rw [mem_Ico] at hr
      rw [mem_range]
      omega
    · rw [mem_range] at hr
      rw [mem_Ico, not_and_or] at hout
      rcases hout with hout | hout
      · rw [hzerol (l - r) (by omega), Nat.zero_mul]
      · rw [hzeror r (by omega), Nat.mul_zero]
  rw [hsub, sum_Ico_eq_sum_range, ← sum_range_reflect]
  refine sum_congr rfl fun j hj => ?_
  have hlt := mem_range.mp hj
  rw [show l + 1 - rightLen + 0 + (last - first - 1 - j) = l - (first + j) by omega,
    show first + (last - first) - 1 - (last - first - 1 - j) = first + j by omega]

theorem sumOf_spec (hl : Trimmed left len leftLen) (hr : Trimmed right len rightLen)
    (h : Operands left right len) (hlen : len < 2 ^ 31) (l : Nat) {s : Sum} (hs : s.carry = 0) :
    ∃ s', sumOf left right (columnAt leftLen rightLen (l + 1)) s = some s' ∧ s'.Carried len ∧
      s'.total = s.val1.toNat + columnSum left right l := by
  have hle := hl.le
  have hle' := hr.le
  have hleft := h.left
  have hright := h.right
  have hcarried : s.Carried 0 := ⟨0, le_rfl, by rw [hs]; rfl⟩
  have htotal : s.total = s.val1.toNat := by
    unfold Sum.total
    rw [hs]
    rfl
  set n := min (l + 1) rightLen - (l + 1 - leftLen) with hn
  have hreadl : ∀ j < n, l + 1 - rightLen + 0 + j < left.length := by
    intro j hj
    omega
  have hreadr : ∀ j < n, l + 1 - leftLen + j < right.length := by
    intro j hj
    omega
  obtain ⟨s', hs', ⟨k, hk, hcarry⟩, htotal'⟩ := sumColumn_spec hreadl hreadr hcarried (by omega)
  refine ⟨s', hs', ⟨k, by omega, hcarry⟩, ?_⟩
  rw [htotal', htotal, sum_selected hl hr h l]

/-- What is left of the product from the column `l` on, for `n` columns, with what is carried in -/
def rest (left right : List (BitVec 32)) (n l : Nat) (s : Sum) : Nat :=
  s.val1.toNat + ∑ j ∈ range n, columnSum left right (l + j) * (2 ^ 32) ^ j

theorem rest_succ {l n c : Nat} {s s' : Sum} (hs' : s'.Carried c)
    (htotal : s'.total = s.val1.toNat + columnSum left right l) :
    rest left right (n + 1) l s = s'.total % 2 ^ 32 + 2 ^ 32 * rest left right n (l + 1) s'.shift := by
  unfold rest
  rw [Sum.shift_spec hs', sum_range_succ', pow_zero, Nat.mul_one, Nat.add_zero, Nat.mul_add, mul_sum,
    ← Nat.add_assoc (s'.total % _), Nat.mod_add_div, htotal]
  have hterm : ∀ j, columnSum left right (l + (j + 1)) * (2 ^ 32) ^ (j + 1) =
      2 ^ 32 * (columnSum left right (l + 1 + j) * (2 ^ 32) ^ j) := by
    intro j
    rw [show l + (j + 1) = l + 1 + j by omega, pow_succ]
    ring
  simp only [hterm]
  omega

/-- The columns from `l` on write the lowest words of what is left of the product. -/
theorem mulFrom_spec (hl : Trimmed left len leftLen) (hr : Trimmed right len rightLen)
    (h : Operands left right len) (hlen : len < 2 ^ 31) (k n l : Nat) {s : Sum} (hs : s.carry = 0) :
    ∃ out, mulFrom left right leftLen rightLen n l (columnAt leftLen rightLen l) s = some out ∧
      out.length = n ∧ value out = rest left right (n + k) l s % (2 ^ 32) ^ n := by
  induction n generalizing l s with
  | zero => exact ⟨[], rfl, rfl, by simp [value, Nat.mod_one]⟩
  | succ n ih =>
    obtain ⟨s', hs', hcarried, htotal⟩ := sumOf_spec hl hr h hlen l hs
    obtain ⟨out, hout, hlength, hvalue⟩ := ih (l + 1) (s := s'.shift) rfl
    refine ⟨s'.val1.setWidth 32 :: out, ?_, by rw [List.length_cons, hlength], ?_⟩
    · unfold mulFrom
      simp only [columnAt_succ, hs', hout, Option.bind_eq_bind, Option.bind_some, Option.pure_def]
    · rw [value_cons, Sum.word_spec, hvalue, Nat.add_right_comm n 1 k, rest_succ hcarried htotal, Positional.add_mul_mod_pow (Nat.mod_lt _ (by decide))]

/-- The columns in the upper half: one of them is seen to be other than zero, unless all are zero. -/
theorem mulOvfFrom_upper (hl : Trimmed left len leftLen) (hr : Trimmed right len rightLen)
    (h : Operands left right len) (hlen : len < 2 ^ 31) (n l : Nat) (hm : len ≤ l) {s : Sum}
    (hs : s.carry = 0) (hfits : rest left right n l s < (2 ^ 32) ^ n) :
    ∃ overflow, mulOvfFrom left right leftLen rightLen len n l (columnAt leftLen rightLen l) s =
        some ([], overflow) ∧ (overflow = true ↔ 0 < rest left right n l s) := by
  induction n generalizing l s with
  | zero =>
    refine ⟨false, rfl, ?_⟩
    rw [pow_zero] at hfits
    simp
    omega
  | succ n ih =>
    obtain ⟨s', hs', hcarried, htotal⟩ := sumOf_spec hl hr h hlen l hs
    have hrest := rest_succ (n := n) hcarried htotal
    unfold mulOvfFrom
    simp only [columnAt_succ, hs', Option.bind_eq_bind, Option.bind_some, if_neg (Nat.not_lt.mpr hm)]
    by_cases hpos : 0 < s'.val1
    · rw [if_pos hpos]
      refine ⟨true, rfl, ?_⟩
      have hval : 0 < s'.val1.toNat := hpos
      have htotal' : 0 < s'.total := Nat.lt_of_lt_of_le hval (Nat.le_add_right ..)
      have hle : s'.total ≤ rest left right (n + 1) l s := by
        rw [htotal]
        unfold rest
        rw [sum_range_succ', pow_zero, Nat.mul_one, Nat.add_zero]
        omega
      simp
      omega
    · rw [if_neg hpos]
      -- the sum is 0 in 64 bits, so that its low word is 0 and its carry is in what is left
      have hval : s'.val1.toNat = 0 := Nat.eq_zero_of_le_zero (Nat.not_lt.mp hpos)
      have hword : s'.total % 2 ^ 32 = 0 := by
        unfold Sum.total
        rw [hval, Nat.zero_add, Nat.mul_mod_right]
      rw [hrest, hword, Nat.zero_add] at hfits ⊢
      have hfits' : rest left right n (l + 1) s'.shift < (2 ^ 32) ^ n := by
        rw [pow_succ' (2 ^ 32) n] at hfits
        exact Nat.lt_of_mul_lt_mul_left hfits
      obtain ⟨overflow, hovf, hiff⟩ := ih (l + 1) (by omega) (s := s'.shift) rfl hfits'
      refine ⟨overflow, hovf, hiff.trans ?_⟩
      rw [Nat.mul_pos_iff_of_pos_left (by decide)]

/-- The columns in the lower half are written, and the upper half decides about the overflow. -/
theorem mulOvfFrom_lower (hl : Trimmed left len leftLen) (hr : Trimmed right len rightLen)
    (h : Operands left right len) (hlen : len < 2 ^ 31) (n l : Nat) (hn : l + n = len) {s : Sum}
    (hs : s.carry = 0) (hfits : rest left right (n + len) l s < (2 ^ 32) ^ (n + len)) :
    ∃ out overflow, mulOvfFrom left right leftLen rightLen len (n + len) l (columnAt leftLen rightLen l) s =
        some (out, overflow) ∧ out.length = n ∧
      value out = rest left right (n + len) l s % (2 ^ 32) ^ n ∧
      (overflow = true ↔ (2 ^ 32) ^ n ≤ rest left right (n + len) l s) := by
  induction n generalizing l s with
  | zero =>
    rw [Nat.zero_add] at hfits ⊢
    obtain ⟨overflow, hovf, hiff⟩ := mulOvfFrom_upper hl hr h hlen len l (by omega) hs hfits
    exact ⟨[], overflow, hovf, rfl, by simp [value, Nat.mod_one], hiff⟩
  | succ n ih =>
    obtain ⟨s', hs', hcarried, htotal⟩ := sumOf_spec hl hr h hlen l hs
    have hrest := rest_succ (n := n + len) hcarried htotal
    rw [show n + 1 + len = n + len + 1 by omega] at hfits ⊢
    have hfits' : rest left right (n + len) (l + 1) s'.shift < (2 ^ 32) ^ (n + len) := by
      rw [hrest, pow_succ' (2 ^ 32) (n + len)] at hfits
      exact Nat.lt_of_mul_lt_mul_left (Nat.lt_of_le_of_lt (Nat.le_add_left ..) hfits)
    obtain ⟨out, overflow, hovf, hlength, hvalue, hiff⟩ := ih (l + 1) (by omega) (s := s'.shift) rfl hfits'
    refine ⟨s'.val1.setWidth 32 :: out, overflow, ?_, by rw [List.length_cons, hlength], ?_, ?_⟩
    · unfold mulOvfFrom
      simp only [columnAt_succ, hs', hovf, Option.bind_eq_bind, Option.bind_some, Option.pure_def,
        if_pos (show l < len by omega)]
    · rw [value_cons, Sum.word_spec, hvalue, hrest, Positional.add_mul_mod_pow (Nat.mod_lt _ (by decide))]
    · rw [hiff, hrest, Positional.pow_le_add_mul_iff (Nat.mod_lt _ (by decide))]

end Columns

section Product

variable {left right : List (BitVec 32)} {len : Nat}

theorem rest_zero (h : Operands left right len) :
    rest left right (len + len) 0 ⟨0, 0⟩ = value left * value right := by
  rw [h.mul_eq]
  unfold rest
  simp

theorem mul32_spec (h : Operands left right len) (hlen : len < 2 ^ 31) :
    ∃ out, mul32 left right len = some out ∧ out.length = len ∧
      value out = value left * value right % (2 ^ 32) ^ len := by
  obtain ⟨leftLen, hleft, hl⟩ := trimmed_spec left h.left.ge
  obtain ⟨rightLen, hright, hr⟩ := trimmed_spec right h.right.ge
  obtain ⟨out, hout, hlength, hvalue⟩ := mulFrom_spec hl hr h hlen len len 0 (s := ⟨0, 0⟩) rfl
  refine ⟨out, ?_, hlength, by rw [hvalue, rest_zero h]⟩
  have hstart : columnAt leftLen rightLen 0 = ⟨0, 0, 0⟩ := by simp [columnAt]
  rw [hstart] at hout
  unfold mul32
  rw [hleft, hright]
  exact hout

theorem mul32WithBuiltinOvf_spec (h : Operands left right len) (hlen : len < 2 ^ 31) :
    ∃ out, mul32WithBuiltinOvf left right len =
        some (out, decide ((2 ^ 32) ^ len ≤ value left * value right)) ∧ out.length = len ∧
      value out = value left * value right % (2 ^ 32) ^ len := by
  obtain ⟨leftLen, hleft, hl⟩ := trimmed_spec left h.left.ge
  obtain ⟨rightLen, hright, hr⟩ := trimmed_spec right h.right.ge
  have hfits : rest left right (len + len) 0 ⟨0, 0⟩ < (2 ^ 32) ^ (len + len) := by
    rw [rest_zero h, pow_add]
    have hlt := value_lt left
    have hlt' := value_lt right
    rw [h.left] at hlt
    rw [h.right] at hlt'
    exact Nat.mul_lt_mul'' hlt hlt'
  obtain ⟨out, overflow, hout, hlength, hvalue, hiff⟩ :=
    mulOvfFrom_lower hl hr h hlen len 0 (Nat.zero_add len) (s := ⟨0, 0⟩) rfl hfits
  rw [rest_zero h] at hvalue hiff
  have hoverflow : overflow = decide ((2 ^ 32) ^ len ≤ value left * value right) := by
    rw [Bool.eq_iff_iff, hiff, decide_eq_true_iff]
  refine ⟨out, ?_, hlength, hvalue⟩
  have hstart : columnAt leftLen rightLen 0 = ⟨0, 0, 0⟩ := by simp [columnAt]
  rw [hstart, hoverflow] at hout
  unfold mul32WithBuiltinOvf
  rw [hleft, hright, show len * 2 = len + len by omega]
  exact hout

/-- Numbers are given by their words. -/
theorem eq_of_value_eq {words words' : List (BitVec 32)} (hlength : words.length = words'.length)
    (h : value words = value words') : words = words' := by
  induction words generalizing words' with
  | nil => exact (List.eq_nil_of_length_eq_zero hlength.symm).symm
  | cons x words ih =>
    obtain ⟨y, rest, rfl⟩ := List.exists_cons_of_length_eq_add_one hlength.symm
    rw [value_cons, value_cons] at h
    have hx := x.isLt
    have hy := y.isLt
    have hxy : x = y := BitVec.eq_of_toNat_eq (by omega)
    rw [hxy, ih (by simpa using hlength) (by omega)]

/-- The words that are written are those of the product, and an overflow is reported exactly when the
product has more. Every index is inside of its operand. The lengths are those that an `int` holds. -/
theorem mul32_correct (left right : List (BitVec 32)) (len : Nat) (h : Operands left right len) :
    (len < 2 ^ 31 → ∃ out, mul32 left right len = some out ∧ out.length = len ∧
      value out = value left * value right % 2 ^ (32 * len)) ∧
    (len * 2 < 2 ^ 31 → ∃ out, mul32 left right len = some out ∧
      mul32WithBuiltinOvf left right len = some (out, decide (2 ^ (32 * len) ≤ value left * value right))) := by
  rw [pow_mul]
  refine ⟨mul32_spec h, fun hlen => ?_⟩
  obtain ⟨out, hout, hlength, hvalue⟩ := mul32_spec h (by omega)
  obtain ⟨out', hout', hlength', hvalue'⟩ := mul32WithBuiltinOvf_spec h (by omega)
  have heq : out' = out := eq_of_value_eq (by rw [hlength, hlength']) (by rw [hvalue, hvalue'])
  rw [heq] at hout'
  exact ⟨out, hout, hout'⟩

end Product

theorem mul32_correct_two : ∃ out, mul32 [0xffffffff, 1] [0, 1] 2 = some out ∧
    mul32WithBuiltinOvf [0xffffffff, 1] [0, 1] 2 = some (out, decide
      (2 ^ (32 * 2) ≤ value [0xffffffff, 1] * value [0, 1])) :=
  (mul32_correct [0xffffffff, 1] [0, 1] 2 ⟨rfl, rfl⟩).2 (by decide)

end Solang.Stdlib.BigInt
