import Mathlib.Algebra.BigOperators.NatAntidiagonal
import Mathlib.Algebra.BigOperators.Ring.Finset
import Mathlib.Data.Nat.Digits.Lemmas

/-!
# Positional notation

The columns of a product of two numbers that are given by their digits, and the digits of a number
without leading zeros.
-/

open Finset

namespace Positional

/-! ## Columns of a product -/

section Columns

variable {R : Type} [CommSemiring R]

/-- The sum of the products of digits at the places that add up to `l` -/
def column (a b : ℕ → R) (l : ℕ) : R := ∑ p ∈ antidiagonal l, a p.1 * b p.2

theorem column_zero (a b : ℕ → R) : column a b 0 = a 0 * b 0 := by
  simp [column]

theorem column_succ (a b : ℕ → R) (l : ℕ) :
    column a b (l + 1) = a 0 * b (l + 1) + column (fun i => a (i + 1)) b l := by
  unfold column
  rw [Nat.sum_antidiagonal_succ]

theorem column_eq_range (a b : ℕ → R) (l : ℕ) :
    column a b l = ∑ r ∈ range (l + 1), a (l - r) * b r := by
  unfold column
  rw [Nat.sum_antidiagonal_eq_sum_range_succ_mk, ← sum_range_reflect]
  refine sum_congr rfl fun r hr => ?_
  have hle : r ≤ l := Nat.lt_succ_iff.mp (mem_range.mp hr)
  have hr' : l - (l + 1 - 1 - r) = r := by omega
  rw [hr']
  rfl

/-- More places do not change a number. -/
theorem sum_places {b : ℕ → R} {m k : ℕ} (hb : ∀ i ≥ m, b i = 0) (hk : m ≤ k) (x : R) :
    ∑ i ∈ range k, b i * x ^ i = ∑ i ∈ range m, b i * x ^ i := by
  symm
  refine sum_subset (range_mono hk) fun i _ hi => ?_
  rw [hb i (by simpa using hi), zero_mul]

/-- A number of `n` places times one of `m` places is the sum of its columns. -/
theorem mul_eq_sum_columns {a b : ℕ → R} {n m : ℕ} (ha : ∀ i ≥ n, a i = 0) (hb : ∀ i ≥ m, b i = 0) (x : R) :
    (∑ i ∈ range n, a i * x ^ i) * (∑ i ∈ range m, b i * x ^ i) =
      ∑ l ∈ range (n + m), column a b l * x ^ l := by
  induction n generalizing a with
  | zero =>
    have hzero : ∀ l, column a b l = 0 := fun l => sum_eq_zero fun p _ => by rw [ha p.1 (Nat.zero_le _), zero_mul]
    simp [hzero]
  | succ n ih =>
    have hshift := ih (a := fun i => a (i + 1)) fun i hi => ha (i + 1) (by omega)
    have hb' : ∑ i ∈ range m, b i * x ^ i = (∑ i ∈ range (n + m), b (i + 1) * x ^ (i + 1)) + b 0 := by
      rw [← sum_places hb (show m ≤ n + m + 1 by omega), sum_range_succ', pow_zero, mul_one]
    have hcols : ∑ l ∈ range (n + 1 + m), column a b l * x ^ l =
        a 0 * (∑ i ∈ range (n + m), b (i + 1) * x ^ (i + 1)) + a 0 * b 0 +
          x * ∑ l ∈ range (n + m), column (fun i => a (i + 1)) b l * x ^ l := by
      rw [show n + 1 + m = n + m + 1 by omega, sum_range_succ', column_zero, pow_zero, mul_one]
      simp only [column_succ, add_mul, sum_add_distrib, mul_sum]
      have h1 : ∀ i, a 0 * b (i + 1) * x ^ (i + 1) = a 0 * (b (i + 1) * x ^ (i + 1)) := fun i => by ring
      have h2 : ∀ i, column (fun i => a (i + 1)) b i * x ^ (i + 1) =
          x * (column (fun i => a (i + 1)) b i * x ^ i) := fun i => by ring
      simp only [h1, h2]
      ring
    rw [hcols, ← hshift, sum_range_succ' (fun i => a i * x ^ i), add_mul, pow_zero, mul_one]
    have hfactor : ∑ i ∈ range n, a (i + 1) * x ^ (i + 1) = x * ∑ i ∈ range n, a (i + 1) * x ^ i := by
      rw [mul_sum]
      exact sum_congr rfl fun i _ => by ring
    rw [hfactor]
    conv_lhs => enter [2]; rw [hb']
    ring

end Columns

/-- A list of digits as a sum over its places -/
theorem ofDigits_eq_sum (x : ℕ) (digits : List ℕ) :
    Nat.ofDigits x digits = ∑ i ∈ range digits.length, digits.getD i 0 * x ^ i := by
  induction digits with
  | nil => rfl
  | cons d digits ih =>
    rw [Nat.ofDigits_cons, ih, List.length_cons, sum_range_succ', mul_sum]
    simp only [List.getD_cons_succ, List.getD_cons_zero, pow_zero, mul_one]
    rw [Nat.add_comm]
    congr 1
    exact sum_congr rfl fun i _ => by ring

/-! ## The lowest digit -/

section Low

variable {b x : ℕ}

theorem add_mul_mod_pow (hx : x < b) {y n : ℕ} : x + b * (y % b ^ n) = (x + b * y) % b ^ (n + 1) := by
  have hb : 0 < b := Nat.zero_lt_of_lt hx
  rw [pow_succ', Nat.mod_mul, Nat.add_mul_mod_self_left, Nat.mod_eq_of_lt hx, Nat.add_mul_div_left _ _ hb,
    Nat.div_eq_of_lt hx, Nat.zero_add]

theorem pow_le_add_mul_iff (hx : x < b) {y n : ℕ} : b ^ (n + 1) ≤ x + b * y ↔ b ^ n ≤ y := by
  have hb : 0 < b := Nat.zero_lt_of_lt hx
  rw [pow_succ, ← Nat.le_div_iff_mul_le hb, Nat.add_mul_div_left _ _ hb, Nat.div_eq_of_lt hx, Nat.zero_add]

end Low

/-! ## Numerals

A number by its digits, the lowest first. There is a digit, and the highest is zero only in the
numeral of zero.
-/

section Numerals

variable {b n : ℕ} {digits : List ℕ}

structure IsNumeral (b n : ℕ) (digits : List ℕ) : Prop where
  ne_nil : digits ≠ []
  lt : ∀ d ∈ digits, d < b
  highest : digits.getLast? = some 0 → digits = [0]
  value : Nat.ofDigits b digits = n

/-- The numeral of a number -/
def numeral (b n : ℕ) : List ℕ := if n = 0 then [0] else Nat.digits b n

theorem numeral_isNumeral (hb : 1 < b) (n : ℕ) : IsNumeral b n (numeral b n) := by
  unfold numeral
  split
  · rename_i h
    subst h
    exact ⟨List.cons_ne_nil _ _, by simpa using Nat.zero_lt_of_lt hb, fun _ => rfl, by simp⟩
  · rename_i h
    have hne : Nat.digits b n ≠ [] := Nat.digits_ne_nil_iff_ne_zero.mpr h
    refine ⟨hne, fun d hd => Nat.digits_lt_base hb hd, fun hlast => ?_, Nat.ofDigits_digits b n⟩
    rw [List.getLast?_eq_getLast_of_ne_nil hne] at hlast
    exact absurd (Option.some.inj hlast) (Nat.getLast_digit_ne_zero b h)

theorem IsNumeral.eq_numeral (hb : 1 < b) (h : IsNumeral b n digits) : digits = numeral b n := by
  unfold numeral
  by_cases hzero : digits.getLast? = some 0
  · have hdigits := h.highest hzero
    rw [← h.value, hdigits]
    simp
  · have hlast : ∀ hne : digits ≠ [], digits.getLast hne ≠ 0 := by
      intro hne hlast
      rw [List.getLast?_eq_some_getLast hne, hlast] at hzero
      exact hzero rfl
    have hback := Nat.digits_ofDigits b hb digits h.lt hlast
    rw [h.value] at hback
    have hn : n ≠ 0 := by
      rintro rfl
      rw [Nat.digits_zero] at hback
      exact h.ne_nil hback.symm
    rw [if_neg hn, hback]

/-- The lowest digit, and the others if there are any -/
theorem numeral_step (hb : 1 < b) (n : ℕ) :
    numeral b n = n % b :: if n / b = 0 then [] else numeral b (n / b) := by
  unfold numeral
  by_cases hn : n = 0
  · rw [if_pos hn, hn, Nat.zero_mod, Nat.zero_div, if_pos rfl]
  · rw [if_neg hn, Nat.digits_def' hb (Nat.pos_of_ne_zero hn)]
    split
    · rename_i h
      rw [h, Nat.digits_zero]
    · rfl

theorem numeral_length_le (hb : 1 < b) {k : ℕ} (hk : 0 < k) (h : n < b ^ k) : (numeral b n).length ≤ k := by
  unfold numeral
  split
  · exact hk
  · exact (Nat.digits_length_le_iff hb n).mpr h

theorem le_numeral_length (hb : 1 < b) {k : ℕ} (h : b ^ k ≤ n) : k + 1 ≤ (numeral b n).length := by
  have hpos : 0 < b ^ k := Nat.pow_pos (Nat.zero_lt_of_lt hb)
  unfold numeral
  rw [if_neg (by omega)]
  exact (Nat.lt_digits_length_iff hb n).mpr h

/-- Any digits under a numeral that is not of zero -/
theorem IsNumeral.append (h : IsNumeral b n digits) (hn : n ≠ 0) (low : List ℕ) (hlow : ∀ d ∈ low, d < b) :
    IsNumeral b (Nat.ofDigits b low + b ^ low.length * n) (low ++ digits) := by
  refine ⟨List.append_ne_nil_of_right_ne_nil _ h.ne_nil, ?_, fun hlast => ?_, ?_⟩
  · intro d hd
    exact (List.mem_append.mp hd).elim (hlow d) (h.lt d)
  · rw [List.getLast?_append_of_ne_nil _ h.ne_nil] at hlast
    refine absurd ?_ hn
    rw [← h.value, h.highest hlast]
    simp
  · rw [Nat.ofDigits_append, h.value]

theorem ofDigits_append_zeros (low : List ℕ) (k : ℕ) :
    Nat.ofDigits b (low ++ List.replicate k 0) = Nat.ofDigits b low := by
  rw [Nat.ofDigits_append, Nat.ofDigits_replicate_zero, Nat.mul_zero, Nat.add_zero]

/-- The digits of the digits in a base that is a power -/
theorem ofDigits_flatMap {k : ℕ} {f : ℕ → List ℕ} {l : List ℕ} (hlen : ∀ d ∈ l, (f d).length = k)
    (hval : ∀ d ∈ l, Nat.ofDigits b (f d) = d) : Nat.ofDigits b (l.flatMap f) = Nat.ofDigits (b ^ k) l := by
  induction l with
  | nil => rfl
  | cons d l ih =>
    rw [List.flatMap_cons, Nat.ofDigits_append, hlen d List.mem_cons_self, hval d List.mem_cons_self,
      ih (fun e he => hlen e (List.mem_cons_of_mem d he)) fun e he => hval e (List.mem_cons_of_mem d he),
      Nat.ofDigits_cons]

end Numerals

end Positional
