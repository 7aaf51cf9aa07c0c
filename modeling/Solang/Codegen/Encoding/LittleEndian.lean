import Solang.Codegen.Encoding.Encode

/-!
# Bytes of an integer

`toLittleEndian` and `littleEndian` are inverse to each other, for the integers of a number of bytes and the
lists of this length.
-/

namespace Solang.Codegen.Encoding

@[simp] theorem length_toLittleEndian (count n : Nat) : (toLittleEndian count n).length = count := by
  induction count generalizing n with
  | zero => rfl
  | succ count ih =>
    rw [toLittleEndian, List.length_cons, ih]

theorem littleEndian_toLittleEndian (count n : Nat) :
    littleEndian (toLittleEndian count n) = n % 256 ^ count := by
  induction count generalizing n with
  | zero => rw [Nat.pow_zero, Nat.mod_one]; rfl
  | succ count ih =>
    rw [toLittleEndian, littleEndian, ih, Nat.pow_succ', Nat.mod_mul]
    rfl

theorem littleEndian_inj {l r : List UInt8} (hlen : l.length = r.length)
    (h : littleEndian l = littleEndian r) : l = r := by
  induction l generalizing r with
  | nil => exact (List.length_eq_zero_iff.mp hlen.symm).symm
  | cons a l ih =>
    cases r with
    | nil => cases hlen
    | cons b r =>
      simp only [littleEndian] at h
      have ha := a.toNat_lt
      have hb := b.toNat_lt
      have hab : a = b := UInt8.toNat_inj.mp (by omega)
      rw [hab, ih (Nat.succ.inj hlen) (by omega)]

/-- A list of bytes is the one of its integer. -/
theorem eq_toLittleEndian_iff {bs : List UInt8} {count n : Nat} (hlen : bs.length = count) :
    bs = toLittleEndian count n ↔ littleEndian bs = n % 256 ^ count := by
  rw [← littleEndian_toLittleEndian]
  exact ⟨congrArg _, littleEndian_inj (by rw [hlen, length_toLittleEndian])⟩

/-! ## Resized lists -/

theorem littleEndian_takeD_zero (count : Nat) (bs : List UInt8) :
    littleEndian (bs.takeD count 0) = littleEndian bs % 256 ^ count := by
  induction count generalizing bs with
  | zero => rw [Nat.pow_zero, Nat.mod_one]; rfl
  | succ count ih =>
    cases bs with
    | nil =>
      have hrest := ih []
      rw [littleEndian, Nat.zero_mod] at hrest ⊢
      show 0 + 256 * littleEndian (List.takeD count [] 0) = 0
      rw [hrest]
    | cons b bs =>
      have hb := b.toNat_lt
      have hmod : (b.toNat + 256 * littleEndian bs) % 256 = b.toNat := by omega
      have hdiv : (b.toNat + 256 * littleEndian bs) / 256 = littleEndian bs := by omega
      show b.toNat + 256 * littleEndian (bs.takeD count 0) = _
      rw [ih, littleEndian, Nat.pow_succ', Nat.mod_mul, hmod, hdiv]

/-- With ones instead of zeros, what is added lies above the bytes of the list. -/
theorem littleEndian_takeD_ones {count : Nat} {bs : List UInt8} (hlen : bs.length ≤ count) :
    littleEndian (bs.takeD count 0xff) + 256 ^ bs.length = littleEndian bs + 256 ^ count := by
  induction count generalizing bs with
  | zero =>
    obtain rfl := List.length_eq_zero_iff.mp (Nat.le_zero.mp hlen)
    rfl
  | succ count ih =>
    cases bs with
    | nil =>
      have hrest : littleEndian (List.takeD count [] 0xff) + 256 ^ ([] : List UInt8).length =
          littleEndian [] + 256 ^ count := ih (Nat.zero_le count)
      show 255 + 256 * littleEndian (List.takeD count [] 0xff) + 1 = 0 + 256 ^ (count + 1)
      rw [List.length_nil, Nat.pow_zero, littleEndian] at hrest
      rw [Nat.pow_succ]
      omega
    | cons b bs =>
      have hrest := ih (Nat.le_of_succ_le_succ hlen)
      show b.toNat + 256 * littleEndian (bs.takeD count 0xff) + 256 ^ (bs.length + 1) = _
      rw [littleEndian, Nat.pow_succ, Nat.pow_succ]
      omega

end Solang.Codegen.Encoding
