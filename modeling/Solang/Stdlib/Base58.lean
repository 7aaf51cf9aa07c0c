import Mathlib.Data.List.GetD
import Mathlib.Data.Nat.Digits.Lemmas

/-!
# Addresses in base 58

`base58_encode_solana_address` of `stdlib/format.c`. The lengths are those that are passed, and the
indices of `uint32_t` are their numbers. A result is `none` where an index is outside of the
input, of the output or of the table of digits.
-/

namespace Solang.Stdlib.Base58

/-- `b58digits` -/
def b58digits : List Char :=
  ['1', '2', '3', '4', '5', '6', '7', '8', '9',
    'A', 'B', 'C', 'D', 'E', 'F', 'G', 'H', 'J', 'K', 'L', 'M', 'N', 'P', 'Q', 'R', 'S', 'T', 'U',
    'V', 'W', 'X', 'Y', 'Z',
    'a', 'b', 'c', 'd', 'e', 'f', 'g', 'h', 'i', 'j', 'k', 'm', 'n', 'o', 'p', 'q', 'r', 's', 't',
    'u', 'v', 'w', 'x', 'y', 'z']

/-- The first loop, for this many bytes from `zeroCount` on -/
def skipZeros (data : List (BitVec 8)) : Nat → Nat → Option Nat
  | 0, zeroCount => some zeroCount
  | left + 1, zeroCount => do
    let v ← data[zeroCount]?
    if v = 0 then skipZeros data left (zeroCount + 1) else return zeroCount

/-- The inner loop from `j` on: the last value of `j`, and the output -/
def addByte (high : Nat) : Nat → BitVec 32 → List (BitVec 8) → Option (Nat × List (BitVec 8))
  | j, carry, output =>
    if j > high ∨ carry ≠ 0 then do
      let digit ← output[j]?
      let carry := carry + 256 * digit.setWidth 32
      let output := output.set j ((carry % 58).setWidth 8)
      match j with
      | 0 => return (0, output)
      | j + 1 => addByte high j (carry / 58) output
    else some (j, output)

/-- The outer loop, for this many bytes from `i` on -/
def addBytes (data : List (BitVec 8)) (outputLen : BitVec 32) :
    Nat → Nat → Nat → List (BitVec 8) → Option (List (BitVec 8))
  | 0, _, _, output => some output
  | left + 1, i, high, output => do
    let v ← data[i]?
    let (j, output) ← addByte high (outputLen - 1).toNat (v.setWidth 32) output
    addBytes data outputLen left (i + 1) j output

/-- The last loop, for this many digits from `j` on -/
def writeDigits : Nat → Nat → List (BitVec 8) → Option (List (BitVec 8))
  | 0, _, output => some output
  | left + 1, j, output => do
    let digit ← output[j]?
    let ch ← b58digits[digit.toNat]?
    writeDigits left (j + 1) (output.set j (BitVec.ofNat 8 ch.toNat))

def base58EncodeSolanaAddress (data : List (BitVec 8)) (dataLen : BitVec 32) (output : List (BitVec 8))
    (outputLen : BitVec 32) : Option (List (BitVec 8)) := do
  let zeroCount ← skipZeros data dataLen.toNat 0
  let output ← addBytes data outputLen (dataLen.toNat - zeroCount) zeroCount (outputLen - 1).toNat output
  writeDigits outputLen.toNat 0 output

end Solang.Stdlib.Base58

/-!
## Addresses in base 58 are numerals

The suffix of the output that the inner loop leaves behind holds low digits of the result, and what
stands before it is a shorter output for which the same is to be done with the carry. Where the
next byte starts there are only zeros up to the last value of `j`, unless that is zero: then the
capacity of the output says that the first digit stays zero.
-/

namespace Solang.Stdlib.Base58

/-! ### Numbers with the highest digit first -/

def value (b : Nat) (digits : List (BitVec 8)) : Nat := Nat.ofDigits b (digits.reverse.map BitVec.toNat)

/-- The character of a digit -/
def digitChar (digit : BitVec 8) : BitVec 8 := BitVec.ofNat 8 (b58digits.getD digit.toNat '1').toNat

/-- The digits of a number in base 58, the highest first, with zeros before it up to `n` digits -/
def numeral58 (n v : Nat) : List (BitVec 8) := (Nat.digitsAppend 58 n v).reverse.map (BitVec.ofNat 8)

section

variable {b : Nat} {l : List (BitVec 8)} {d : BitVec 8}

@[simp] theorem value_concat : value b (l ++ [d]) = b * value b l + d.toNat := by
  simp only [value, List.reverse_append, List.reverse_cons, List.reverse_nil, List.nil_append, List.map_cons,
    List.cons_append, Nat.ofDigits_cons]
  omega

theorem value_zeros (h : ∀ d ∈ l, d = 0) : value b l = 0 := by
  induction l using List.reverseRecOn with
  | nil => rfl
  | append_singleton l d ih =>
    have hd : d = 0 := h d (by simp)
    rw [value_concat, ih fun e he => h e (List.mem_append_left _ he), hd]
    rfl

theorem value_lt (h : ∀ d ∈ l, d.toNat < b) (hb : 1 < b) : value b l < b ^ l.length := by
  have hlt := Nat.ofDigits_lt_base_pow_length (l := l.reverse.map BitVec.toNat) hb (by simpa using h)
  simpa [value] using hlt

theorem value_take_succ {i : Nat} (h : i < l.length) :
    value b (l.take (i + 1)) = b * value b (l.take i) + l[i].toNat := by
  rw [List.take_add_one, List.getElem?_eq_getElem h]
  exact value_concat

end

/-! ### The inner loop -/

/-- The part of the output up to `high` that was not written -/
def Blank (high : Nat) (output : List (BitVec 8)) : Prop := high = 0 ∨ ∀ d ∈ output.take (high + 1), d = 0

section

variable {high j : Nat} {pre suf : List (BitVec 8)} {d : BitVec 8}

theorem Blank.prefix (h : Blank high (pre ++ [d])) : Blank high pre := by
  rcases h with h | h
  · exact Or.inl h
  · refine Or.inr fun e he => h e ?_
    rw [List.take_append]
    exact List.mem_append_left _ he

theorem Blank.concat (h : Blank j pre) (hj : j < pre.length) : Blank j (pre ++ [d]) := by
  unfold Blank
  rw [List.take_append_of_le_length hj]
  exact h

/-- Where the inner loop ends, nothing but zeros is left. -/
theorem Blank.zeros (h : Blank high pre) (hj : j ≤ high) (hlen : pre.length = j + 1)
    (hcap : 256 * value 58 pre < 58 ^ (j + 1)) : ∀ d ∈ pre, d = 0 := by
  rcases h with rfl | h
  · obtain rfl : j = 0 := Nat.le_zero.mp hj
    obtain ⟨d, rfl⟩ := List.length_eq_one_iff.mp hlen
    have hvalue : value 58 [d] = d.toNat := by simp [value]
    rw [hvalue] at hcap
    intro e he
    rw [List.mem_singleton.mp he]
    exact BitVec.eq_of_toNat_eq (show d.toNat = 0 by omega)
  · rwa [List.take_of_length_le (by omega)] at h

/-- A digit times 256 and the carry -/
theorem toNat_carry {carry : BitVec 32} (hd : d.toNat < 58) (hcarry : carry.toNat < 256) :
    (carry + 256 * d.setWidth 32).toNat = carry.toNat + 256 * d.toNat := by
  have h256 : (256 : BitVec 32).toNat = 256 := rfl
  rw [BitVec.toNat_add, BitVec.toNat_mul, BitVec.toNat_setWidth, h256]
  omega

theorem toNat_lowDigit (c : BitVec 32) : ((c % 58).setWidth 8).toNat = c.toNat % 58 := by
  have h58 : (58 : BitVec 32).toNat = 58 := rfl
  rw [BitVec.toNat_setWidth, BitVec.toNat_umod, h58]
  omega

theorem toNat_highDigits (c : BitVec 32) : (c / 58).toNat = c.toNat / 58 := BitVec.toNat_udiv

theorem getElem?_last (hlen : pre.length = j) : (pre ++ [d] ++ suf)[j]? = some d := by
  rw [← hlen]
  simp

theorem set_last (hlen : pre.length = j) (x : BitVec 8) : (pre ++ [d] ++ suf).set j x = pre ++ x :: suf := by
  rw [← hlen]
  simp

/-- The output is multiplied by 256 and the carry is added. -/
theorem addByte_spec (j : Nat) (carry : BitVec 32) (pre suf : List (BitVec 8)) (hlen : pre.length = j + 1)
    (hdigits : ∀ d ∈ pre, d.toNat < 58) (hcarry : carry.toNat < 256) (hblank : Blank high pre)
    (hcap : 256 * value 58 pre + carry.toNat < 58 ^ (j + 1)) :
    ∃ j' pre', addByte high j carry (pre ++ suf) = some (j', pre' ++ suf) ∧ pre'.length = j + 1 ∧
      (∀ d ∈ pre', d.toNat < 58) ∧ value 58 pre' = 256 * value 58 pre + carry.toNat ∧ j' ≤ j ∧
      Blank j' pre' := by
  induction j generalizing carry pre suf with
  | zero =>
    obtain ⟨d, rfl⟩ := List.length_eq_one_iff.mp hlen
    have hvalue : value 58 [d] = d.toNat := by simp [value]
    rw [hvalue] at hcap ⊢
    have hc := toNat_carry (hdigits d (List.mem_singleton_self d)) hcarry
    by_cases hgo : 0 > high ∨ carry ≠ 0
    · refine ⟨0, [((carry + 256 * d.setWidth 32) % 58).setWidth 8], ?_, rfl, ?_, ?_, Nat.le_refl 0, Or.inl rfl⟩
      · unfold addByte
        rw [if_pos hgo]
        rfl
      · intro e he
        rw [List.mem_singleton.mp he, toNat_lowDigit]
        omega
      · simp only [value, List.reverse_singleton, List.map_cons, List.map_nil, Nat.ofDigits_singleton]
        rw [toNat_lowDigit, hc]
        omega
    · have hzero : carry = 0 := not_not.mp fun h => hgo (Or.inr h)
      have hd : d.toNat = 0 := by omega
      refine ⟨0, [d], ?_, rfl, hdigits, ?_, Nat.le_refl 0, Or.inl rfl⟩
      · unfold addByte
        rw [if_neg hgo]
      · rw [hvalue, hd, hzero]
        rfl
  | succ j ih =>
    by_cases hgo : j + 1 > high ∨ carry ≠ 0
    · obtain ⟨pre, d, rfl⟩ : ∃ pre' d, pre = pre' ++ [d] :=
        ⟨pre.dropLast, pre.getLast (List.ne_nil_of_length_pos (by omega)), (List.dropLast_append_getLast _).symm⟩
      have hlen' : pre.length = j + 1 := by simpa using hlen
      have hc := toNat_carry (hdigits d (by simp)) hcarry
      have hd : d.toNat < 58 := hdigits d (by simp)
      let c := carry + 256 * d.setWidth 32
      have hhigh : (c / 58).toNat = (carry.toNat + 256 * d.toNat) / 58 := by rw [toNat_highDigits, hc]
      have hlow : ((c % 58).setWidth 8).toNat = (carry.toNat + 256 * d.toNat) % 58 := by rw [toNat_lowDigit, hc]
      rw [value_concat] at hcap ⊢
      rw [Nat.pow_succ] at hcap
      obtain ⟨j', pre', hrun, hl, hds, hv, hj, hb⟩ := ih (c / 58) pre ((c % 58).setWidth 8 :: suf) hlen'
        (fun e he => hdigits e (List.mem_append_left _ he)) (by omega) hblank.prefix (by omega)
      refine ⟨j', pre' ++ [(c % 58).setWidth 8], ?_, ?_, ?_, ?_, by omega, hb.concat (by omega)⟩
      · unfold addByte
        rw [if_pos hgo, getElem?_last hlen']
        simp only [Option.bind_eq_bind, Option.bind_some]
        rw [set_last hlen', hrun, List.append_assoc]
        rfl
      · rw [List.length_append, hl]
        rfl
      · intro e he
        rcases List.mem_append.mp he with he | he
        · exact hds e he
        · rw [List.mem_singleton.mp he, hlow]
          omega
      · rw [value_concat, hv, hlow, hhigh]
        omega
    · have hzero : carry = 0 := not_not.mp fun h => hgo (Or.inr h)
      have hall := hblank.zeros (j := j + 1) (by omega) hlen (by omega)
      refine ⟨j + 1, pre, ?_, hlen, hdigits, ?_, Nat.le_refl _, Or.inr fun e he => hall e (List.mem_of_mem_take he)⟩
      · unfold addByte
        rw [if_neg hgo]
      · rw [value_zeros hall, hzero]
        rfl

end

/-! ### The loops over the input and over the output -/

theorem skipZeros_spec (data : List (BitVec 8)) (left z : Nat) (hleft : z + left = data.length)
    (hz : value 256 (data.take z) = 0) :
    ∃ k, skipZeros data left z = some k ∧ k ≤ data.length ∧ value 256 (data.take k) = 0 := by
  induction left generalizing z with
  | zero => exact ⟨z, rfl, by omega, hz⟩
  | succ left ih =>
    have hlt : z < data.length := by omega
    by_cases h0 : data[z] = 0
    · obtain ⟨k, hk, hrest⟩ := ih (z + 1) (by omega) (by rw [value_take_succ hlt, hz, h0]; rfl)
      refine ⟨k, ?_, hrest⟩
      simp only [skipZeros, List.getElem?_eq_getElem hlt, Option.bind_eq_bind, Option.bind_some, h0, if_true]
      exact hk
    · refine ⟨z, ?_, by omega, hz⟩
      simp only [skipZeros, List.getElem?_eq_getElem hlt, Option.bind_eq_bind, Option.bind_some, if_neg h0]
      rfl

/-- After `i` bytes the output holds their number. -/
theorem addBytes_spec (data : List (BitVec 8)) (outputLen : BitVec 32) (hcap : 256 ^ data.length ≤ 58 ^ outputLen.toNat)
    (left i high : Nat) (output : List (BitVec 8)) (hleft : i + left = data.length)
    (hlen : output.length = outputLen.toNat) (hdigits : ∀ d ∈ output, d.toNat < 58) (hblank : Blank high output)
    (hvalue : value 58 output = value 256 (data.take i)) :
    ∃ output', addBytes data outputLen left i high output = some output' ∧ output'.length = outputLen.toNat ∧
      (∀ d ∈ output', d.toNat < 58) ∧ value 58 output' = value 256 data := by
  induction left generalizing i high output with
  | zero =>
    refine ⟨output, rfl, hlen, hdigits, ?_⟩
    rw [hvalue, List.take_of_length_le (by omega)]
  | succ left ih =>
    have hlt : i < data.length := by omega
    have hpos : 0 < outputLen.toNat := by
      refine Nat.pos_of_ne_zero fun h => ?_
      have hone : 256 ^ 1 ≤ 256 ^ data.length := Nat.pow_le_pow_right (by decide) (by omega)
      rw [h] at hcap
      omega
    have hlast : (outputLen - 1).toNat + 1 = outputLen.toNat := by
      have h1 : (1 : BitVec 32).toNat = 1 := rfl
      rw [BitVec.toNat_sub, h1]
      omega
    have hbyte : (data[i].setWidth 32).toNat = data[i].toNat := by
      rw [BitVec.toNat_setWidth]
      exact Nat.mod_eq_of_lt (Nat.lt_of_lt_of_le data[i].isLt (by decide))
    have hnext := value_take_succ (b := 256) hlt
    have hfits : value 256 (data.take (i + 1)) < 58 ^ outputLen.toNat := by
      refine Nat.lt_of_lt_of_le (value_lt (fun d _ => d.isLt) (by decide)) (le_trans ?_ hcap)
      exact Nat.pow_le_pow_right (by decide) (List.length_take_le _ _ |>.trans (by omega))
    obtain ⟨j, output', hrun, hl, hds, hv, -, hb⟩ := addByte_spec (outputLen - 1).toNat (data[i].setWidth 32) output []
      (by omega) hdigits (by rw [hbyte]; exact data[i].isLt) hblank (by rw [hlast, hvalue, hbyte]; omega)
    obtain ⟨output'', hrest, hspec⟩ := ih (i + 1) j output' (by omega) (by omega) hds hb
      (by rw [hv, hvalue, hbyte, hnext])
    refine ⟨output'', ?_, hspec⟩
    simp only [List.append_nil] at hrun
    simp only [addBytes, List.getElem?_eq_getElem hlt, Option.bind_eq_bind, Option.bind_some, hrun]
    exact hrest

theorem writeDigits_spec (output done : List (BitVec 8)) (hdigits : ∀ d ∈ output, d.toNat < 58) :
    writeDigits output.length done.length (done ++ output) = some (done ++ output.map digitChar) := by
  induction output generalizing done with
  | nil => rw [List.map_nil]; rfl
  | cons d output ih =>
    have hd : d.toNat < b58digits.length := hdigits d List.mem_cons_self
    have hchar : b58digits[d.toNat]? = some (b58digits.getD d.toNat '1') := by
      rw [List.getD_eq_getElem _ _ hd, List.getElem?_eq_getElem hd]
    have hnext := ih (done ++ [digitChar d]) fun e he => hdigits e (List.mem_cons_of_mem _ he)
    rw [List.length_append] at hnext
    have hget : (done ++ d :: output)[done.length]? = some d := by simp
    have hset : (done ++ d :: output).set done.length (digitChar d) = done ++ [digitChar d] ++ output := by simp
    simp only [writeDigits, List.length_cons, hget, Option.bind_eq_bind, Option.bind_some, hchar]
    rw [show BitVec.ofNat 8 (b58digits.getD d.toNat '1').toNat = digitChar d from rfl, hset]
    rw [List.map_cons, ← List.singleton_append (l := output.map digitChar), ← List.append_assoc]
    exact hnext

/-! ### The function -/

/-- Digits of this number and this length are its numeral. -/
theorem eq_numeral58 {n : Nat} {output : List (BitVec 8)} (hlen : output.length = n)
    (hdigits : ∀ d ∈ output, d.toNat < 58) : output = numeral58 n (value 58 output) := by
  have hback : Nat.digitsAppend 58 n (value 58 output) = output.reverse.map BitVec.toNat :=
    (Nat.setInvOn_digitsAppend_ofDigits (by decide) n).1 ⟨by simpa using hlen, by simpa using hdigits⟩
  have hid : (BitVec.ofNat 8 ∘ BitVec.toNat : BitVec 8 → BitVec 8) = id := funext fun d => BitVec.eq_of_toNat_eq (by simp)
  unfold numeral58
  rw [hback, ← List.map_reverse, List.reverse_reverse, List.map_map, hid, List.map_id]

/-- The digits are those of the number, and no index is out of range. -/
theorem encode_spec (data : List (BitVec 8)) (dataLen outputLen : BitVec 32)
    (hlen : data.length = dataLen.toNat) (hcap : 256 ^ dataLen.toNat ≤ 58 ^ outputLen.toNat) :
    base58EncodeSolanaAddress data dataLen (List.replicate outputLen.toNat 0) outputLen =
      some ((numeral58 outputLen.toNat (value 256 data)).map digitChar) ∧
    (numeral58 outputLen.toNat (value 256 data)).length = outputLen.toNat := by
  have hzeros : ∀ d ∈ List.replicate outputLen.toNat (0 : BitVec 8), d = 0 := fun d hd => List.eq_of_mem_replicate hd
  obtain ⟨k, hskip, hk, hvalue⟩ := skipZeros_spec data dataLen.toNat 0 (by omega) rfl
  obtain ⟨output, hrun, hl, hdigits, hv⟩ := addBytes_spec data outputLen (hlen ▸ hcap) (dataLen.toNat - k) k
    (outputLen - 1).toNat (List.replicate outputLen.toNat 0) (by omega) List.length_replicate
    (fun d hd => by rw [hzeros d hd]; decide) (Or.inr fun d hd => hzeros d (List.mem_of_mem_take hd))
    (by rw [value_zeros hzeros, hvalue])
  have hwrite := writeDigits_spec output [] hdigits
  have hnumeral : output = numeral58 outputLen.toNat (value 256 data) := by
    rw [← hv]
    exact eq_numeral58 hl hdigits
  constructor
  · unfold base58EncodeSolanaAddress
    simp only [hskip, hrun, Option.bind_eq_bind, Option.bind_some]
    rw [← hnumeral, ← hl]
    exact hwrite
  · rw [← hnumeral, hl]

/-- The text is the numeral of the input, and no index is out of range. -/
theorem base58EncodeSolanaAddress_correct (data : List (BitVec 8)) (dataLen outputLen : BitVec 32)
    (hlen : data.length = dataLen.toNat) (hcap : 256 ^ dataLen.toNat ≤ 58 ^ outputLen.toNat) :
    base58EncodeSolanaAddress data dataLen (List.replicate outputLen.toNat 0) outputLen =
      some ((numeral58 outputLen.toNat (value 256 data)).map digitChar) :=
  (encode_spec data dataLen outputLen hlen hcap).1

/-- Two bytes, one of them zero, in three digits -/
theorem base58EncodeSolanaAddress_correct_two : 256 ^ 2 ≤ 58 ^ 3 ∧
    base58EncodeSolanaAddress [0, 0xff] 2 (List.replicate 3 0) 3 =
      some ((numeral58 3 (value 256 [0, 0xff])).map digitChar) :=
  ⟨by decide, base58EncodeSolanaAddress_correct [0, 0xff] 2 3 rfl (by decide)⟩

end Solang.Stdlib.Base58
