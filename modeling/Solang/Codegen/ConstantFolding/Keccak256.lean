import Solang.Codegen.ConstantFolding.BytesConcat
import Solang.Codegen.Encoding.LittleEndian
import Solang.Codegen.StrengthReduce.Elements

/-!
# Hashes of constants

`keccak_256` of `codegen/constant_folding.rs` hashes the bytes of constant arguments, and `Expression::Keccak256`
those that it stores in a buffer. Strings and integers that are not negative are the same, where the store fills
the size of the type. A negative integer is not complemented, and the bytes of `bytesN` and of addresses come in
the other order.
-/

namespace Solang.Codegen.ConstantFolding

open Encoding (toLittleEndian littleEndian)

/-! ## Constants -/

/-- `bigint_to_expression`, for the types of whole bytes: the integer that a literal gets. Other types than
integers and references to storage are not reached. -/
def bigintToExpression (ty : Ty) (value : Int) : Expression :=
  match ty with
  | .uint bits =>
    if value < 0 ∨ 2 ^ bits ≤ value then .numberLiteral ty (value % 2 ^ (bits / 8 * 8)) else .numberLiteral ty value
  | .int bits =>
    if -2 ^ (bits - 1) ≤ value ∧ value < 2 ^ (bits - 1) then .numberLiteral ty value
    else .numberLiteral ty (value.bmod (2 ^ (bits / 8 * 8)))
  | _ => .numberLiteral ty value

/-- `BigInt::to_bytes_le`, of the magnitude -/
def toBytesLe (value : Int) : List UInt8 := toLittleEndian (value.natAbs.log2 / 8 + 1) value.natAbs

section Fold

variable (ns : StrengthReduce.Namespace)

/-- What an argument adds to the hash. Other expressions are not constant. The source panics at integer literals
of other types, and does not end for one of `bytesN` that has more bytes. -/
def hashed : Expression → Option (List UInt8)
  | .unary (.allocDynamicBytes _ (some value)) _ => some value
  | .bytesLiteral _ value => some value
  | .numberLiteral ty value =>
    let bs := toBytesLe value
    match ty with
    | .enum _ => some (bs.takeD 1 0)
    | .uint bits => some (bs.takeD (bits / 8) 0)
    | .int bits => some (bs.takeD (bits / 8) (if value < 0 then 0xff else 0))
    | .bytes n => if n < bs.length then none else some bs
    | .address _ => some (bs.takeD ns.addressLength 0)
    | _ => none
  | _ => none

/-- The bytes that are hashed, if all arguments are constant -/
def foldedInput (args : List Expression) : Option (List UInt8) := (args.mapM (hashed ns)).map List.flatten

/-- `keccak_256`; `fold` is the folding of an argument and `hash` the hash function. -/
def keccak256 (fold : Expression → Expression) (hash : List UInt8 → List UInt8) (ty : Ty)
    (args : List Expression) : Expression :=
  match foldedInput ns (args.map fold) with
  | some input => .bytesLiteral ty (hash input).reverse
  | none => .nary (.keccak256 ty) (args.map fold)

/-! ## Run time -/

variable (padding : Nat → List UInt8)

/-- The buffer after the store of an integer of this width. The size of the type can be more than that of the
integer; `padding` is what is left there on the stack. -/
def storedInt (bits : Nat) (v : Int) : List UInt8 :=
  toLittleEndian ((bits + 7) / 8) (v % 2 ^ bits).toNat ++ padding bits

/-- The bytes of an argument in the buffer. An address is an array of bytes, and `bytesN` an integer. -/
def stored : Expression → List UInt8
  | .unary (.allocDynamicBytes _ (some value)) _ => value
  | .bytesLiteral .string value => value
  | .bytesLiteral _ value => value.reverse ++ padding (8 * value.length)
  | .numberLiteral (.address _) v =>
    (toLittleEndian ns.addressLength (v % 2 ^ (8 * ns.addressLength)).toNat).reverse
  | .numberLiteral ty v => storedInt padding (ty.bits ns) v
  | _ => []

/-- The bytes that `Expression::Keccak256` hashes -/
def storedInput (args : List Expression) : List UInt8 := args.flatMap (stored ns padding)

/-- A constant of one of the types of the language -/
def WellTyped : Expression → Prop
  | .numberLiteral (.uint bits) v => 8 ∣ bits ∧ 0 ≤ v ∧ v < 2 ^ bits
  | .numberLiteral (.int bits) v => 8 ∣ bits ∧ 0 < bits ∧ -2 ^ (bits - 1) ≤ v ∧ v < 2 ^ (bits - 1)
  | .numberLiteral (.enum no) v => ns.enumBits no = 8 ∧ 0 ≤ v ∧ v < 2 ^ 8
  | .numberLiteral (.bytes n) v => 0 ≤ v ∧ v < 2 ^ (8 * n)
  | .bytesLiteral ty _ => ty ≠ .dynamicBytes ∧ ty ≠ .address true
  | _ => True

/-- The argument is hashed as it is stored. -/
def HashedAsStored : Expression → Prop
  | .bytesLiteral .string _ => True
  | .bytesLiteral _ value => value.reverse = value ∧ padding (8 * value.length) = []
  | .numberLiteral (.address _) v =>
    (toLittleEndian ns.addressLength (v % 2 ^ (8 * ns.addressLength)).toNat).reverse =
      toLittleEndian ns.addressLength v.natAbs
  | .numberLiteral (.int bits) v => padding bits = [] ∧ (v < 0 → ∃ k : Nat, v = -2 ^ (8 * k + 7))
  | .numberLiteral (.bytes n) v => padding (8 * n) = [] ∧ (2 ^ (8 * (n - 1)) ≤ v ∨ n = 1)
  | .numberLiteral ty _ => padding (ty.bits ns) = []
  | _ => True

end Fold

/-! ## Bytes of a magnitude -/

section Bytes

open Encoding (length_toLittleEndian littleEndian_toLittleEndian littleEndian_takeD_zero littleEndian_takeD_ones
  eq_toLittleEndian_iff)

variable {n : Nat} {v : Int}

theorem pow_bytes (n : Nat) : (256 : Nat) ^ n = 2 ^ (8 * n) := by
  rw [Nat.pow_mul]

theorem lt_toBytesLe (v : Int) : v.natAbs < 256 ^ (toBytesLe v).length := by
  rw [toBytesLe, length_toLittleEndian, pow_bytes]
  exact Nat.lt_log2_self.trans_le (Nat.pow_le_pow_right (by decide) (by omega))

@[simp] theorem littleEndian_toBytesLe (v : Int) : littleEndian (toBytesLe v) = v.natAbs := by
  have hlt := lt_toBytesLe v
  rw [toBytesLe, length_toLittleEndian] at hlt
  rw [toBytesLe, littleEndian_toLittleEndian, Nat.mod_eq_of_lt hlt]

/-- The bytes are as few as the magnitude has, but at least one. -/
theorem length_toBytesLe_le_iff (hn : 0 < n) : (toBytesLe v).length ≤ n ↔ v.natAbs < 256 ^ n := by
  constructor
  · exact fun hle => (lt_toBytesLe v).trans_le (Nat.pow_le_pow_right (by decide) hle)
  · intro hlt
    rw [toBytesLe, length_toLittleEndian]
    by_cases hv : v.natAbs = 0
    · rw [hv]
      exact hn
    · have hlog := (Nat.log2_lt hv).mpr (pow_bytes n ▸ hlt)
      omega

theorem length_toBytesLe_eq_iff (hn : 0 < n) (hlt : v.natAbs < 256 ^ n) :
    (toBytesLe v).length = n ↔ 256 ^ (n - 1) ≤ v.natAbs ∨ n = 1 := by
  have hle := (length_toBytesLe_le_iff (v := v) hn).mpr hlt
  have hpos : 0 < (toBytesLe v).length := by
    rw [toBytesLe, length_toLittleEndian]
    omega
  by_cases h1 : n = 1
  · subst h1
    exact iff_of_true (by omega) (.inr rfl)
  · have hfew := length_toBytesLe_le_iff (v := v) (n := n - 1) (by omega)
    omega

/-- An integer that is not negative, resized to its type -/
theorem takeD_toBytesLe (n : Nat) (v : Int) : (toBytesLe v).takeD n 0 = toLittleEndian n v.natAbs := by
  rw [eq_toLittleEndian_iff (List.takeD_length _ _ _), littleEndian_takeD_zero, littleEndian_toBytesLe]

theorem toNat_emod_of_nonneg (hv : 0 ≤ v) (hlt : v < 2 ^ (8 * n)) : (v % 2 ^ (8 * n)).toNat = v.natAbs := by
  rw [Int.emod_eq_of_lt hv hlt]
  omega

/-- Of a negative integer the magnitude is filled with ones, which is only the complement for a power of two. -/
theorem takeD_toBytesLe_neg (hv : v < 0) (hn : 0 < n) (hle : -2 ^ (8 * n - 1) ≤ v) :
    (toBytesLe v).takeD n 0xff = toLittleEndian n (v % 2 ^ (8 * n)).toNat ↔ ∃ k : Nat, v = -2 ^ (8 * k + 7) := by
  have hhalf : (2 : Nat) ^ (8 * n) = 2 * 2 ^ (8 * n - 1) := by
    rw [← Nat.pow_succ', show (8 * n - 1).succ = 8 * n by omega]
  have hcast : ((2 ^ (8 * n - 1) : Nat) : Int) = 2 ^ (8 * n - 1) := Int.natCast_pow 2 _
  have hcast' : ((2 ^ (8 * n) : Nat) : Int) = 2 ^ (8 * n) := Int.natCast_pow 2 _
  have hlen := (length_toBytesLe_le_iff (v := v) hn).mpr (by rw [pow_bytes]; omega)
  have hones := littleEndian_takeD_ones hlen
  have hmod : (v % 2 ^ (8 * n)).toNat = 2 ^ (8 * n) - v.natAbs := by
    rw [← Int.add_emod_right, Int.emod_eq_of_lt (by omega) (by omega)]
    omega
  rw [littleEndian_toBytesLe, pow_bytes n] at hones
  rw [eq_toLittleEndian_iff (List.takeD_length _ _ _), hmod, pow_bytes n, Nat.mod_eq_of_lt (by omega)]
  -- the magnitude is half of the power of its bytes
  have hpow : (256 : Nat) ^ (toBytesLe v).length = 2 * 2 ^ (8 * ((toBytesLe v).length - 1) + 7) := by
    have hpos : 0 < (toBytesLe v).length := by
      rw [toBytesLe, length_toLittleEndian]
      exact Nat.succ_pos _
    rw [pow_bytes, ← Nat.pow_succ', show 8 * (toBytesLe v).length = (8 * ((toBytesLe v).length - 1) + 7).succ by omega]
  constructor
  · intro heq
    refine ⟨(toBytesLe v).length - 1, ?_⟩
    have hcast'' : ((2 ^ (8 * ((toBytesLe v).length - 1) + 7) : Nat) : Int) =
        2 ^ (8 * ((toBytesLe v).length - 1) + 7) := Int.natCast_pow 2 _
    omega
  · rintro ⟨k, hk⟩
    have habs : v.natAbs = 2 ^ (8 * k + 7) := by
      rw [hk, Int.natAbs_neg, Int.natAbs_pow]
      rfl
    have hlength : (toBytesLe v).length = k + 1 := by
      rw [toBytesLe, length_toLittleEndian, habs, Nat.log2_two_pow]
      omega
    rw [hlength] at hpow
    rw [hlength, hpow, Nat.add_sub_cancel] at hones
    omega

end Bytes

/-! ## One argument -/

section Argument

open Encoding (length_toLittleEndian)

variable {ns : StrengthReduce.Namespace} (padding : Nat → List UInt8) {arg : Expression} {bs l r p : List UInt8}

/-- What is hashed is stored with the padding after it. -/
theorem padded_iff {Q : Prop} (hlen : l.length ≤ r.length) (hiff : l = r ↔ Q) :
    l.length ≤ (r ++ p).length ∧ (l = r ++ p ↔ p = [] ∧ Q) := by
  rw [List.length_append, ← hiff]
  refine ⟨by omega, fun heq => ?_, fun ⟨hp, heq⟩ => by rw [hp, List.append_nil, heq]⟩
  have htotal := congrArg List.length heq
  rw [List.length_append] at htotal
  obtain rfl := List.length_eq_zero_iff.mp (show p.length = 0 by omega)
  exact ⟨rfl, by rwa [List.append_nil] at heq⟩

theorem storedInt_bytes (n : Nat) (v : Int) :
    storedInt padding (8 * n) v = toLittleEndian n (v % 2 ^ (8 * n)).toNat ++ padding (8 * n) := by
  rw [storedInt, show (8 * n + 7) / 8 = n by omega]

/-- The bytes of an integer that is not negative, with its size -/
theorem unsigned_iff {n : Nat} {v : Int} (hv : 0 ≤ v) (hlt : v < 2 ^ (8 * n)) :
    ((toBytesLe v).takeD n 0).length ≤ (storedInt padding (8 * n) v).length ∧
      ((toBytesLe v).takeD n 0 = storedInt padding (8 * n) v ↔ padding (8 * n) = []) := by
  rw [storedInt_bytes, toNat_emod_of_nonneg hv hlt, takeD_toBytesLe]
  simp

theorem signed_iff {n : Nat} {v : Int} (hn : 0 < n) (hle : -2 ^ (8 * n - 1) ≤ v) (hlt : v < 2 ^ (8 * n - 1)) :
    ((toBytesLe v).takeD n (if v < 0 then 0xff else 0)).length ≤ (storedInt padding (8 * n) v).length ∧
      ((toBytesLe v).takeD n (if v < 0 then 0xff else 0) = storedInt padding (8 * n) v ↔
        padding (8 * n) = [] ∧ (v < 0 → ∃ k : Nat, v = -2 ^ (8 * k + 7))) := by
  by_cases hv : v < 0
  · rw [if_pos hv, storedInt_bytes]
    refine padded_iff ?_ ((takeD_toBytesLe_neg hv hn hle).trans ⟨fun h _ => h, fun h => h hv⟩)
    rw [List.takeD_length, length_toLittleEndian]
  · rw [if_neg hv]
    have hwide : (2 : Int) ^ (8 * n - 1) ≤ 2 ^ (8 * n) := pow_le_pow_right₀ (by decide) (by omega)
    obtain ⟨hlen, hiff⟩ := unsigned_iff padding (by omega : 0 ≤ v) (hlt.trans_le hwide)
    exact ⟨hlen, hiff.trans (and_iff_left fun h => absurd h hv).symm⟩

/-- The literal of `bytesN` is not filled. -/
theorem bytes_iff {n : Nat} {v : Int} (hv : 0 ≤ v) (hlt : v < 2 ^ (8 * n)) (hlen : (toBytesLe v).length ≤ n) :
    (toBytesLe v).length ≤ (storedInt padding (8 * n) v).length ∧
      (toBytesLe v = storedInt padding (8 * n) v ↔
        padding (8 * n) = [] ∧ (2 ^ (8 * (n - 1)) ≤ v ∨ n = 1)) := by
  have hpos : 0 < (toBytesLe v).length := by
    rw [toBytesLe, length_toLittleEndian]
    exact Nat.succ_pos _
  have hfull := length_toBytesLe_eq_iff (v := v) (n := n) (by omega)
    ((length_toBytesLe_le_iff (by omega)).mp hlen)
  rw [storedInt_bytes, toNat_emod_of_nonneg hv hlt]
  refine padded_iff (by rwa [length_toLittleEndian]) ?_
  have hcast : ((2 ^ (8 * (n - 1)) : Nat) : Int) = 2 ^ (8 * (n - 1)) := Int.natCast_pow 2 _
  have hbound : 2 ^ (8 * (n - 1)) ≤ v ↔ 256 ^ (n - 1) ≤ v.natAbs := by
    rw [pow_bytes]
    omega
  rw [hbound, ← hfull]
  constructor
  · intro heq
    rw [heq, length_toLittleEndian]
  · rintro rfl
    rw [toBytesLe, length_toLittleEndian]

/-- What is hashed of an argument is not longer than what is stored. -/
theorem hashed_iff (hwf : WellTyped ns arg) (h : hashed ns arg = some bs) :
    bs.length ≤ (stored ns padding arg).length ∧
      (bs = stored ns padding arg ↔ HashedAsStored ns padding arg) := by
  cases arg with
  | numberLiteral ty v =>
    cases ty with
    | uint bits =>
      obtain ⟨⟨n, rfl⟩, hv, hlt⟩ := hwf
      cases h
      rw [Nat.mul_div_cancel_left n (by decide)]
      exact unsigned_iff padding hv hlt
    | int bits =>
      obtain ⟨⟨n, rfl⟩, hpos, hle, hlt⟩ := hwf
      cases h
      rw [Nat.mul_div_cancel_left n (by decide)]
      exact signed_iff padding (by omega) hle hlt
    | enum no =>
      obtain ⟨hbits, hv, hlt⟩ := hwf
      cases h
      have hunsigned := unsigned_iff padding (n := 1) hv hlt
      simpa only [stored, HashedAsStored, Ty.bits, hbits] using hunsigned
    | bytes n =>
      obtain ⟨hv, hlt⟩ := hwf
      simp only [hashed] at h
      split at h
      next => cases h
      next hlen =>
        cases h
        have hbytes := bytes_iff padding hv hlt (Nat.le_of_not_lt hlen)
        simpa only [stored, HashedAsStored, Ty.bits, Nat.mul_comm n 8] using hbytes
    | address payable =>
      cases h
      rw [takeD_toBytesLe]
      simp [stored, HashedAsStored, eq_comm]
    | _ => cases h
  | bytesLiteral ty value =>
    cases h
    by_cases hty : ty = .string
    · subst hty
      exact ⟨le_rfl, iff_of_true rfl trivial⟩
    · have hstored : stored ns padding (.bytesLiteral ty bs) = bs.reverse ++ padding (8 * bs.length) := by
        cases ty <;> first | rfl | exact absurd rfl hty
      have hagrees : HashedAsStored ns padding (.bytesLiteral ty bs) ↔
          padding (8 * bs.length) = [] ∧ bs = bs.reverse := by
        have hiff : HashedAsStored ns padding (.bytesLiteral ty bs) ↔
            bs.reverse = bs ∧ padding (8 * bs.length) = [] := by
          cases ty <;> first | rfl | exact absurd rfl hty
        rw [hiff, and_comm, eq_comm (a := bs.reverse)]
      rw [hstored, hagrees]
      exact padded_iff (by rw [List.length_reverse]) Iff.rfl
  | unary op expr =>
    cases op with
    | allocDynamicBytes ty init =>
      cases init with
      | none => cases h
      | some init =>
        cases h
        exact ⟨le_rfl, iff_of_true rfl trivial⟩
    | _ => cases h
  | _ => cases h

end Argument

/-! ## All arguments -/

section Arguments

variable {ns : StrengthReduce.Namespace} {padding : Nat → List UInt8}

theorem append_eq_iff_of_le {a b c d : List UInt8} (hac : a.length ≤ c.length) (hbd : b.length ≤ d.length) :
    a ++ b = c ++ d ↔ a = c ∧ b = d := by
  constructor
  · intro heq
    have hlen := congrArg List.length heq
    rw [List.length_append, List.length_append] at hlen
    exact List.append_inj heq (by omega)
  · rintro ⟨rfl, rfl⟩
    rfl

theorem foldedInput_cons {arg : Expression} {args : List Expression} {input : List UInt8}
    (h : foldedInput ns (arg :: args) = some input) : ∃ bs rest, hashed ns arg = some bs ∧
      foldedInput ns args = some rest ∧ input = bs ++ rest := by
  unfold foldedInput at h ⊢
  rw [List.mapM_cons] at h
  cases hbs : hashed ns arg with
  | none => simp [hbs] at h
  | some bs =>
    cases hrest : args.mapM (hashed ns) with
    | none => simp [hbs, hrest] at h
    | some rest =>
      refine ⟨bs, rest.flatten, rfl, rfl, ?_⟩
      simpa [hbs, hrest] using h.symm

theorem foldedInput_iff (padding : Nat → List UInt8) {args : List Expression} {input : List UInt8} (hwf : ∀ arg ∈ args, WellTyped ns arg)
    (h : foldedInput ns args = some input) : input.length ≤ (storedInput ns padding args).length ∧
      (input = storedInput ns padding args ↔ ∀ arg ∈ args, HashedAsStored ns padding arg) := by
  induction args generalizing input with
  | nil =>
    cases h
    exact ⟨le_rfl, iff_of_true rfl nofun⟩
  | cons arg args ih =>
    obtain ⟨harg, hargs⟩ := List.forall_mem_cons.mp hwf
    obtain ⟨bs, rest, hbs, hrest, rfl⟩ := foldedInput_cons h
    obtain ⟨hlen, hiff⟩ := hashed_iff padding harg hbs
    obtain ⟨hlens, hiffs⟩ := ih hargs hrest
    have hstored : storedInput ns padding (arg :: args) =
        stored ns padding arg ++ storedInput ns padding args := List.flatMap_cons
    rw [hstored, append_eq_iff_of_le hlen hlens, hiff, hiffs, List.forall_mem_cons, List.length_append,
      List.length_append]
    exact ⟨by omega, Iff.rfl⟩

/-- Constant arguments are hashed as they are stored at run time exactly when each of them is. -/
theorem folded_hash_iff {args : List Expression} {input : List UInt8} (hwf : ∀ arg ∈ args, WellTyped ns arg)
    (h : foldedInput ns args = some input) :
    input = storedInput ns padding args ↔ ∀ arg ∈ args, HashedAsStored ns padding arg :=
  (foldedInput_iff padding hwf h).2

end Arguments

namespace Sample

open StrengthReduce.Sample (wasm)

/-- The slot of a string in the mapping of slot 1 -/
def stringKey : List Expression := [.numberLiteral (.uint 256) 1, literalOf [97, 98]]

theorem string_key_is_hashed_as_stored :
    foldedInput wasm stringKey = some (storedInput wasm (fun _ => []) stringKey) := by
  have hfold : foldedInput wasm stringKey =
      some (toLittleEndian 32 1 ++ [97, 98]) := by decide
  rw [hfold, Option.some.injEq]
  exact (folded_hash_iff (by simp [stringKey, WellTyped, literalOf]) hfold).mpr
    (by simp [stringKey, HashedAsStored, literalOf])

/-- The slot of -2 in a mapping from 16 bits: the folded key has the bytes 2 and 255. -/
theorem negative_key_is_hashed_otherwise :
    ∃ input, foldedInput wasm [.numberLiteral (.uint 256) 1, .numberLiteral (.int 16) (-2)] = some input ∧
      input ≠ storedInput wasm (fun _ => []) [.numberLiteral (.uint 256) 1, .numberLiteral (.int 16) (-2)] :=
  ⟨toLittleEndian 32 1 ++ [2, 255], by decide, by decide⟩

end Sample

end Solang.Codegen.ConstantFolding
