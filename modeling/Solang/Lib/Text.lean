import Mathlib

/-!
# Text by byte offsets

A text is a list of characters; an offset counts the bytes of their UTF-8 encoding. A slice
between two offsets is `none` where they are not boundaries of characters in order.
-/

abbrev Text := List Char

namespace Text

/-- The number of bytes -/
def size : Text → Nat
  | [] => 0
  | c :: cs => c.utf8Size + size cs

/-- Without this many bytes -/
def drop : Nat → Text → Option Text
  | 0, cs => some cs
  | _ + 1, [] => none
  | n + 1, c :: cs => if c.utf8Size ≤ n + 1 then drop (n + 1 - c.utf8Size) cs else none

/-- The first bytes -/
def take : Nat → Text → Option Text
  | 0, _ => some []
  | _ + 1, [] => none
  | n + 1, c :: cs =>
    if c.utf8Size ≤ n + 1 then (take (n + 1 - c.utf8Size) cs).map (c :: ·) else none

/-- `&text[start..stop]` -/
def slice (text : Text) (start stop : Nat) : Option Text :=
  if start ≤ stop then do
    let cs ← drop start text
    take (stop - start) cs
  else none

variable {c : Char} {cs p m q : Text}

@[simp] theorem size_nil : size [] = 0 := rfl

@[simp] theorem size_cons : size (c :: cs) = c.utf8Size + size cs := rfl

@[simp] theorem size_append (p q : Text) : size (p ++ q) = size p + size q := by
  induction p with
  | nil => simp
  | cons c p ih =>
    rw [List.cons_append, size_cons, size_cons, ih]
    omega

theorem drop_append (p q : Text) : drop (size p) (p ++ q) = some q := by
  induction p with
  | nil => cases q <;> rfl
  | cons c p ih =>
    have hc := c.utf8Size_pos
    obtain ⟨k, hk⟩ : ∃ k, size (c :: p) = k + 1 := ⟨size (c :: p) - 1, by rw [size_cons]; omega⟩
    rw [hk, List.cons_append, drop]
    rw [size_cons] at hk
    rw [if_pos (by omega), ← hk, Nat.add_sub_cancel_left, ih]

/-- Inside a character there is no boundary. -/
theorem drop_inside (p : Text) {k : Nat} (hk : 0 < k) (hlt : k < c.utf8Size) (q : Text) :
    drop (size p + k) (p ++ c :: q) = none := by
  induction p with
  | nil =>
    obtain ⟨j, rfl⟩ : ∃ j, k = j + 1 := ⟨k - 1, by omega⟩
    rw [size_nil, Nat.zero_add, List.nil_append, drop, if_neg (by omega)]
  | cons d p ih =>
    have hd := d.utf8Size_pos
    obtain ⟨j, hj⟩ : ∃ j, size (d :: p) + k = j + 1 := ⟨size (d :: p) + k - 1, by omega⟩
    rw [size_cons] at hj
    have hrest : d.utf8Size + size p + k - d.utf8Size = size p + k := by omega
    rw [size_cons, hj, List.cons_append, drop, if_pos (by omega), ← hj, hrest, ih]

theorem take_append (p q : Text) : take (size p) (p ++ q) = some p := by
  induction p with
  | nil => cases q <;> rfl
  | cons c p ih =>
    have hc := c.utf8Size_pos
    obtain ⟨k, hk⟩ : ∃ k, size (c :: p) = k + 1 := ⟨size (c :: p) - 1, by rw [size_cons]; omega⟩
    rw [hk, List.cons_append, take]
    rw [size_cons] at hk
    rw [if_pos (by omega), ← hk, Nat.add_sub_cancel_left, ih]
    rfl

/-- A slice between boundaries -/
theorem slice_append (p m q : Text) : slice (p ++ (m ++ q)) (size p) (size p + size m) = some m := by
  unfold slice
  rw [if_pos (by omega), drop_append]
  simp only [Option.bind_eq_bind, Option.bind_some, Nat.add_sub_cancel_left, take_append]

end Text
