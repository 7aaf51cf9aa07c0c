import Mathlib

/-!
# Computations that leave a trace and can fail

`Traced ε α` is the outcome of a computation: the events it caused, in order,
and its result, `none` when it failed. What happened before a failure stays in
the trace.

`Ensures A B m Q` is the triple of the development that uses it: when every
event of `m` meets the assumption `A`, every event meets the guarantee `B` and
a result meets `Q`.
-/

structure Traced (ε : Type) (α : Type) where
  trace : List ε
  result : Option α

namespace Traced

variable {ε α β : Type}

def bind (m : Traced ε α) (f : α → Traced ε β) : Traced ε β :=
  match m.result with
  | none => ⟨m.trace, none⟩
  | some x => ⟨m.trace ++ (f x).trace, (f x).result⟩

instance : Monad (Traced ε) where
  pure x := ⟨[], some x⟩
  bind := bind

/-- The failing computation. -/
def abort : Traced ε α := ⟨[], none⟩

def require (p : Prop) [Decidable p] : Traced ε Unit := if p then pure () else abort

def emit (e : ε) (x : α) : Traced ε α := ⟨[e], some x⟩

/-- `n` rounds of `body`, each from the state the one before left. -/
def iterate (body : α → Traced ε α) : Nat → α → Traced ε α
  | 0, x => pure x
  | n + 1, x => body x >>= iterate body n

def Ensures (A B : ε → Prop) (m : Traced ε α) (Q : α → Prop) : Prop :=
  (∀ e ∈ m.trace, A e) → (∀ e ∈ m.trace, B e) ∧ ∀ x, m.result = some x → Q x

variable {A B : ε → Prop} {P Q : α → Prop} {R : β → Prop}

theorem result_bind {x : Traced ε α} {f : α → Traced ε β} {y : β}
    (h : (x >>= f).result = some y) : ∃ a, x.result = some a ∧ (f a).result = some y := by
  obtain ⟨t, r⟩ := x
  cases r with
  | none => cases h
  | some a => exact ⟨a, rfl, h⟩

theorem ensures_pure {x : α} (h : Q x) : Ensures A B (pure x) Q :=
  fun _ => ⟨fun _ he => absurd he List.not_mem_nil, fun _ hx => Option.some.inj hx ▸ h⟩

theorem ensures_abort : Ensures A B (abort : Traced ε α) Q :=
  fun _ => ⟨fun _ he => absurd he List.not_mem_nil, fun _ hx => nomatch hx⟩

theorem ensures_emit {e : ε} {x : α} (hB : A e → B e) (hQ : A e → Q x) :
    Ensures A B (emit e x) Q := by
  intro hA
  have he := hA e (List.mem_singleton_self e)
  refine ⟨fun e' he' => ?_, fun y hy => Option.some.inj hy ▸ hQ he⟩
  rw [List.mem_singleton.mp he']
  exact hB he

theorem ensures_require {p : Prop} [Decidable p] {Q : Unit → Prop} (h : p → Q ()) :
    Ensures A B (require p) Q := by
  by_cases hp : p
  · rw [require, if_pos hp]
    exact ensures_pure (h hp)
  · rw [require, if_neg hp]
    exact ensures_abort

theorem Ensures.bind {m : Traced ε α} {f : α → Traced ε β} (hm : Ensures A B m P)
    (hf : ∀ x, P x → Ensures A B (f x) R) : Ensures A B (m >>= f) R := by
  obtain ⟨t, r⟩ := m
  cases r with
  | none =>
    intro hA
    exact ⟨(hm hA).1, fun _ hx => nomatch hx⟩
  | some x =>
    intro hA
    have hA1 : ∀ e ∈ t, A e := fun e he => hA e (List.mem_append_left _ he)
    have hA2 : ∀ e ∈ (f x).trace, A e := fun e he => hA e (List.mem_append_right _ he)
    obtain ⟨hB1, hP⟩ := hm hA1
    obtain ⟨hB2, hR⟩ := hf x (hP x rfl) hA2
    refine ⟨fun e he => ?_, hR⟩
    exact (List.mem_append.mp he).elim (hB1 e) (hB2 e)

theorem Ensures.mono {m : Traced ε α} (h : Ensures A B m P) (hPQ : ∀ x, P x → Q x) :
    Ensures A B m Q :=
  fun hA => ⟨(h hA).1, fun x hx => hPQ x ((h hA).2 x hx)⟩

/-- The rule of a counted loop: `Inv k` holds after `k` rounds. -/
theorem ensures_iterate {body : α → Traced ε α} {Inv : Nat → α → Prop} {n : Nat}
    (hstep : ∀ k x, k < n → Inv k x → Ensures A B (body x) (Inv (k + 1))) :
    ∀ j k x, j + k = n → Inv k x → Ensures A B (iterate body j x) (Inv n)
  | 0, k, x, hk, hx => by
    obtain rfl : k = n := by omega
    exact ensures_pure hx
  | j + 1, k, x, hk, hx =>
    (hstep k x (by omega) hx).bind fun y hy => ensures_iterate hstep j (k + 1) y (by omega) hy

/-! ## Counting events

`total c m` adds up what the events of `m` cost. `Yields c m Q` says of every result and what it
cost that they meet `Q`; `Ends c m Q` says also that there is a result.
-/

section Counting

variable {c : ε → Nat} {x : α} {Q : α → Nat → Prop} {R : β → Nat → Prop}

def total (c : ε → Nat) (m : Traced ε α) : Nat := (m.trace.map c).sum

def Yields (c : ε → Nat) (m : Traced ε α) (Q : α → Nat → Prop) : Prop :=
  ∀ x, m.result = some x → Q x (m.total c)

def Ends (c : ε → Nat) (m : Traced ε α) (Q : α → Nat → Prop) : Prop :=
  ∃ x, m.result = some x ∧ Q x (m.total c)

theorem yields_pure (h : Q x 0) : Yields c (pure x) Q := by
  intro y hy
  cases hy
  exact h

theorem yields_abort : Yields c (abort : Traced ε α) Q := fun _ hy => nomatch hy

theorem yields_emit {e : ε} (h : Q x (c e)) : Yields c (emit e x) Q := by
  intro y hy
  cases hy
  exact h

theorem Yields.bind {m : Traced ε α} {f : α → Traced ε β} (hm : Yields c m Q)
    (hf : ∀ x n, Q x n → Yields c (f x) fun y k => R y (n + k)) :
    Yields c (m >>= f) R := by
  obtain ⟨t, r⟩ := m
  cases r with
  | none => exact fun _ hy => nomatch hy
  | some x =>
    intro y hy
    have := hf x _ (hm x rfl) y hy
    show R y ((t ++ (f x).trace).map c).sum
    rw [List.map_append, List.sum_append]
    exact this

theorem Yields.mono {m : Traced ε α} {Q' : α → Nat → Prop} (h : Yields c m Q)
    (hQ : ∀ x n, Q x n → Q' x n) : Yields c m Q' := fun x hx => hQ x _ (h x hx)

theorem ends_pure (h : Q x 0) : Ends c (pure x) Q := ⟨x, rfl, h⟩

theorem ends_emit {e : ε} (h : Q x (c e)) : Ends c (emit e x) Q := ⟨x, rfl, h⟩

theorem Ends.bind {m : Traced ε α} {f : α → Traced ε β} (hm : Ends c m Q)
    (hf : ∀ x n, Q x n → Ends c (f x) fun y k => R y (n + k)) :
    Ends c (m >>= f) R := by
  obtain ⟨t, r⟩ := m
  obtain ⟨x, hr, hx⟩ := hm
  cases hr
  obtain ⟨y, hy, hR⟩ := hf x _ hx
  refine ⟨y, hy, ?_⟩
  show R y ((t ++ (f x).trace).map c).sum
  rw [List.map_append, List.sum_append]
  exact hR

theorem Ends.mono {m : Traced ε α} {Q' : α → Nat → Prop} (h : Ends c m Q)
    (hQ : ∀ x n, Q x n → Q' x n) : Ends c m Q' := by
  obtain ⟨x, hx, hq⟩ := h
  exact ⟨x, hx, hQ x _ hq⟩

/-- A loop over a list that moves a counter on by `g b` for each element, and finds `P b` -/
theorem yields_foldlM {f : Nat → β → Traced ε Nat} {g k : β → Nat} {P : β → Prop} :
    ∀ (l : List β) (x : Nat),
      (∀ b ∈ l, ∀ x, Yields c (f x b) fun y n => y = x + g b ∧ n = k b ∧ P b) →
      Yields c (l.foldlM f x) fun y n =>
        y = x + (l.map g).sum ∧ n = (l.map k).sum ∧ ∀ b ∈ l, P b
  | [], x, _ => yields_pure ⟨rfl, rfl, fun _ hb => absurd hb List.not_mem_nil⟩
  | b :: l, x, h => by
    rw [List.foldlM_cons]
    refine (h b List.mem_cons_self x).bind ?_
    rintro y n ⟨rfl, rfl, hb⟩
    refine (yields_foldlM l _ fun b' hb' => h b' (List.mem_cons_of_mem b hb')).mono ?_
    rintro z m ⟨rfl, rfl, hl⟩
    simp only [List.map_cons, List.sum_cons]
    refine ⟨Nat.add_assoc _ _ _, trivial, fun b' hb' => ?_⟩
    rcases List.mem_cons.mp hb' with rfl | hb'
    · exact hb
    · exact hl b' hb'

/-- The same, when the counter may go up to `limit` -/
theorem ends_foldlM {f : Nat → β → Traced ε Nat} {g k : β → Nat} {limit : Nat} :
    ∀ (l : List β) (x : Nat),
      (∀ b ∈ l, ∀ x, x + g b ≤ limit → Ends c (f x b) fun y n => y = x + g b ∧ n = k b) →
      x + (l.map g).sum ≤ limit →
      Ends c (l.foldlM f x) fun y n => y = x + (l.map g).sum ∧ n = (l.map k).sum
  | [], x, _, _ => ends_pure ⟨rfl, rfl⟩
  | b :: l, x, h, hle => by
    rw [List.map_cons, List.sum_cons] at hle
    rw [List.foldlM_cons]
    refine (h b List.mem_cons_self x (by omega)).bind ?_
    rintro y n ⟨rfl, rfl⟩
    refine (ends_foldlM l _ (fun b' hb' => h b' (List.mem_cons_of_mem b hb')) (by omega)).mono ?_
    rintro z m ⟨rfl, rfl⟩
    simp only [List.map_cons, List.sum_cons]
    exact ⟨Nat.add_assoc _ _ _, trivial⟩

end Counting

end Traced
