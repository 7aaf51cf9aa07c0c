import Mathlib.Algebra.Order.Group.Nat
import Mathlib.Data.List.Basic

/-!
# Computations with fuel

A recursion without a bound of its own is a function of fuel that is `none` when
the fuel runs out. `Settles f x`: it terminates with the result `x`, that is, all
large enough fuel gives `x`.
-/

namespace Fuel

variable {α β : Type} {f : Nat → Option α} {x : α}

def Settles (f : Nat → Option α) (x : α) : Prop := ∃ n, ∀ fuel ≥ n, f fuel = some x

theorem settles_const (x : α) : Settles (fun _ => some x) x := ⟨0, fun _ _ => rfl⟩

/-- The recursion is no deeper than `k`. -/
theorem settles_at (k : Nat) (h : ∀ fuel, f (fuel + k) = some x) : Settles f x := by
  refine ⟨k, fun fuel hfuel => ?_⟩
  obtain ⟨fuel, rfl⟩ := Nat.exists_eq_add_of_le' hfuel
  exact h fuel

theorem Settles.bind {g : Nat → α → Option β} {y : β} (hf : Settles f x)
    (hg : Settles (fun fuel => g fuel x) y) : Settles (fun fuel => f fuel >>= g fuel) y := by
  obtain ⟨n, hn⟩ := hf
  obtain ⟨m, hm⟩ := hg
  refine ⟨max n m, fun fuel hfuel => ?_⟩
  show f fuel >>= g fuel = some y
  rw [hn fuel (le_trans (le_max_left n m) hfuel)]
  exact hm fuel (le_trans (le_max_right n m) hfuel)

theorem Settles.map (h : Settles f x) (g : α → β) : Settles (fun fuel => (f fuel).map g) (g x) := by
  obtain ⟨n, hn⟩ := h
  exact ⟨n, fun fuel hfuel => by simp only [hn fuel hfuel, Option.map_some]⟩

/-- One unit of fuel for the call itself. -/
theorem Settles.succ {g : Nat → Option α} (h : Settles f x) (hg : ∀ fuel, g (fuel + 1) = f fuel) :
    Settles g x := by
  obtain ⟨n, hn⟩ := h
  refine ⟨n + 1, fun fuel hfuel => ?_⟩
  obtain ⟨fuel, rfl⟩ := Nat.exists_eq_add_of_le' (le_trans (Nat.le_add_left 1 n) hfuel)
  rw [hg]
  exact hn fuel (Nat.le_of_succ_le_succ hfuel)

theorem Settles.unique {y : α} (h : Settles f x) (h' : Settles f y) : x = y := by
  obtain ⟨n, hn⟩ := h
  obtain ⟨m, hm⟩ := h'
  have hx := hn (max n m) (le_max_left n m)
  rw [hm (max n m) (le_max_right n m)] at hx
  exact (Option.some.inj hx).symm

/-- A loop over a list, `P` being what each round keeps. -/
theorem settles_foldlM {σ : Type} {step : Nat → σ → β → Option σ} {P : σ → Prop} {l : List β}
    (hstep : ∀ b ∈ l, ∀ s, P s → ∃ s', P s' ∧ Settles (fun fuel => step fuel s b) s') :
    ∀ s, P s → ∃ s', P s' ∧ Settles (fun fuel => l.foldlM (step fuel) s) s' := by
  induction l with
  | nil => exact fun s hs => ⟨s, hs, settles_const s⟩
  | cons b l ih =>
    intro s hs
    obtain ⟨s₁, hs₁, h₁⟩ := hstep b List.mem_cons_self s hs
    obtain ⟨s₂, hs₂, h₂⟩ := ih (fun c hc => hstep c (List.mem_cons_of_mem b hc)) s₁ hs₁
    exact ⟨s₂, hs₂, h₁.bind h₂⟩

/-- A loop that ends or goes on, `P` being what each round keeps. It ends because a measure
gets smaller. -/
theorem settles_loop {σ : Type} (loop : Nat → σ → Option α) {step : σ → α ⊕ σ}
    (hloop : ∀ fuel s, loop (fuel + 1) s = (step s).elim some (loop fuel)) (P : σ → Prop)
    (measure : σ → Nat)
    (hstep : ∀ s s', P s → step s = .inr s' → P s' ∧ measure s' < measure s) (s : σ) (hs : P s) :
    ∃ s' x, P s' ∧ step s' = .inl x ∧ Settles (fun fuel => loop fuel s) x := by
  induction hn : measure s using Nat.strong_induction_on generalizing s with
  | _ n ih =>
    cases hr : step s with
    | inl x =>
      refine ⟨s, x, hs, hr, (settles_const x).succ fun fuel => ?_⟩
      rw [hloop, hr]
      rfl
    | inr s₁ =>
      obtain ⟨hs₁, hlt⟩ := hstep s s₁ hs hr
      obtain ⟨s', x, hs', hx, hsettles⟩ := ih (measure s₁) (hn ▸ hlt) s₁ hs₁ rfl
      refine ⟨s', x, hs', hx, hsettles.succ fun fuel => ?_⟩
      rw [hloop, hr]
      rfl

theorem settles_anyM {p : Nat → β → Option Bool} {q : β → Bool} {l : List β}
    (h : ∀ b ∈ l, Settles (fun fuel => p fuel b) (q b)) :
    Settles (fun fuel => l.anyM (p fuel)) (l.any q) := by
  induction l with
  | nil => exact settles_const false
  | cons b l ih =>
    have hl := ih fun c hc => h c (List.mem_cons_of_mem b hc)
    have hcons : ∀ fuel, (b :: l).anyM (p fuel)
        = p fuel b >>= fun r => match r with
          | true => some true
          | false => l.anyM (p fuel) := fun fuel => by
      rw [List.anyM]
      rfl
    simp only [hcons, List.any_cons]
    refine (h b List.mem_cons_self).bind ?_
    cases q b with
    | true => exact settles_const true
    | false => exact hl

/-! ## Computations that may fail -/

section Fails

variable {ε : Type} {f : Nat → ExceptT ε Option α} {g : Nat → α → ExceptT ε Option β}

/-- It terminates with this result. -/
def Returns (f : Nat → ExceptT ε Option α) (x : α) : Prop := Settles (fun fuel => (f fuel).run) (.ok x)

/-- It terminates, with a result or with an error. -/
def Ends (f : Nat → ExceptT ε Option α) : Prop := ∃ r, Settles (fun fuel => (f fuel).run) r

theorem returns_pure (x : α) : Returns (fun _ => (pure x : ExceptT ε Option α)) x := settles_const _

theorem returns_at (k : Nat) (h : ∀ fuel, f (fuel + k) = pure x) : Returns f x :=
  settles_at k fun fuel => congrArg ExceptT.run (h fuel)

theorem Returns.ends (h : Returns f x) : Ends f := ⟨_, h⟩

theorem Returns.unique {y : α} (h : Returns f x) (h' : Returns f y) : x = y :=
  Except.ok.inj (Settles.unique h h')

theorem Returns.bind {y : β} (hf : Returns f x) (hg : Returns (fun fuel => g fuel x) y) :
    Returns (fun fuel => f fuel >>= g fuel) y := Settles.bind hf hg

theorem Returns.map (h : Returns f x) (k : α → β) : Returns (fun fuel => f fuel >>= fun x => pure (k x)) (k x) :=
  h.bind (g := fun _ x => pure (k x)) (returns_pure (k x))

theorem Returns.succ {f' : Nat → ExceptT ε Option α} (h : Returns f x) (hf : ∀ fuel, f' (fuel + 1) = f fuel) :
    Returns f' x := Settles.succ h fun fuel => congrArg ExceptT.run (hf fuel)

/-- It returns `x`, or `p` holds and it fails. -/
def ReturnsUnless (p : Prop) (f : Nat → ExceptT ε Option α) (x : α) : Prop :=
  Returns f x ∨ p ∧ ∃ e, Settles (fun fuel => (f fuel).run) (.error e)

variable {p : Prop}

theorem Returns.unless (h : Returns f x) : ReturnsUnless p f x := .inl h

theorem returnsUnless_throw (hp : p) (e : ε) : ReturnsUnless p (fun _ => (throw e : ExceptT ε Option α)) x :=
  .inr ⟨hp, e, settles_const _⟩

theorem ReturnsUnless.ends (h : ReturnsUnless p f x) : Ends f := by
  rcases h with h | ⟨-, e, h⟩
  · exact h.ends
  · exact ⟨_, h⟩

theorem ReturnsUnless.returns (h : ReturnsUnless p f x) (hp : ¬ p) : Returns f x := by
  rcases h with h | ⟨h, -⟩
  · exact h
  · exact absurd h hp

theorem ReturnsUnless.bind {y : β} (hf : ReturnsUnless p f x) (hg : ReturnsUnless p (fun fuel => g fuel x) y) :
    ReturnsUnless p (fun fuel => f fuel >>= g fuel) y := by
  rcases hf with hf | ⟨hp, e, hf⟩
  · rcases hg with hg | ⟨hp, e, hg⟩
    · exact .inl (hf.bind hg)
    · exact .inr ⟨hp, e, Settles.bind hf hg⟩
  · exact .inr ⟨hp, e, hf.bind (settles_const _)⟩

theorem ReturnsUnless.map (h : ReturnsUnless p f x) (k : α → β) :
    ReturnsUnless p (fun fuel => f fuel >>= fun x => pure (k x)) (k x) :=
  h.bind (g := fun _ x => pure (k x)) (returns_pure (k x)).unless

theorem ReturnsUnless.succ {f' : Nat → ExceptT ε Option α} (h : ReturnsUnless p f x)
    (hf : ∀ fuel, f' (fuel + 1) = f fuel) : ReturnsUnless p f' x := by
  rcases h with h | ⟨hp, e, h⟩
  · exact .inl (h.succ hf)
  · exact .inr ⟨hp, e, Settles.succ h fun fuel => congrArg ExceptT.run (hf fuel)⟩

theorem forall₂_mapM {g : Nat → β → ExceptT ε Option α} {l : List β} {xs : List α}
    (h : List.Forall₂ (fun b x => Returns (fun fuel => g fuel b) x) l xs) :
    Returns (fun fuel => l.mapM (g fuel)) xs := by
  induction h with
  | nil => exact returns_pure []
  | cons hb _ ih =>
    simp only [List.mapM_cons]
    exact hb.bind (ih.bind (returns_pure _))

/-- A loop that computes for every element something that is right for it -/
theorem exists_mapM {g : Nat → β → ExceptT ε Option α} {Q : β → α → Prop} {l : List β}
    (h : ∀ b ∈ l, ∃ x, Q b x ∧ ReturnsUnless p (fun fuel => g fuel b) x) :
    ∃ xs, List.Forall₂ Q l xs ∧ ReturnsUnless p (fun fuel => l.mapM (g fuel)) xs := by
  induction l with
  | nil => exact ⟨[], .nil, (returns_pure []).unless⟩
  | cons b l ih =>
    obtain ⟨x, hx, hreturns⟩ := h b List.mem_cons_self
    obtain ⟨xs, hxs, hl⟩ := ih fun c hc => h c (List.mem_cons_of_mem b hc)
    simp only [List.mapM_cons]
    exact ⟨x :: xs, .cons hx hxs, hreturns.bind (hl.bind (returns_pure _).unless)⟩

/-- A loop that does on the states `state t` what `step` does on `t` -/
theorem returnsUnless_foldlM {σ τ : Type} {h : Nat → σ → β → ExceptT ε Option σ} (state : τ → σ) (step : τ → β → τ)
    {l : List β} (hstep : ∀ b ∈ l, ∀ t, ReturnsUnless p (fun fuel => h fuel (state t) b) (state (step t b))) (t : τ) :
    ReturnsUnless p (fun fuel => l.foldlM (h fuel) (state t)) (state (l.foldl step t)) := by
  induction l generalizing t with
  | nil => exact (returns_pure _).unless
  | cons b l ih =>
    simp only [List.foldlM_cons, List.foldl_cons]
    exact (hstep b List.mem_cons_self t).bind (ih (fun c hc => hstep c (List.mem_cons_of_mem b hc)) _)

open Classical in
/-- What it returns, if it does -/
noncomputable def value [Inhabited α] (f : Nat → ExceptT ε Option α) : α :=
  if h : ∃ x, Returns f x then h.choose else default

theorem Returns.value_eq [Inhabited α] (h : Returns f x) : value f = x := by
  have hex : ∃ x, Returns f x := ⟨x, h⟩
  unfold value
  rw [dif_pos hex]
  exact hex.choose_spec.unique h

end Fails

end Fuel
