import Solang.Lib.Traced

/-!
# Computations over a state that log what they change

A `Logged σ ε α` runs from a state and leaves, in order, the events of what it does; its result comes with the state
that it ends in. What logs nothing changes nothing, so that it can be run again to the same result.
-/

namespace Traced

variable {ε α β : Type}

theorem bind_some (t : List ε) (a : α) (f : α → Traced ε β) :
    (Traced.mk t (some a) >>= f) = ⟨t ++ (f a).trace, (f a).result⟩ := rfl

theorem bind_none (t : List ε) (f : α → Traced ε β) : (Traced.mk t none >>= f) = ⟨t, none⟩ := rfl

theorem bind_assoc {γ : Type} (m : Traced ε α) (f : α → Traced ε β) (g : β → Traced ε γ) :
    m >>= f >>= g = m >>= fun a => f a >>= g := by
  obtain ⟨t, _ | a⟩ := m
  · rfl
  · rw [bind_some, bind_some]
    obtain ⟨t', _ | b⟩ := f a
    · rfl
    · rw [bind_some, bind_some, List.append_assoc]

theorem bind_some_inj {t : List ε} {a : α} {f g : α → Traced ε β} :
    (Traced.mk t (some a) >>= f) = (Traced.mk t (some a) >>= g) ↔ f a = g a := by
  rw [bind_some, bind_some]
  constructor
  · intro h
    obtain ⟨htrace, hresult⟩ := Traced.mk.inj h
    have htrace := List.append_cancel_left htrace
    rcases hf : f a with ⟨_, _⟩
    rcases hg : g a with ⟨_, _⟩
    rw [hf, hg] at htrace hresult
    rw [Traced.mk.injEq]
    exact ⟨htrace, hresult⟩
  · intro h
    rw [h]

theorem bind_eq_some {m : Traced ε α} {f : α → Traced ε β} {t : List ε} {b : β}
    (h : m >>= f = ⟨t, some b⟩) :
    ∃ t₁ a t₂, m = ⟨t₁, some a⟩ ∧ f a = ⟨t₂, some b⟩ ∧ t = t₁ ++ t₂ := by
  obtain ⟨t₁, r⟩ := m
  cases r with
  | none => cases h
  | some a =>
    rw [bind_some] at h
    obtain ⟨h₁, h₂⟩ := Traced.mk.inj h
    exact ⟨t₁, a, (f a).trace, rfl, by rw [← h₂], h₁.symm⟩

end Traced

@[ext]
structure Logged (σ ε α : Type) where
  run : σ → Traced ε (α × σ)
  quiet : ∀ s a s', run s = ⟨[], some (a, s')⟩ → s' = s

namespace Logged

variable {σ ε α β γ : Type}

protected def pure (a : α) : Logged σ ε α where
  run s := ⟨[], some (a, s)⟩
  quiet s a' s' h := by
    cases h
    rfl

protected def bind (m : Logged σ ε α) (f : α → Logged σ ε β) : Logged σ ε β where
  run s := m.run s >>= fun p => (f p.1).run p.2
  quiet s b s' h := by
    obtain ⟨t₁, ⟨a, s₁⟩, t₂, h₁, h₂, ht⟩ := Traced.bind_eq_some h
    obtain ⟨rfl, rfl⟩ := List.append_eq_nil_iff.mp ht.symm
    rw [(f a).quiet s₁ b s' h₂, m.quiet s a s₁ h₁]

instance : Monad (Logged σ ε) where
  pure := Logged.pure
  bind := Logged.bind

instance : LawfulMonad (Logged σ ε) :=
  LawfulMonad.mk' (Logged σ ε)
    (fun m => by
      ext1
      funext s
      show m.run s >>= (fun p => ⟨[], some (p.1, p.2)⟩) = m.run s
      obtain ⟨t, _ | p⟩ := m.run s
      · rfl
      · rw [Traced.bind_some, List.append_nil])
    (fun _ _ => rfl)
    (fun m f g => by
      ext1
      funext s
      exact Traced.bind_assoc _ _ _)

/-- A value that depends on the state; the computation stops where there is none. -/
def ask (f : σ → Option α) : Logged σ ε α where
  run s := ⟨[], (f s).map fun a => (a, s)⟩
  quiet s a s' h := by
    obtain ⟨_, h⟩ := Traced.mk.inj h
    obtain ⟨_, _, h⟩ := Option.map_eq_some_iff.mp h
    exact (Prod.mk.inj h).2.symm

/-- One event, and what it does to the state -/
def perform (e : ε) (f : σ → Option (α × σ)) : Logged σ ε α where
  run s := ⟨[e], f s⟩
  quiet _ _ _ h := by cases h

def ofOption (o : Option α) : Logged σ ε α := ask fun _ => o

def abort : Logged σ ε α := ofOption none

theorem run_pure (a : α) (s : σ) : (pure a : Logged σ ε α).run s = ⟨[], some (a, s)⟩ := rfl

theorem run_bind (m : Logged σ ε α) (f : α → Logged σ ε β) (s : σ) :
    (m >>= f).run s = m.run s >>= fun p => (f p.1).run p.2 := rfl

theorem run_bind_some {m : Logged σ ε α} {f : α → Logged σ ε β} {s s' : σ} {t : List ε} {a : α}
    (h : m.run s = ⟨t, some (a, s')⟩) :
    (m >>= f).run s = ⟨t ++ ((f a).run s').trace, ((f a).run s').result⟩ := by
  rw [run_bind, h, Traced.bind_some]

theorem run_bind_none {m : Logged σ ε α} {f : α → Logged σ ε β} {s : σ} {t : List ε}
    (h : m.run s = ⟨t, none⟩) : (m >>= f).run s = ⟨t, none⟩ := by
  rw [run_bind, h, Traced.bind_none]

theorem run_ask_some {f : σ → Option α} {s : σ} {a : α} (h : f s = some a) :
    (ask f : Logged σ ε α).run s = ⟨[], some (a, s)⟩ := by
  simp [ask, h]

theorem run_ask_none {f : σ → Option α} {s : σ} (h : f s = none) :
    (ask f : Logged σ ε α).run s = ⟨[], none⟩ := by
  simp [ask, h]

theorem run_ask_bind {f : σ → Option α} {g : α → Logged σ ε β} {s : σ} {a : α} (h : f s = some a) :
    (ask f >>= g).run s = (g a).run s := by
  rw [run_bind_some (run_ask_some h)]
  rfl

theorem run_ofOption_none {o : Option α} (h : o = none) (s : σ) : (ofOption o : Logged σ ε α).run s = ⟨[], none⟩ := by
  rw [ofOption, run_ask_none h]

theorem run_ofOption_bind {o : Option α} {g : α → Logged σ ε β} {a : α} (h : o = some a) (s : σ) :
    (ofOption o >>= g).run s = (g a).run s := by
  rw [ofOption, run_ask_bind h]

/-! ## Results -/

/-- What a run comes to, without what it logs -/
def result (m : Logged σ ε α) (s : σ) : Option (α × σ) := (m.run s).result

@[simp] theorem result_pure (a : α) (s : σ) : (pure a : Logged σ ε α).result s = some (a, s) := rfl

@[simp] theorem result_bind (m : Logged σ ε α) (f : α → Logged σ ε β) (s : σ) :
    (m >>= f).result s = (m.result s).bind fun p => (f p.1).result p.2 := by
  simp only [result, run_bind]
  obtain ⟨t, _ | p⟩ := m.run s
  · rfl
  · rfl

@[simp] theorem result_map (m : Logged σ ε α) (f : α → β) (s : σ) :
    (f <$> m).result s = (m.result s).map fun p => (f p.1, p.2) := by
  rw [map_eq_pure_bind, result_bind]
  cases m.result s with
  | none => rfl
  | some p => rfl

@[simp] theorem result_ask (f : σ → Option α) (s : σ) : (ask f : Logged σ ε α).result s = (f s).map fun a => (a, s) :=
  rfl

@[simp] theorem result_perform (e : ε) (f : σ → Option (α × σ)) (s : σ) : (perform e f).result s = f s := rfl

@[simp] theorem result_abort (s : σ) : (abort : Logged σ ε α).result s = none := rfl

theorem run_eq_of_result {m : Logged σ ε α} {s s' : σ} {a : α} (h : m.result s = some (a, s')) :
    m.run s = ⟨(m.run s).trace, some (a, s')⟩ := by
  rw [← h]
  rfl

/-- What logs nothing has the same result when it is run again. -/
theorem run_again {m : Logged σ ε α} {s s' : σ} {a : α} (h : m.run s = ⟨[], some (a, s')⟩) :
    m.run s' = ⟨[], some (a, s')⟩ := by
  obtain rfl := m.quiet s a s' h
  exact h

/-! ## Computations that log nothing -/

def Silent (m : Logged σ ε α) : Prop := ∀ s, (m.run s).trace = []

theorem silent_pure (a : α) : Silent (pure a : Logged σ ε α) := fun _ => rfl

theorem silent_ask (f : σ → Option α) : Silent (ask f : Logged σ ε α) := fun _ => rfl

theorem Silent.bind {m : Logged σ ε α} {f : α → Logged σ ε β} (hm : Silent m) (hf : ∀ a, Silent (f a)) :
    Silent (m >>= f) := by
  intro s
  have h := hm s
  rw [run_bind]
  rcases hr : m.run s with ⟨t, _ | p⟩
  · rw [hr] at h
    exact h
  · rw [hr] at h
    rw [Traced.bind_some, show t = [] from h]
    exact hf p.1 p.2

theorem Silent.run_cases {m : Logged σ ε α} (hm : Silent m) (s : σ) :
    m.run s = ⟨[], none⟩ ∨ ∃ a, m.run s = ⟨[], some (a, s)⟩ := by
  have ht := hm s
  rcases h : m.run s with ⟨t, _ | ⟨a, s'⟩⟩
  · rw [h] at ht
    obtain rfl : t = [] := ht
    exact .inl rfl
  · rw [h] at ht
    obtain rfl : t = [] := ht
    obtain rfl := m.quiet s a s' h
    exact .inr ⟨a, rfl⟩

/-- What logs nothing at the end of a run that completes can be left off. -/
theorem run_bind_silent {m : Logged σ ε α} {f : α → Logged σ ε β} (hf : ∀ a, Silent (f a)) {s s' : σ} {t : List ε}
    {b : β} (h : (m >>= f).run s = ⟨t, some (b, s')⟩) :
    ∃ a, m.run s = ⟨t, some (a, s')⟩ ∧ (f a).run s' = ⟨[], some (b, s')⟩ := by
  obtain ⟨t₁, ⟨a, s₁⟩, t₂, h₁, h₂, rfl⟩ := Traced.bind_eq_some h
  rcases (hf a).run_cases s₁ with hrun | ⟨b', hrun⟩
  · rw [hrun] at h₂
    cases h₂
  · rw [hrun] at h₂
    cases h₂
    exact ⟨a, by rw [List.append_nil, h₁], hrun⟩

/-- What logs nothing can be done before or after a value is found. -/
theorem Silent.ask_comm {m : Logged σ ε β} (hm : Silent m) (f : σ → Option α) (k : α → β → Logged σ ε γ) :
    (ask f >>= fun a => m >>= fun b => k a b) = m >>= fun b => ask f >>= fun a => k a b := by
  ext1
  funext s
  cases hf : f s with
  | none =>
    rw [run_bind_none (run_ask_none hf)]
    rcases hm.run_cases s with h | ⟨b, h⟩
    · rw [run_bind_none h]
    · rw [run_bind_some h, run_bind_none (run_ask_none hf)]
      rfl
  | some a =>
    rw [run_ask_bind hf]
    rcases hm.run_cases s with h | ⟨b, h⟩
    · rw [run_bind_none h, run_bind_none h]
    · rw [run_bind_some h, run_bind_some h, run_ask_bind hf]

/-! ## Computations whose log has all that they do -/

variable {apply : σ → ε → σ} {P Q : ε → Prop}

/-- A run that completes ends in the state that its log leads to, and all that it logs satisfies `P`. -/
def Follows (apply : σ → ε → σ) (P : ε → Prop) (m : Logged σ ε α) : Prop :=
  ∀ s t a s', m.run s = ⟨t, some (a, s')⟩ → s' = t.foldl apply s ∧ ∀ e ∈ t, P e

theorem Silent.follows {m : Logged σ ε α} (hm : Silent m) : Follows apply P m := by
  intro s t a s' h
  rcases hm.run_cases s with hrun | ⟨a', hrun⟩
  · rw [hrun] at h
    cases h
  · rw [hrun] at h
    cases h
    exact ⟨rfl, fun e he => absurd he List.not_mem_nil⟩

theorem follows_perform {e : ε} {f : σ → Option (α × σ)} (hf : ∀ s a s', f s = some (a, s') → s' = apply s e)
    (he : P e) : Follows apply P (perform e f) := by
  intro s t a s' h
  obtain ⟨rfl, hs⟩ := Traced.mk.inj h
  exact ⟨hf s a s' hs, fun e' he' => List.mem_singleton.mp he' ▸ he⟩

theorem Follows.bind {m : Logged σ ε α} {f : α → Logged σ ε β} (hm : Follows apply P m)
    (hf : ∀ a, Follows apply P (f a)) : Follows apply P (m >>= f) := by
  intro s t b s' h
  obtain ⟨t₁, ⟨a, s₁⟩, t₂, h₁, h₂, rfl⟩ := Traced.bind_eq_some h
  obtain ⟨rfl, hP₁⟩ := hm s t₁ a s₁ h₁
  obtain ⟨rfl, hP₂⟩ := hf a _ t₂ b s' h₂
  refine ⟨by rw [List.foldl_append], fun e he => ?_⟩
  rcases List.mem_append.mp he with he | he
  · exact hP₁ e he
  · exact hP₂ e he

/-- Two logs of different kinds of events, one after the other, can be told apart. -/
theorem append_inj_of_disjoint (hPQ : ∀ e, P e → ¬Q e) {t₁ t₂ u₁ u₂ : List ε} (ht₁ : ∀ e ∈ t₁, P e)
    (hu₁ : ∀ e ∈ u₁, P e) (ht₂ : ∀ e ∈ t₂, Q e) (hu₂ : ∀ e ∈ u₂, Q e) (h : u₁ ++ u₂ = t₁ ++ t₂) :
    u₁ = t₁ ∧ u₂ = t₂ := by
  have hnil : ∀ l : List ε, (∀ e ∈ l, P e) → (∀ e ∈ l, Q e) → l = [] := fun l hP hQ =>
    List.eq_nil_iff_forall_not_mem.mpr fun e he => hPQ e (hP e he) (hQ e he)
  rcases List.append_eq_append_iff.mp h with ⟨l, rfl, rfl⟩ | ⟨l, rfl, rfl⟩
  · obtain rfl := hnil l (fun e he => ht₁ e (List.mem_append_right _ he)) fun e he => hu₂ e (List.mem_append_left _ he)
    exact ⟨(List.append_nil _).symm, rfl⟩
  · obtain rfl := hnil l (fun e he => hu₁ e (List.mem_append_right _ he)) fun e he => ht₂ e (List.mem_append_left _ he)
    exact ⟨List.append_nil _, rfl⟩

/-- A run of two computations that log different kinds of events is a run of the one and then of the other. -/
theorem run_seq_iff {m : Logged σ ε Unit} {k : Logged σ ε Unit} (hPQ : ∀ e, P e → ¬Q e) (hm : Follows apply P m)
    (hk : Follows apply Q k) {t₁ t₂ : List ε} (ht₁ : ∀ e ∈ t₁, P e) (ht₂ : ∀ e ∈ t₂, Q e) (s s₂ : σ) :
    (m >>= fun _ => k).run s = ⟨t₁ ++ t₂, some ((), s₂)⟩ ↔
      m.run s = ⟨t₁, some ((), t₁.foldl apply s)⟩ ∧ k.run (t₁.foldl apply s) = ⟨t₂, some ((), s₂)⟩ := by
  constructor
  · intro h
    obtain ⟨u₁, ⟨⟨⟩, s₁⟩, u₂, h₁, h₂, hu⟩ := Traced.bind_eq_some h
    obtain ⟨rfl, hu₁⟩ := hm s u₁ () s₁ h₁
    have hu₂ := (hk _ u₂ () s₂ h₂).2
    obtain ⟨rfl, rfl⟩ := append_inj_of_disjoint hPQ ht₁ hu₁ ht₂ hu₂ hu.symm
    exact ⟨h₁, h₂⟩
  · rintro ⟨h₁, h₂⟩
    rw [run_bind_some h₁, h₂]

end Logged
