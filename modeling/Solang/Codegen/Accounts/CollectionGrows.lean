import Solang.Codegen.Accounts.Collection

/-!
# What the collection of accounts adds

An operation of the collection adds accounts and flags to one function, and takes
none away (`Grows`). The number of accounts that have been added tells whether an
account was new, but not whether a flag was.
-/

namespace Solang.Codegen.Accounts

open Sema (SolanaAccount)
open Relation

/-! ## Maps of accounts -/

namespace AccountMap

variable {m : AccountMap}

theorem lookup_eq_some_iff {l : List (String × SolanaAccount)} (h : (l.map (·.1)).Nodup)
    {name : String} {a : SolanaAccount} : l.lookup name = some a ↔ (name, a) ∈ l := by
  induction l with
  | nil => simp
  | cons e l ih =>
    obtain ⟨n, b⟩ := e
    rw [List.map_cons, List.nodup_cons] at h
    rw [List.lookup_cons, List.mem_cons]
    by_cases hn : name = n
    · subst hn
      have hnot : (name, a) ∉ l := fun hmem => h.1 (List.mem_map.mpr ⟨_, hmem, rfl⟩)
      simp [hnot, eq_comm]
    · have hne : (name == n) = false := by simpa using hn
      simp [hne, ih h.2, hn]

theorem get_eq_some_iff {name : String} {a : SolanaAccount} :
    m.get name = some a ↔ (name, a) ∈ m.entries := lookup_eq_some_iff m.nodup

theorem get_insert (name : String) (a : SolanaAccount) (n : String) :
    (m.insert name a).get n = if n = name then some a else m.get n := by
  unfold insert
  by_cases h : name ∈ m.entries.map (·.1)
  · rw [dif_pos h]
    refine Option.ext fun b => ?_
    rw [get_eq_some_iff]
    show (n, b) ∈ m.entries.map (fun e => if e.1 = name then (name, a) else e) ↔ _
    rw [List.mem_map]
    by_cases hn : n = name
    · subst hn
      rw [if_pos rfl, Option.some.injEq]
      constructor
      · rintro ⟨e, he, heq⟩
        split at heq
        · cases heq
          rfl
        next hne =>
          subst heq
          exact absurd rfl hne
      · rintro rfl
        obtain ⟨e, he, hen⟩ := List.mem_map.mp h
        exact ⟨e, he, by rw [if_pos hen]⟩
    · rw [if_neg hn, get_eq_some_iff]
      constructor
      · rintro ⟨e, he, heq⟩
        split at heq
        · cases heq
          exact absurd rfl hn
        · subst heq
          exact he
      · intro hmem
        exact ⟨(n, b), hmem, by rw [if_neg hn]⟩
  · rw [dif_neg h]
    refine Option.ext fun b => ?_
    rw [get_eq_some_iff]
    show (n, b) ∈ m.entries ++ [(name, a)] ↔ _
    by_cases hn : n = name
    · subst hn
      have hnot : (n, b) ∉ m.entries := fun hmem => h (List.mem_map.mpr ⟨_, hmem, rfl⟩)
      simp [hnot, eq_comm]
    · simp [hn, get_eq_some_iff]

end AccountMap

/-! ## Flags -/

/-- `b` has the flags of `a`. -/
def Weaker (a b : SolanaAccount) : Prop :=
  (a.isSigner = true → b.isSigner = true) ∧ (a.isWriter = true → b.isWriter = true)

theorem Weaker.refl (a : SolanaAccount) : Weaker a a := ⟨id, id⟩

theorem Weaker.trans {a b c : SolanaAccount} (h : Weaker a b) (h' : Weaker b c) : Weaker a c :=
  ⟨h'.1 ∘ h.1, h'.2 ∘ h.2⟩

/-- The function that a graph is visited for -/
def ASTFunction.number : ASTFunction → Option Nat
  | .solidityFunction no | .yulFunction no => some no
  | .none => .none

/-- An account of a function: the function and the name -/
abbrev Key := Nat × String

def RecurseData.get (d : RecurseData) (q : Key) : Option SolanaAccount := (d.accounts q.1).get q.2

/-! ## Operations only add -/

/-- Accounts and flags are only added, and those that are added are counted. -/
structure Grows (d d' : RecurseData) : Prop where
  mono : ∀ q e, d.get q = some e → ∃ e', d'.get q = some e' ∧ Weaker e e'
  added : d.accountsAdded ≤ d'.accountsAdded
  counted : d'.accountsAdded = d.accountsAdded → ∀ q, (d'.get q).isSome → (d.get q).isSome

theorem Grows.refl (d : RecurseData) : Grows d d :=
  ⟨fun _ e h => ⟨e, h, .refl e⟩, Nat.le_refl _, fun _ _ h => h⟩

theorem Grows.of_get {d d' : RecurseData} (hget : d'.get = d.get)
    (hadded : d'.accountsAdded = d.accountsAdded) : Grows d d' where
  mono q e he := ⟨e, by rw [hget]; exact he, .refl e⟩
  added := Nat.le_of_eq hadded.symm
  counted _ q hq := by rwa [hget] at hq

theorem Grows.trans {d d' d'' : RecurseData} (h : Grows d d') (h' : Grows d' d'') :
    Grows d d'' where
  mono q e hq := by
    obtain ⟨e', he', hw⟩ := h.mono q e hq
    obtain ⟨e'', he'', hw'⟩ := h'.mono q e' he'
    exact ⟨e'', he'', hw.trans hw'⟩
  added := h.added.trans h'.added
  counted heq q hq := by
    have h1 := h.added
    have h2 := h'.added
    exact h.counted (by omega) q (h'.counted (by omega) q hq)

namespace RecurseData

variable {p : Program} {d : RecurseData}

/-- The account with the flags that the function has already -/
def joined (d : RecurseData) (name : String) (a : SolanaAccount) : SolanaAccount :=
  let old := d.get (d.astNo, name)
  { isSigner := a.isSigner || (old.map (·.isSigner)).getD false
    isWriter := a.isWriter || (old.map (·.isWriter)).getD false
    generated := true }

theorem get_addAccount (name : String) (a : SolanaAccount) (q : Key) :
    (d.addAccount name a).get q =
      if q = (d.astNo, name) then some (d.joined name a) else d.get q := by
  obtain ⟨f, n⟩ := q
  unfold get addAccount
  by_cases hf : f = d.astNo
  · subst hf
    simp only [Function.update_self, AccountMap.get_insert]
    by_cases hn : n = name
    · subst hn
      simp [joined, get]
    · have hne : (d.astNo, n) ≠ (d.astNo, name) := by simp [hn]
      rw [if_neg hn, if_neg hne]
  · have hne : (f, n) ≠ (d.astNo, name) := by simp [hf]
    rw [if_neg hne]
    simp only [Function.update_of_ne hf]

theorem weaker_joined (name : String) (a : SolanaAccount) : Weaker a (d.joined name a) :=
  ⟨fun h => by simp [joined, h], fun h => by simp [joined, h]⟩

variable {name : String} {a e : SolanaAccount}

theorem weaker_joined_old (he : d.get (d.astNo, name) = some e) : Weaker e (d.joined name a) :=
  ⟨fun h => by simp [joined, he, h], fun h => by simp [joined, he, h]⟩

theorem grows_addAccount (name : String) (a : SolanaAccount) : Grows d (d.addAccount name a) where
  mono q e he := by
    rw [get_addAccount]
    by_cases hq : q = (d.astNo, name)
    · subst hq
      rw [if_pos rfl]
      exact ⟨_, rfl, weaker_joined_old he⟩
    · rw [if_neg hq]
      exact ⟨e, he, .refl e⟩
  added := by
    unfold addAccount
    dsimp only
    split <;> omega
  counted heq q hq := by
    rw [get_addAccount] at hq
    by_cases hq' : q = (d.astNo, name)
    · subst hq'
      by_contra hnone
      have hisNone : ((d.accounts d.astNo).get name).isNone = true := by
        simpa [get] using hnone
      unfold addAccount at heq
      simp [hisNone] at heq
    · rwa [if_neg hq'] at hq

/-- Some accounts of `S` have been added, one after the other. -/
inductive Adds (S : String → SolanaAccount → Prop) (d : RecurseData) : RecurseData → Prop where
  | refl : Adds S d d
  | add {d' : RecurseData} {name : String} {a : SolanaAccount} : Adds S d d' → S name a →
    Adds S d (d'.addAccount name a)

namespace Adds

variable {S : String → SolanaAccount → Prop} {d' d'' : RecurseData}

theorem trans (h : Adds S d d') (h' : Adds S d' d'') : Adds S d d'' := by
  induction h' with
  | refl => exact h
  | add _ hs ih => exact ih.add hs

theorem astNo_eq (h : Adds S d d') : d'.astNo = d.astNo := by
  induction h with
  | refl => rfl
  | add _ _ ih => exact ih

theorem nextQueue_eq (h : Adds S d d') : d'.nextQueue = d.nextQueue := by
  induction h with
  | refl => rfl
  | add _ _ ih => exact ih

theorem grows (h : Adds S d d') : Grows d d' := by
  induction h with
  | refl => exact .refl d
  | add _ _ ih => exact ih.trans (grows_addAccount _ _)

theorem foldl {α : Type} {step : RecurseData → α → RecurseData} {l : List α}
    (h : ∀ x ∈ l, ∀ d'', d''.astNo = d.astNo → Adds S d'' (step d'' x)) :
    Adds S d (l.foldl step d) := by
  induction l generalizing d with
  | nil => exact .refl
  | cons x l ih =>
    have hx : Adds S d (step d x) := h x (by simp) d rfl
    refine hx.trans (ih fun y hy d'' hd'' => ?_)
    exact h y (by simp [hy]) d'' (hd''.trans hx.astNo_eq)

end Adds

/-- The accounts that an operation may add -/
def Gives (p : Program) (d : RecurseData) : Op → String → SolanaAccount → Prop
  | .add name a, n, b => n = name ∧ b = a
  | .merge g, n, b => d.get (g, n) = some b
  | .transfer c g, n, b => d.get (g, n) = some b ∨
      (n = (p.contract c).id ++ "_dataAccount" ∧ d.get (g, "dataAccount") = some b)
  | .enqueue _, _, _ => False

theorem get_of_mem {g : Nat} {e : String × SolanaAccount} (h : e ∈ (d.accounts g).entries) :
    d.get (g, e.1) = some e.2 := AccountMap.get_eq_some_iff.mpr h

theorem exec_adds {op : Op} (hop : ∀ x, op ≠ .enqueue x) :
    Adds (Gives p d op) d (d.exec p op) := by
  cases op with
  | add name a => exact .add .refl ⟨rfl, rfl⟩
  | merge g =>
    refine Adds.foldl fun e he d'' _ => .add .refl ?_
    exact get_of_mem he
  | transfer c g =>
    refine Adds.foldl fun e he d'' _ => ?_
    have hget : d.get (g, e.1) = some e.2 := get_of_mem he
    dsimp only
    split
    next hdata =>
      split
      · exact .refl
      · refine .add .refl (.inr ⟨rfl, ?_⟩)
        rwa [hdata] at hget
    next => exact .add .refl (.inl hget)
  | enqueue x => exact absurd rfl (hop x)

theorem exec_enqueue (x : Nat × Option Nat) :
    (d.exec p (.enqueue x)).get = d.get ∧ (d.exec p (.enqueue x)).accountsAdded = d.accountsAdded ∧
      (d.exec p (.enqueue x)).astNo = d.astNo := by
  show (d.enqueue x).get = _ ∧ _
  unfold enqueue
  simp only [exec, enqueue]
  split <;> exact ⟨rfl, rfl, rfl⟩

theorem grows_exec (op : Op) : Grows d (d.exec p op) := by
  cases op with
  | enqueue x =>
    obtain ⟨hget, hadded, -⟩ := exec_enqueue (p := p) (d := d) x
    exact .of_get hget hadded
  | _ => exact (exec_adds (by intro x h; cases h)).grows

theorem exec_astNo (op : Op) : (d.exec p op).astNo = d.astNo := by
  cases op with
  | enqueue x => exact (exec_enqueue x).2.2
  | _ => exact (exec_adds (by intro x h; cases h)).astNo_eq

theorem grows_execAll (ops : List Op) : Grows d (d.execAll p ops) := by
  induction ops generalizing d with
  | nil => exact .refl d
  | cons op ops ih => exact (grows_exec op).trans (ih (d := d.exec p op))

theorem execAll_astNo (ops : List Op) : (d.execAll p ops).astNo = d.astNo := by
  induction ops generalizing d with
  | nil => rfl
  | cons op ops ih => exact (ih (d := d.exec p op)).trans (exec_astNo op)

/-- What a called function has when its accounts are merged, the caller has from then on. -/
theorem covers_addAccounts (l : List (String × SolanaAccount)) (h : (name, a) ∈ l) :
    ∃ e, (d.addAccounts l).get (d.astNo, name) = some e ∧ Weaker a e := by
  induction l generalizing d with
  | nil => simp at h
  | cons x l ih =>
    obtain rfl | h := List.mem_cons.mp h
    · have hget : (d.addAccount name a).get (d.astNo, name) = some (d.joined name a) := by
        rw [get_addAccount, if_pos rfl]
      have hgrows : Grows (d.addAccount name a) ((d.addAccount name a).addAccounts l) :=
        Adds.grows (S := fun _ _ => True) (Adds.foldl fun e _ d'' _ => .add .refl trivial)
      obtain ⟨e, he, hw⟩ := hgrows.mono _ _ hget
      exact ⟨e, he, (weaker_joined name a).trans hw⟩
    · exact ih (d := d.addAccount x.1 x.2) h

/-- A function has all that a function it calls had when it was visited. -/
theorem covers_execAll {ops : List Op} {g : Nat} (h : .merge g ∈ ops)
    (he : d.get (g, name) = some e) :
    ∃ e', (d.execAll p ops).get (d.astNo, name) = some e' ∧ Weaker e e' := by
  obtain ⟨l₁, l₂, rfl⟩ := List.append_of_mem h
  have hbefore : Grows d (d.execAll p l₁) := grows_execAll l₁
  obtain ⟨e₁, he₁, hw₁⟩ := hbefore.mono _ _ he
  obtain ⟨e₂, he₂, hw₂⟩ := covers_addAccounts (d := d.execAll p l₁) _
    (AccountMap.get_eq_some_iff.mp he₁)
  rw [execAll_astNo] at he₂
  have hafter : Grows ((d.execAll p l₁).exec p (.merge g)) (d.execAll p (l₁ ++ .merge g :: l₂)) := by
    have heq : d.execAll p (l₁ ++ .merge g :: l₂) =
        ((d.execAll p l₁).exec p (.merge g)).execAll p l₂ := by
      unfold execAll
      rw [List.foldl_append, List.foldl_cons]
    rw [heq]
    exact grows_execAll l₂
  obtain ⟨e₃, he₃, hw₃⟩ := hafter.mono _ _ he₂
  exact ⟨e₃, he₃, (hw₁.trans hw₂).trans hw₃⟩

end RecurseData

/-! ## The operations of a graph -/

/-- Expressions only add accounts. -/
def Op.IsAdd : Op → Prop
  | .add _ _ => True
  | _ => False

mutual

theorem isAdd_of_mem_checkExpression :
    ∀ (e : Expression) {op : Op}, op ∈ checkExpression e → op.IsAdd
  | .unary _ e, op, h => isAdd_of_mem_checkExpression e h
  | .binary _ left right, op, h => by
    obtain h | h := List.mem_append.mp h
    · exact isAdd_of_mem_checkExpression left h
    · exact isAdd_of_mem_checkExpression right h
  | .nary (.builtin tys kind) args, op, h => by
    obtain h | h := List.mem_append.mp h
    · obtain ⟨name, -, rfl⟩ := Option.map_eq_some_iff.mp (Option.mem_toList.mp h)
      trivial
    · exact isAdd_of_mem_checkExpressions args h
  | .nary (.arrayLiteral _ _) args, op, h
  | .nary (.constArrayLiteral _ _) args, op, h
  | .nary (.structLiteral _) args, op, h
  | .nary (.keccak256 _) args, op, h
  | .nary .formatString args, op, h => isAdd_of_mem_checkExpressions args h

theorem isAdd_of_mem_checkExpressions :
    ∀ (es : List Expression) {op : Op}, op ∈ checkExpressions es → op.IsAdd
  | e :: es, op, h => by
    obtain h | h := List.mem_append.mp h
    · exact isAdd_of_mem_checkExpression e h
    · exact isAdd_of_mem_checkExpressions es h

end

namespace Program

variable {p : Program} {c v w : Nat} {x : Nat × Option Nat}

theorem not_isAdd_enqueue : ¬ (Op.enqueue x).IsAdd := fun h => h

theorem self_mem_constructorAccounts {self : Nat × Option Nat} {c' : Nat} {f' : Option Nat}
    {accounts : ExternalCallAccounts}
    (h : .enqueue x ∈ p.constructorAccounts self c' f' accounts) :
    .enqueue self ∈ p.constructorAccounts self c' f' accounts := by
  have hnew : .enqueue x ∈ p.newContractOps self c' f' →
      .enqueue self ∈ p.newContractOps self c' f' := by
    intro h
    cases f' with
    | none => simp [newContractOps] at h
    | some f' => simp [newContractOps, transferOps]
  cases accounts with
  | present e => exact absurd (isAdd_of_mem_checkExpression e h) not_isAdd_enqueue
  | noAccount | absentArgument => exact hnew h

/-- An instruction that queues a function queues the one it is in as well. -/
theorem self_mem_checkInstruction {i : Instr} (h : .enqueue x ∈ p.checkInstruction c v i) :
    .enqueue (c, some v) ∈ p.checkInstruction c v i := by
  have hadd : ∀ {es : List Expression}, .enqueue x ∉ checkExpressions es := fun hmem =>
    not_isAdd_enqueue (isAdd_of_mem_checkExpressions _ hmem)
  have hadd1 : ∀ {e : Expression}, .enqueue x ∉ checkExpression e := fun hmem =>
    not_isAdd_enqueue (isAdd_of_mem_checkExpression _ hmem)
  cases i with
  | expressions es => exact absurd h hadd
  | call call args =>
    obtain h | h := List.mem_append.mp h
    · cases call with
      | static w => simp [checkInstruction]
      | builtin no =>
        dsimp only at h
        split at h <;> simp [Op.system] at h
      | dynamic e => simp at h
      | hostFunction name => simp at h
    · exact absurd h hadd
  | constructor newNo constructorNo before address seeds accounts =>
    simp only [checkInstruction, List.mem_append, or_assoc] at h ⊢
    obtain h | h | h | h | h := h
    · exact absurd h hadd
    · cases address with
      | none => simp at h
      | some e =>
        obtain h | h := List.mem_append.mp h
        · split at h <;> simp [Op.programId] at h
        · exact absurd h hadd1
    · cases seeds with
      | none => simp at h
      | some e => exact absurd h hadd1
    · exact .inr (.inr (.inr (.inl (self_mem_constructorAccounts h))))
    · simp [Op.system] at h
  | externalCall inSource address accounts payload value gas contractFunctionNo =>
    cases inSource with
    | false => simp [checkInstruction] at h
    | true =>
    simp only [checkInstruction, Bool.not_true, Bool.false_eq_true, if_false, List.mem_append,
      or_assoc] at h ⊢
    obtain h | h | h | h | h := h
    · cases address with
      | none => simp at h
      | some e =>
        obtain h | h := List.mem_append.mp h
        · exact absurd h hadd1
        · obtain ⟨name, -, hname⟩ := Option.map_eq_some_iff.mp (Option.mem_toList.mp h)
          cases hname
    · exact absurd h hadd
    · simp [Op.system] at h
    · cases accounts with
      | present e => exact absurd h hadd1
      | noAccount | absentArgument => simp at h
    · cases contractFunctionNo with
      | none => simp at h
      | some cf =>
        obtain h | h := List.mem_append.mp h
        · split at h <;> simp [Op.programId] at h
        · cases accounts with
          | present e => simp at h
          | noAccount => simp at h
          | absentArgument =>
            refine .inr (.inr (.inr (.inr (List.mem_append_right _ ?_))))
            simp [transferOps]

theorem mem_checkFunction {op : Op} : op ∈ p.checkFunction c v ↔
    ∃ b ∈ (p.cfg c v).order, ∃ i ∈ ((p.cfg c v).block b).instr, op ∈ p.checkInstruction c v i := by
  simp only [checkFunction, List.mem_flatMap]

theorem mem_order_of_reach {cfg : Cfg} {b : Nat} (hne : cfg.blocks ≠ [])
    (h : ReflTransGen (fun x y => y ∈ (cfg.block x).successors) 0 b) : b ∈ cfg.order := by
  unfold Cfg.order
  rw [if_neg (by simpa using hne)]
  refine Bfs.mem_run_of_reach (U := Finset.range cfg.blocks.length) ?_ (Nat.le_refl _) h
  intro b hb
  have hlen : cfg.blocks.length ≤ b := by simpa using hb
  unfold Cfg.block
  simp [List.getD_eq_getElem?_getD, hlen]

theorem self_mem_checkFunction (h : .enqueue x ∈ p.checkFunction c v) :
    .enqueue (c, some v) ∈ p.checkFunction c v := by
  obtain ⟨b, hb, i, hi, hop⟩ := mem_checkFunction.mp h
  exact mem_checkFunction.mpr ⟨b, hb, i, hi, self_mem_checkInstruction hop⟩

/-- What a visit does -/
def opsOf (p : Program) : Nat × Option Nat → List Op
  | (_, none) => []
  | (c, some v) => p.checkFunction c v

end Program

/-! ## Visits and passes -/

namespace RecurseData

variable {p : Program} {d : RecurseData} {x : Nat × Option Nat}

theorem mem_nextQueue_exec (op : Op) :
    x ∈ (d.exec p op).nextQueue ↔ x ∈ d.nextQueue ∨ op = .enqueue x := by
  cases op with
  | enqueue y =>
    show x ∈ (d.enqueue y).nextQueue ↔ _
    unfold enqueue
    rw [Op.enqueue.injEq]
    split
    next hy =>
      constructor
      · exact .inl
      · rintro (h | rfl)
        · exact h
        · exact hy
    next => simp [eq_comm]
  | _ =>
    rw [(exec_adds (by intro x h; cases h)).nextQueue_eq]
    simp

theorem nodup_nextQueue_exec (h : d.nextQueue.Nodup) (op : Op) :
    (d.exec p op).nextQueue.Nodup := by
  cases op with
  | enqueue y =>
    show (d.enqueue y).nextQueue.Nodup
    unfold enqueue
    split
    · exact h
    next hy =>
      refine List.nodup_append.mpr ⟨h, List.nodup_singleton y, ?_⟩
      intro a ha b hb hab
      rw [List.mem_singleton] at hb
      subst hb hab
      exact hy ha
  | _ =>
    rw [(exec_adds (by intro x h; cases h)).nextQueue_eq]
    exact h

theorem mem_nextQueue_execAll (ops : List Op) :
    x ∈ (d.execAll p ops).nextQueue ↔ x ∈ d.nextQueue ∨ .enqueue x ∈ ops := by
  induction ops generalizing d with
  | nil => simp [execAll]
  | cons op ops ih =>
    have h := ih (d := d.exec p op)
    rw [mem_nextQueue_exec] at h
    rw [List.mem_cons, ← or_assoc, eq_comm (a := Op.enqueue x)]
    exact h

theorem nodup_nextQueue_execAll (h : d.nextQueue.Nodup) (ops : List Op) :
    (d.execAll p ops).nextQueue.Nodup := by
  induction ops generalizing d with
  | nil => exact h
  | cons op ops ih => exact ih (nodup_nextQueue_exec h op)

/-- The data when a graph is about to be looked at -/
def enter (p : Program) (d : RecurseData) (c v : Nat) : RecurseData :=
  match (p.cfg c v).functionNo with
  | .solidityFunction astNo | .yulFunction astNo => { d with astNo := astNo }
  | .none => d

theorem visit_some (c v : Nat) :
    d.visit p (c, some v) = (d.enter p c v).execAll p (p.checkFunction c v) := rfl

theorem enter_astNo (c v : Nat) :
    (d.enter p c v).astNo = (p.cfg c v).functionNo.number.getD d.astNo := by
  unfold enter
  cases (p.cfg c v).functionNo with
  | _ => rfl

theorem enter_same (c v : Nat) : (d.enter p c v).get = d.get ∧
    (d.enter p c v).accountsAdded = d.accountsAdded ∧
    (d.enter p c v).nextQueue = d.nextQueue := by
  unfold enter
  split <;> exact ⟨rfl, rfl, rfl⟩

theorem grows_enter (c v : Nat) : Grows d (d.enter p c v) := by
  obtain ⟨hget, hadded, -⟩ := enter_same (p := p) (d := d) c v
  exact .of_get hget hadded

theorem grows_visit (x : Nat × Option Nat) : Grows d (d.visit p x) := by
  obtain ⟨c, v⟩ := x
  cases v with
  | none => exact .refl d
  | some v =>
    rw [visit_some]
    exact (grows_enter c v).trans (grows_execAll _)

theorem grows_pass (queue : List (Nat × Option Nat)) : Grows d (d.pass p queue) := by
  induction queue generalizing d with
  | nil => exact .refl d
  | cons x queue ih => exact (grows_visit x).trans (ih (d := d.visit p x))

theorem mem_nextQueue_visit (y : Nat × Option Nat) :
    x ∈ (d.visit p y).nextQueue ↔ x ∈ d.nextQueue ∨ .enqueue x ∈ p.opsOf y := by
  obtain ⟨c, v⟩ := y
  cases v with
  | none => simp [visit, Program.opsOf]
  | some v =>
    rw [visit_some, mem_nextQueue_execAll, (enter_same c v).2.2]
    rfl

theorem mem_nextQueue_pass (queue : List (Nat × Option Nat)) :
    x ∈ (d.pass p queue).nextQueue ↔
      x ∈ d.nextQueue ∨ ∃ y ∈ queue, .enqueue x ∈ p.opsOf y := by
  induction queue generalizing d with
  | nil => simp [pass]
  | cons y queue ih =>
    have h := ih (d := d.visit p y)
    rw [mem_nextQueue_visit] at h
    simp only [List.mem_cons, exists_eq_or_imp]
    rw [← or_assoc]
    exact h

theorem nodup_nextQueue_pass (h : d.nextQueue.Nodup) (queue : List (Nat × Option Nat)) :
    (d.pass p queue).nextQueue.Nodup := by
  induction queue generalizing d with
  | nil => exact h
  | cons y queue ih =>
    refine ih (d := d.visit p y) ?_
    obtain ⟨c, v⟩ := y
    cases v with
    | none => exact h
    | some v =>
      rw [visit_some]
      refine nodup_nextQueue_execAll ?_ _
      rw [(enter_same c v).2.2]
      exact h

end RecurseData

end Solang.Codegen.Accounts
