import Solang.Sema.MutabilitySound

/-!
# The data account of a function

`check_mutability` gives a function the data account when its own code has an
access to storage at a place where the walk comes by (`Bodies.Recorded`). Whether
a call of the function gets to the storage of a contract depends on the functions
that it calls as well (`Bodies.Touches`).
-/

namespace Solang.Sema

open Relation Update

/-! ## Accesses to storage -/

/-- To assign to a local variable is not to store, also where it is a reference to storage. -/
def Expression.isStored : Expression → Bool
  | .variable _ _ => false
  | e => e.ty.isContractStorage

def Node.accessesStorage : Node → Bool
  | .expr (.storageLoad _ _) | .expr (.storageArrayLength _ _) => true
  | .expr (.subscript _ arrayTy _ _) => arrayTy.isDynamicStorage
  | .expr (.incDec _ target) | .expr (.assign _ target _) => target.isStored
  | .expr (.builtin _ .arrayPush args) | .expr (.builtin _ .arrayPop args) =>
    Expression.onStorage args
  | .stmt (.delete _) => true
  | .stmt (.destructure fields _) => fields.any (·.isStored)
  | .yulExpr (.builtInCall ty _) | .yulStmt (.builtInCall ty _) => ty == .sLoad || ty == .sStore
  | _ => false

namespace Bodies

variable (ns : Bodies)

/-- The function that a name stands for in a contract -/
def resolve (contractNo functionNo : Nat) : Option String → Nat
  | some signature => ns.virtualFunction contractNo signature
  | none => functionNo

/-- The code of `f` names `g`, to call it or to keep it for a later call. -/
def Names (contractNo f g : Nat) : Prop :=
  ∃ root ∈ ns.code contractNo (ns.functions f), ∃ functionNo signature,
    root.Within (.expr (.internalFunction functionNo signature)) ∧
      g = ns.resolve contractNo functionNo signature

/-- A call of `f` may read or write the storage of the contract, in its body, in a modifier
or in a function that it calls. -/
def Touches (contractNo f : Nat) : Prop :=
  ∃ g, ReflTransGen (ns.Names contractNo) f g ∧
    ∃ root ∈ ns.code contractNo (ns.functions g), ∃ n, root.Within n ∧ n.accessesStorage = true

end Bodies

/-! ## Where the walk comes by -/

inductive Mode where
  | read
  | write

/-- The operands that a walk in write mode goes on with -/
def Expression.underWrite : Expression → List Expression
  | .structMember _ e => if e.ty.isContractStorage then [] else [e]
  | .subscript _ _ l r => if l.ty.isContractStorage then [] else [l, r]
  | .assign _ l r => [l, r]
  | .builtin _ _ args => args
  | e => e.opens

def Expression.marksWrite : Expression → Bool
  | .structMember _ e | .subscript _ _ e _ => e.ty.isContractStorage
  | .storageVariable _ _ => true
  | .namedMember _ _ name => name == "dataAccount"
  | _ => false

def Expression.marksRead : Expression → Bool
  | .storageLoad _ _ | .storageArrayLength _ _ | .storageVariable _ _ => true
  | .builtin _ .arrayPush args | .builtin _ .arrayPop args => onStorage args
  | .namedMember _ _ name => name == "dataAccount"
  | _ => false

/-- The node makes the walk set a flag for the data account. A statement of inline assembly
never does. -/
def Node.marks : Mode → Node → Bool
  | .read, .expr e => e.marksRead
  | .write, .expr e => e.marksWrite
  | .read, .stmt (.delete _) => true
  | .read, .yulExpr (.builtInCall ty _) => ty == .sLoad || ty == .sStore
  | _, _ => false

/-- The targets of a node, which are walked in write mode -/
def Node.targets : Node → List Expression
  | .expr (.incDec _ target) | .expr (.assign _ target _) => [target]
  | .stmt (.destructure fields _) => fields
  | _ => []

/-- The walk from `root` comes by the node in this mode. -/
inductive Seen (root : Node) : Mode → Node → Prop where
  | root : Seen root .read root
  | walked {a b : Node} : Seen root .read a → b ∈ a.walked → Seen root .read b
  | target {a : Node} {e : Expression} : Seen root .read a → e ∈ a.targets →
    Seen root .write (.expr e)
  | underWrite {e e' : Expression} : Seen root .write (.expr e) → e' ∈ e.underWrite →
    Seen root .write (.expr e')

namespace Bodies

variable (ns : Bodies)

/-- The function has an access to storage of its own where the walk comes by. A virtual
function is not walked; a constructor always has the data account. -/
def Recorded (func : FunctionBody) : Prop :=
  func.isVirtual = false ∧ (func.isConstructor = true ∨
    ∃ root ∈ ns.ownCode func, ∃ mode n, Seen root mode n ∧ n.marks mode = true)

end Bodies

/-! ## What is seen is recorded -/

variable {p : Update → Prop} {isPublic : Bool}

variable {e : Expression} {n root : Node} {mode : Mode}

theorem Expression.all_underWrite (h : All p e.recurseWrite) :
    ∀ b ∈ e.underWrite, All p b.recurseWrite := by
  cases e with
  | structMember ty expr =>
    by_cases hs : expr.ty.isContractStorage = true
    · simp [underWrite, hs]
    · simpa [underWrite, recurseWrite, writeUpdates, hs] using h
  | subscript ty arrayTy array index =>
    by_cases hs : array.ty.isContractStorage = true
    · simp [underWrite, hs]
    · simpa [underWrite, recurseWrite, writeUpdates, hs] using h
  | namedMember ty array name =>
    have hwalked : (namedMember ty array name).writeUpdates.2 = true := by
      simp only [writeUpdates]
      split_ifs <;> rfl
    simp only [recurseWrite, hwalked, if_true, all_append] at h
    simpa [underWrite, opens] using h.2
  | builtin ty kind args =>
    simp only [recurseWrite, all_append, all_recurseWrites] at h
    exact h.2
  | _ =>
    simp only [recurseWrite, writeUpdates, if_true, all_append, all_recurseWrites] at h
    simp_all [underWrite, opens, or_imp]

theorem Node.all_targets (h : All p (n.updates isPublic)) :
    ∀ e ∈ n.targets, All p e.recurseWrite := by
  cases n with
  | expr e =>
    cases e with
    | incDec ty target =>
      simp only [updates, Expression.recurseRead, all_append] at h
      simpa [targets] using h.1
    | assign ty target right =>
      simp only [updates, Expression.recurseRead, all_append] at h
      simpa [targets] using h.2
    | _ => simp [targets]
  | stmt s =>
    cases s with
    | destructure fields expr =>
      simp only [updates, Statement.recurse, all_append, Expression.all_recurseWrites] at h
      exact h.2
    | _ => simp [targets]
  | _ => simp [targets]

/-- What the walk does at a node in a mode -/
def Node.updatesIn (isPublic : Bool) : Mode → Node → List Update
  | .read, n => n.updates isPublic
  | .write, .expr e => e.recurseWrite
  | .write, _ => []

theorem Seen.all (h : Seen root mode n) (hroot : All p (root.updates isPublic)) :
    All p (n.updatesIn isPublic mode) := by
  induction h with
  | root => exact hroot
  | walked _ hb ih => exact Node.all_walked ih _ hb
  | target _ he ih => exact Node.all_targets ih _ he
  | underWrite _ he ih => exact Expression.all_underWrite ih _ he

/-- The updates flag the data account. -/
def Flags (us : List Update) : Prop := Update.dataRead ∈ us ∨ Update.dataWrite ∈ us

theorem Expression.flags_of_marksWrite (h : e.marksWrite = true) :
    Flags e.recurseWrite := by
  right
  cases e with
  | structMember ty expr =>
    have hs : expr.ty.isContractStorage = true := h
    simp [recurseWrite, writeUpdates, hs]
  | subscript ty arrayTy array index =>
    have hs : array.ty.isContractStorage = true := h
    simp [recurseWrite, writeUpdates, hs]
  | storageVariable ty varNo => simp [recurseWrite, writeUpdates]
  | namedMember ty array name =>
    have hn : name = "dataAccount" := by simpa [marksWrite] using h
    simp [recurseWrite, writeUpdates, hn]
  | _ => simp [marksWrite] at h

theorem Expression.flags_of_marksRead (h : e.marksRead = true) :
    Flags (e.recurseRead isPublic) := by
  cases e with
  | storageLoad ty expr => exact .inl (by simp [recurseRead])
  | storageArrayLength ty array => exact .inl (by simp [recurseRead])
  | storageVariable ty varNo => exact .inl (by simp [recurseRead])
  | namedMember ty array name =>
    have hn : name = "dataAccount" := by simpa [marksRead] using h
    exact .inl (by simp [recurseRead, hn])
  | builtin ty kind args =>
    right
    cases kind with
    | arrayPush | arrayPop =>
      have hs : onStorage args = true := h
      simp [recurseRead, Builtin.readUpdates, Builtin.readsState, hs]
    | _ => simp [marksRead] at h
  | _ => simp [marksRead] at h

theorem Node.flags_of_marks (h : n.marks mode = true) :
    Flags (n.updatesIn isPublic mode) := by
  cases mode with
  | write =>
    cases n with
    | expr e => exact Expression.flags_of_marksWrite h
    | _ => simp [marks] at h
  | read =>
    cases n with
    | expr e => exact Expression.flags_of_marksRead h
    | stmt s =>
      cases s with
      | delete e => exact .inr (by simp [updatesIn, updates, Statement.recurse])
      | _ => simp [marks] at h
    | yulExpr e =>
      cases e with
      | builtInCall ty args =>
        obtain rfl | rfl : ty = .sLoad ∨ ty = .sStore := by simpa [marks] using h
        · exact .inl (by simp [updatesIn, updates, YulExpression.recurse])
        · exact .inr (by simp [updatesIn, updates, YulExpression.recurse])
      | _ => simp [marks] at h
    | yulStmt s => simp [marks] at h

theorem Seen.flags (h : Seen root mode n) (hm : n.marks mode = true) :
    Flags (root.updates isPublic) := by
  have hsub : All (· ∈ root.updates isPublic) (n.updatesIn isPublic mode) :=
    h.all fun u hu => hu
  exact (Node.flags_of_marks hm).imp (hsub _) (hsub _)

namespace StateCheck

variable {s : StateCheck}

def Uses (s : StateCheck) : Prop := s.dataAccount ≠ ⟨false, false⟩

theorem uses_iff : s.Uses ↔ s.dataAccount.read = true ∨ s.dataAccount.write = true := by
  obtain ⟨_, _, _, _, _, r, w⟩ := s
  cases r <;> cases w <;> simp [Uses]

theorem apply_dataAccount_of_access (desired : Access) :
    (s.apply (.access desired)).dataAccount = s.dataAccount := by
  unfold apply checkLevel
  dsimp only
  split_ifs <;> rfl

theorem Uses.apply (h : s.Uses) (u : Update) : (s.apply u).Uses := by
  cases u with
  | access desired =>
    unfold Uses at h ⊢
    rwa [apply_dataAccount_of_access]
  | dataAccount usage =>
    rw [uses_iff] at h ⊢
    show (s.dataAccount.read || usage.read) = true ∨ (s.dataAccount.write || usage.write) = true
    simp only [Bool.or_eq_true]
    exact h.imp .inl .inl

theorem Uses.applyAll (h : s.Uses) (us : List Update) : (s.applyAll us).Uses := by
  induction us generalizing s with
  | nil => exact h
  | cons u us ih => exact ih (h.apply u)

theorem uses_applyAll {us : List Update} (h : Flags us) : (s.applyAll us).Uses := by
  have hone : ∀ {u : Update}, u ∈ us → (∀ s : StateCheck, (s.apply u).Uses) →
      (s.applyAll us).Uses := by
    intro u hu hset
    obtain ⟨l₁, l₂, rfl⟩ := List.append_of_mem hu
    unfold StateCheck.applyAll
    rw [List.foldl_append, List.foldl_cons]
    exact (hset _).applyAll l₂
  obtain h | h := h
  · refine hone h fun s => uses_iff.mpr (.inl ?_)
    show (s.dataAccount.read || true) = true
    exact Bool.or_true _
  · refine hone h fun s => uses_iff.mpr (.inr ?_)
    show (s.dataAccount.write || true) = true
    exact Bool.or_true _

end StateCheck

namespace Bodies

variable {ns : Bodies} {func : FunctionBody}

variable {s : StateCheck} {root : Node}

theorem uses_checkModifier (h : s.Uses) (c : Nat) (call : Expression) :
    (ns.checkModifier isPublic c s call).Uses := by
  cases call with
  | internalFunctionCall ty mutability function args =>
    have hargs : (s.applyAll (Expression.recurseReads isPublic args)).Uses := h.applyAll _
    exact StateCheck.Uses.applyAll (s := { s.applyAll _ with modifier := true }) hargs _
  | _ => exact h

theorem flags_recurseReads {args : List Expression} {e : Expression} (he : e ∈ args)
    (h : Flags (e.recurseRead isPublic)) : Flags (Expression.recurseReads isPublic args) := by
  have hsub := Expression.all_recurseReads.mp
    (fun u hu => hu : All (· ∈ Expression.recurseReads isPublic args) _) e he
  exact h.imp (hsub _) (hsub _)

theorem flags_recurses {ss : List Statement} {s : Statement} (hs : s ∈ ss)
    (h : Flags (s.recurse isPublic)) : Flags (Statement.recurses isPublic ss) := by
  have hsub := Statement.all_recurses.mp
    (fun u hu => hu : All (· ∈ Statement.recurses isPublic ss) _) s hs
  exact h.imp (hsub _) (hsub _)

theorem uses_modifier {c : Nat} {call : Expression} (hroot : root ∈ ns.modifierNodes c call)
    (h : Flags (root.updates isPublic)) :
    (ns.checkModifier isPublic c s call).Uses := by
  cases call with
  | internalFunctionCall ty mutability function args =>
    obtain hr | hr := List.mem_append.mp hroot
    · obtain ⟨e, he, rfl⟩ := List.mem_map.mp hr
      have hargs : (s.applyAll (Expression.recurseReads isPublic args)).Uses :=
        StateCheck.uses_applyAll (flags_recurseReads he h)
      exact StateCheck.Uses.applyAll (s := { s.applyAll _ with modifier := true }) hargs _
    · obtain ⟨st, hst, rfl⟩ := List.mem_map.mp hr
      exact StateCheck.uses_applyAll (flags_recurses hst h)
  | _ => simp [modifierNodes] at hroot

theorem uses_modifiers {c : Nat} {calls : List Expression}
    (hroot : root ∈ calls.flatMap (ns.modifierNodes c)) (h : Flags (root.updates isPublic)) :
    (calls.foldl (ns.checkModifier isPublic c) s).Uses := by
  obtain ⟨call, hcall, hr⟩ := List.mem_flatMap.mp hroot
  obtain ⟨l₁, l₂, rfl⟩ := List.append_of_mem hcall
  rw [List.foldl_append, List.foldl_cons]
  have hkeep : ∀ (l : List Expression) {s : StateCheck}, s.Uses →
      (l.foldl (ns.checkModifier isPublic c) s).Uses := by
    intro l
    induction l with
    | nil => intro s hs; exact hs
    | cons call l ih => intro s hs; exact ih (uses_checkModifier hs c call)
  exact hkeep l₂ (uses_modifier hr h)

theorem uses_walk (hroot : root ∈ ns.ownCode func) (h : Flags (root.updates func.isPublic)) :
    (ns.walk func).Uses := by
  have hbody : ∀ s : StateCheck, root ∈ Node.stmts func.body →
      (s.applyAll (Statement.recurses func.isPublic func.body)).Uses := by
    intro s hr
    obtain ⟨st, hst, rfl⟩ := List.mem_map.mp hr
    exact StateCheck.uses_applyAll (flags_recurses hst h)
  unfold ownCode at hroot
  unfold walk
  cases hc : func.contractNo with
  | none =>
    rw [hc] at hroot
    exact hbody _ hroot
  | some c =>
    rw [hc] at hroot
    obtain hr | hr := List.mem_append.mp hroot
    · exact (uses_modifiers hr h).applyAll _
    · exact hbody _ hr

/-- `check_mutability` gives the data account to a function that has an access of its own. -/
theorem isSome_of_recorded (h : ns.Recorded func) :
    (ns.checkMutability .solana func).2.isSome = true := by
  obtain ⟨hv, h⟩ := h
  unfold checkMutability
  rw [if_neg (by simp [hv])]
  dsimp only
  unfold FunctionBody.dataAccount
  split_ifs with hc hu
  · rfl
  · rfl
  · obtain h | ⟨root, hroot, mode, n, hseen, hmarks⟩ := h
    · exact absurd h hc
    · exact absurd ⟨uses_walk hroot (hseen.flags hmarks), rfl⟩ hu

end Bodies

end Solang.Sema
