import Solang.Codegen.StatementsSource
import Solang.Codegen.Yul.Statements

/-!
# Meaning of the Yul statements

Structured semantics of the statements and the runs of a graph with switches, over
the traces of `CfgRun`. The cases of a switch are compared one after the other; the
outcome of each comparison is one of the conditions that a trace decides.
-/

namespace Solang.Codegen.Yul

/-! ## Runs -/

/-- Where a switch goes to, and the trace after its comparisons -/
def selectCase (o : Oracle) (default : Nat) : List (Expression × Nat) → Trace → Nat × Trace
  | [], t => (default, t)
  | case :: cases, t =>
    if o.choose t then (case.2, o.decided t) else selectCase o default cases (o.decided t)

/-- One instruction; a switch is followed as well. -/
def stepSwitch (cfg : ControlFlowGraph) (o : Oracle) :
    Position × Trace → Option (Position × Trace)
  | (.done, _) => none
  | (.at b k, t) =>
    match (cfg.block b).instr[k]? with
    | some (.switch _ cases default) =>
      some (.at (selectCase o default cases t).1 0, (selectCase o default cases t).2)
    | _ => step cfg o (.at b k, t)

/-! ## The source -/

/-- The rounds of a loop. After the body, also after `continue`, comes the post block; it is
not in the loop, and a `break` or `continue` in it is one of the loop around. -/
def execFor (o : Oracle) (condition : Trace → Trace) (post body : Trace → Outcome × Trace) :
    Nat → Trace → Outcome × Trace
  | 0, t => (.timeout, t)
  | n + 1, t =>
    let t := condition t
    if o.choose t then
      match body (o.decided t) with
      | (.normal, t) | (.continue, t) => seqThen (post t) (execFor o condition post body n)
      | (.break, t) => (.normal, t)
      | r => r
    else (.normal, o.decided t)

mutual

def exec (o : Oracle) (fuel : Nat) : Stmt → Trace → Outcome × Trace
  | .effect effect, t => perform o effect t
  | .block statements, t => execAll o fuel statements t
  | .ifBlock condition body, t =>
    let t := eval o condition.expr t
    if o.choose t then execAll o fuel body (o.decided t) else (.normal, o.decided t)
  | .switch condition cases default, t =>
    execCases o fuel cases (execDefault o fuel default) (eval o condition t)
  | .for init condition post body, t =>
    seqThen (execAll o fuel init t)
      (execFor o (eval o condition.expr) (execAll o fuel post) (execAll o fuel body) fuel)
  | .leave, t => (.done, t ++ [.returned])
  | .break, t => (.break, t)
  | .continue, t => (.continue, t)

def execAll (o : Oracle) (fuel : Nat) : List Stmt → Trace → Outcome × Trace
  | [], t => (.normal, t)
  | stmt :: stmts, t => seqThen (exec o fuel stmt t) (execAll o fuel stmts)

def execCases (o : Oracle) (fuel : Nat) :
    List Case → (Trace → Outcome × Trace) → Trace → Outcome × Trace
  | [], default, t => default t
  | ⟨_, body⟩ :: cases, default, t =>
    if o.choose t then execAll o fuel body (o.decided t)
    else execCases o fuel cases default (o.decided t)

def execDefault (o : Oracle) (fuel : Nat) : Option (List Stmt) → Trace → Outcome × Trace
  | none, t => (.normal, t)
  | some body, t => execAll o fuel body t

end

/-- A function body, with the return at its end -/
def execFunction (o : Oracle) (fuel : Nat) (body : List Stmt) : Outcome × Trace :=
  seqThen (execAll o fuel body []) fun t => (.done, t ++ [.returned])

/-! ## Static conditions -/

mutual

/-- `break` and `continue` are only accepted in a loop. -/
def resolved (inLoop : Bool) : Stmt → Bool
  | .effect _ | .leave => true
  | .break | .continue => inLoop
  | .block statements => allResolved inLoop statements
  | .ifBlock _ body => allResolved inLoop body
  | .switch _ cases default => casesResolved inLoop cases && defaultResolved inLoop default
  | .for init _ post body =>
    allResolved inLoop init && allResolved inLoop post && allResolved true body

def allResolved (inLoop : Bool) : List Stmt → Bool
  | [] => true
  | s :: ss => resolved inLoop s && allResolved inLoop ss

def casesResolved (inLoop : Bool) : List Case → Bool
  | [] => true
  | ⟨_, body⟩ :: cases => allResolved inLoop body && casesResolved inLoop cases

def defaultResolved (inLoop : Bool) : Option (List Stmt) → Bool
  | none => true
  | some body => allResolved inLoop body

end

/-- Which outcomes a statement can have, whatever the conditions are. All may be left for good. -/
abbrev Exits := Outcome → Bool

namespace Exits

def noExits : Exits
  | .done | .timeout => true
  | _ => false

def only (oc : Outcome) : Exits := fun x => x = oc || noExits x

def join (a b : Exits) : Exits := fun x => a x || b x

/-- First `a` and then `b` -/
def andThen (a b : Exits) : Exits := fun x => (x ≠ .normal && a x) || (a .normal && b x)

/-- The rounds of a loop: the post block comes after the end of the body and after `continue`. -/
def loop (post body : Exits) : Exits := fun x =>
  only .normal x || ((body .normal || body .continue) && x ≠ .normal && post x)

end Exits

mutual

def exits : Stmt → Exits
  | .effect effect => if effect.reachable then .only .normal else .noExits
  | .leave => .noExits
  | .break => .only .break
  | .continue => .only .continue
  | .block statements => allExits statements
  | .ifBlock _ body => .join (.only .normal) (allExits body)
  | .switch _ cases default => .join (casesExits cases) (defaultExits default)
  | .for init _ post body => .andThen (allExits init) (.loop (allExits post) (allExits body))

def allExits : List Stmt → Exits
  | [] => .only .normal
  | s :: ss => .andThen (exits s) (allExits ss)

def casesExits : List Case → Exits
  | [] => .noExits
  | ⟨_, body⟩ :: cases => .join (allExits body) (casesExits cases)

def defaultExits : Option (List Stmt) → Exits
  | none => .only .normal
  | some body => allExits body

end

mutual

/-- The post block of a loop is lowered when control can get to it: it is empty, or the end of
the body is one that the resolution calls reachable, or no `continue` can be reached. -/
def postsLowered : Stmt → Bool
  | .effect _ | .leave | .break | .continue => true
  | .block statements => allPostsLowered statements
  | .ifBlock _ body => allPostsLowered body
  | .switch _ cases default => casesPostsLowered cases && defaultPostsLowered default
  | .for init _ post body =>
    allPostsLowered init &&
      (!allExits init .normal ||
        (allPostsLowered body &&
          (post.isEmpty || (processStatements true body).2 || !allExits body .continue) &&
          (!(allExits body .normal || allExits body .continue) || allPostsLowered post)))

def allPostsLowered : List Stmt → Bool
  | [] => true
  | s :: ss => postsLowered s && (!exits s .normal || allPostsLowered ss)

def casesPostsLowered : List Case → Bool
  | [] => true
  | ⟨_, body⟩ :: cases => allPostsLowered body && casesPostsLowered cases

def defaultPostsLowered : Option (List Stmt) → Bool
  | none => true
  | some body => allPostsLowered body

end

end Solang.Codegen.Yul

/-!
## Static facts about Yul statements

A statement only has the outcomes that `exits` lists, and where one of them is to go
on with the next statement, the resolution calls that one reachable.
-/

namespace Solang.Codegen.Yul

namespace Exits

variable {a b : Exits} {oc : Outcome}

theorem only_self : only oc oc = true := by simp [only]

theorem join_left (h : a oc = true) : join a b oc = true := by simp [join, h]

theorem join_right (h : b oc = true) : join a b oc = true := by simp [join, h]

theorem join_iff : join a b oc = true ↔ a oc = true ∨ b oc = true := by simp [join]

theorem andThen_normal_iff : andThen a b .normal = true ↔ a .normal = true ∧ b .normal = true := by
  simp [andThen]

/-- `andThen` is what `seqThen` can do. -/
theorem andThen_seqThen {r : Outcome × Trace} {k : Trace → Outcome × Trace} (ha : a r.1 = true)
    (hb : ∀ t, b (k t).1 = true) : andThen a b (seqThen r k).1 = true := by
  obtain ⟨oc, t⟩ := r
  cases oc with
  | normal =>
    have hk := hb t
    simp [andThen, seqThen, ha, hk]
  | _ => simp [andThen, seqThen, ha]

/-- The rounds of a loop -/
theorem loop_execFor {o : Oracle} {condition : Trace → Trace} {post body : Trace → Outcome × Trace}
    {n : Nat} {t : Trace} (ha : ∀ t, a (post t).1 = true) (hb : ∀ t, b (body t).1 = true) :
    loop a b (execFor o condition post body n t).1 = true := by
  induction n generalizing t with
  | zero => simp [execFor, loop, only, noExits]
  | succ n ih =>
    -- the post block, which is reached when the body has the outcome `x`
    have hpost : ∀ t' x, b x = true → (x = .normal ∨ x = .continue) →
        loop a b (seqThen (post t') (execFor o condition post body n)).1 = true := by
      intro t' x hx hcase
      have hbody : (b .normal || b .continue) = true := by
        obtain rfl | rfl := hcase <;> simp [hx]
      have hp := ha t'
      generalize post t' = r at hp
      obtain ⟨oc, t''⟩ := r
      cases oc with
      | normal => exact ih
      | _ => simp_all [loop, seqThen]
    simp only [execFor]
    split
    · have hround := hb (o.decided (condition t))
      generalize body (o.decided (condition t)) = r at hround
      obtain ⟨oc, t'⟩ := r
      cases oc with
      | normal => exact hpost t' _ hround (.inl rfl)
      | «continue» => exact hpost t' _ hround (.inr rfl)
      | _ => simp [loop, only, noExits]
    · simp [loop, only]

end Exits

/-! ### Outcomes -/

section Outcomes

variable (o : Oracle) (fuel : Nat)

mutual

theorem exits_exec : ∀ (s : Stmt) (t : Trace), exits s (exec o fuel s t).1 = true
  | .effect effect, t => by
    simp only [exec, exits, perform_outcome]
    cases effect.reachable <;> simp [Exits.only, Exits.noExits]
  | .block statements, t => by
    simp only [exec, exits]
    exact exits_execAll statements t
  | .ifBlock condition body, t => by
    simp only [exec, exits]
    split
    · exact Exits.join_right (exits_execAll body _)
    · exact Exits.join_left Exits.only_self
  | .switch condition cases default, t => by
    simp only [exec, exits]
    exact exits_execCases cases (fun t => exits_execDefault default t) _
  | .for init condition post body, t => by
    simp only [exec, exits]
    refine Exits.andThen_seqThen (exits_execAll init t) fun t => ?_
    exact Exits.loop_execFor (fun t => exits_execAll post t) fun t => exits_execAll body t
  | .leave, t | .break, t | .continue, t => by simp [exec, exits, Exits.only, Exits.noExits]

theorem exits_execAll : ∀ (ss : List Stmt) (t : Trace), allExits ss (execAll o fuel ss t).1 = true
  | [], t => by simp [execAll, allExits, Exits.only]
  | s :: ss, t => by
    simp only [execAll, allExits]
    exact Exits.andThen_seqThen (exits_exec s t) fun t => exits_execAll ss t

theorem exits_execCases : ∀ (cases : List Case) {default : Trace → Outcome × Trace} {d : Exits},
    (∀ t, d (default t).1 = true) → ∀ t,
      Exits.join (casesExits cases) d (execCases o fuel cases default t).1 = true
  | [], default, d, hd, t => by
    simp only [execCases]
    exact Exits.join_right (hd t)
  | ⟨_, body⟩ :: cases, default, d, hd, t => by
    simp only [execCases, casesExits]
    split
    · exact Exits.join_left (Exits.join_left (exits_execAll body _))
    · have ih := exits_execCases cases hd (o.decided t)
      rw [Exits.join_iff] at ih
      exact ih.elim (fun h => Exits.join_left (Exits.join_right h)) Exits.join_right

theorem exits_execDefault : ∀ (default : Option (List Stmt)) (t : Trace),
    defaultExits default (execDefault o fuel default t).1 = true
  | none, t => by simp [execDefault, defaultExits, Exits.only]
  | some body, t => by
    simp only [execDefault, defaultExits]
    exact exits_execAll body t

end

end Outcomes

mutual

/-- Outside of loops nothing is left by `break` or `continue`. -/
theorem exits_of_resolved : ∀ s : Stmt, resolved false s = true →
    exits s .break = false ∧ exits s .continue = false
  | .effect effect, _ => by
    simp only [exits]
    cases effect.reachable <;> simp [Exits.only, Exits.noExits]
  | .leave, _ => ⟨rfl, rfl⟩
  | .break, h | .continue, h => by cases h
  | .block statements, h => allExits_of_resolved statements h
  | .ifBlock _ body, h => by
    have hb := allExits_of_resolved body h
    simp [exits, Exits.join, Exits.only, Exits.noExits, hb]
  | .switch _ cases default, h => by
    simp only [resolved, Bool.and_eq_true] at h
    have hc := casesExits_of_resolved cases h.1
    have hd := defaultExits_of_resolved default h.2
    simp [exits, Exits.join, hc, hd]
  | .for init _ post _, h => by
    simp only [resolved, Bool.and_eq_true] at h
    have hi := allExits_of_resolved init h.1.1
    have hp := allExits_of_resolved post h.1.2
    simp [exits, Exits.andThen, Exits.loop, Exits.only, Exits.noExits, hi, hp]

theorem allExits_of_resolved : ∀ ss : List Stmt, allResolved false ss = true →
    allExits ss .break = false ∧ allExits ss .continue = false
  | [], _ => ⟨rfl, rfl⟩
  | s :: ss, h => by
    simp only [allResolved, Bool.and_eq_true] at h
    have hs := exits_of_resolved s h.1
    have hss := allExits_of_resolved ss h.2
    simp [allExits, Exits.andThen, hs, hss]

theorem casesExits_of_resolved : ∀ cases : List Case, casesResolved false cases = true →
    casesExits cases .break = false ∧ casesExits cases .continue = false
  | [], _ => ⟨rfl, rfl⟩
  | ⟨_, body⟩ :: cases, h => by
    simp only [casesResolved, Bool.and_eq_true] at h
    have hb := allExits_of_resolved body h.1
    have hc := casesExits_of_resolved cases h.2
    simp [casesExits, Exits.join, hb, hc]

theorem defaultExits_of_resolved : ∀ default : Option (List Stmt),
    defaultResolved false default = true →
    defaultExits default .break = false ∧ defaultExits default .continue = false
  | none, _ => ⟨rfl, rfl⟩
  | some body, h => allExits_of_resolved body h

end

/-! ### Flags -/

section Flags

theorem asBlock_isNextReachable (r : List YulStatement × Bool) :
    (asBlock true r).1.isNextReachable = (r.1.isEmpty || r.2) := by
  simp [asBlock, YulBlock.isNextReachable]

/-- What cannot be reached does not reach anything. -/
theorem processStatements_false (ss : List Stmt) : (processStatements false ss).2 = false := by
  induction ss with
  | nil => rfl
  | cons s ss ih => simpa [processStatements] using ih

theorem processStatements_isEmpty (r : Bool) (ss : List Stmt) :
    (processStatements r ss).1.isEmpty = ss.isEmpty := by
  cases ss <;> rfl

theorem resolveCases_true (cases : List Case) : (resolveCases true cases).2 = true := by
  induction cases with
  | nil => rfl
  | cons c cases ih =>
    obtain ⟨condition, body⟩ := c
    simpa [resolveCases] using ih

mutual

theorem next_of_exits : ∀ s : Stmt, exits s .normal = true → (resolveYulStatement true s).2 = true
  | .effect effect, h => by
    simp only [exits] at h
    simp only [resolveYulStatement]
    cases hr : effect.reachable with
    | true => rfl
    | false => simp [hr, Exits.noExits] at h
  | .block statements, h => by
    simp only [resolveYulStatement, asBlock, Bool.and_true]
    exact next_of_allExits statements h
  | .ifBlock _ _, _ => rfl
  | .switch _ cases default, _ => by
    simp only [resolveYulStatement, resolveCases_true]
    cases default with
    | none => rfl
    | some body => simp [resolveDefault]
  | .for init _ _ _, h => by
    simp only [exits, Exits.andThen_normal_iff] at h
    simp only [resolveYulStatement]
    exact next_of_allExits init h.1
  | .leave, h | .break, h | .continue, h => by simp [exits, Exits.only, Exits.noExits] at h

theorem next_of_allExits : ∀ ss : List Stmt, allExits ss .normal = true →
    (processStatements true ss).2 = true
  | [], _ => rfl
  | s :: ss, h => by
    simp only [allExits, Exits.andThen_normal_iff] at h
    simp only [processStatements, next_of_exits s h.1, Bool.and_true]
    exact next_of_allExits ss h.2

end

theorem statement_unreachable (ret : Instr) (s : Stmt) :
    statement ret (resolveYulStatement false s).1 = id := by
  cases s <;> simp [resolveYulStatement, statement, asBlock, YulBlock.reachable]

theorem lowerStatements_unreachable (ret : Instr) (ss : List Stmt) (s : Lower) :
    lowerStatements ret (processStatements false ss).1 s = s := by
  induction ss generalizing s with
  | nil => simp [processStatements, lowerStatements]
  | cons stmt ss ih =>
    simp only [processStatements, lowerStatements, statement_unreachable, Bool.false_and]
    exact ih s

end Flags

end Solang.Codegen.Yul
