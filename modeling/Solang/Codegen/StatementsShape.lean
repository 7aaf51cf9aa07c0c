import Solang.Codegen.StatementsSim

/-!
# The shape of the lowered blocks

Instructions are only ever added behind instructions that do not end the
block, so that the last instruction of a block is the only one that can.
-/

namespace Solang.Codegen

open Lower

namespace Lower

/-- Only the last instruction of a block ends it, and the blocks `R` are still
to be filled. -/
structure Shaped (R : List Nat) (s : Lower) : Prop where
  valid : s.Valid
  shape : ∀ b, ∀ i ∈ (s.code b).dropLast, i.targets = none
  reserved : ∀ p ∈ R, Reserved p s

/-- The current block is not ended yet. -/
structure Ready (R : List Nat) (s : Lower) : Prop extends Shaped R s where
  isOpen : ∀ i ∈ s.code s.current, i.targets = none

section

variable {R : List Nat} {s s' : Lower}

theorem Shaped.congr (h : Shaped R s) (hl : s'.newBlockNo = s.newBlockNo)
    (hc : s'.current = s.current) (hcode : ∀ b, s'.code b = s.code b) : Shaped R s' where
  valid := by
    have := h.valid
    rwa [Valid, hl, hc]
  shape b := by
    rw [hcode]
    exact h.shape b
  reserved p hp := (h.reserved p hp).congr hl hc hcode

theorem Ready.congr (h : Ready R s) (hl : s'.newBlockNo = s.newBlockNo)
    (hc : s'.current = s.current) (hcode : ∀ b, s'.code b = s.code b) : Ready R s' where
  toShaped := h.toShaped.congr hl hc hcode
  isOpen := by
    rw [hc, hcode]
    exact h.isOpen

theorem Shaped.setPhis {b : Nat} {phis : List Nat} (h : Shaped R s) : Shaped R (s.setPhis b phis) :=
  h.congr (by simp) (by simp) (by simp)

theorem Ready.new (h : Ready R s) : Ready (s.newBlockNo :: R) s.newBasicBlock where
  valid := h.valid.new
  shape b := by
    rw [code_newBasicBlock]
    exact h.shape b
  reserved p hp := by
    rcases List.mem_cons.mp hp with rfl | hp
    · exact reserved_new h.valid
    · exact (h.reserved p hp).new
  isOpen := by
    rw [current_newBasicBlock, code_newBasicBlock]
    exact h.isOpen

theorem Shaped.add {i : Instr} (h : Ready R s) : Shaped R (s.add i) where
  valid := h.valid.add
  shape b := by
    rw [code_add h.valid]
    split
    · rename_i hb
      rw [hb, List.dropLast_concat]
      exact h.isOpen
    · exact h.shape b
  reserved p hp := (h.reserved p hp).add h.valid

theorem Ready.addStraight {i : Instr} (h : Ready R s) (hi : i.targets = none) :
    Ready R (s.add i) where
  toShaped := .add h
  isOpen := by
    rw [current_add, code_add h.valid, if_pos rfl]
    intro j hj
    rcases List.mem_append.mp hj with hj | hj
    · exact h.isOpen j hj
    · rw [List.mem_singleton.mp hj]
      exact hi

theorem Shaped.addIf {r : Bool} {i : Instr} (h : Shaped R s) (ho : r = true → Ready R s) :
    Shaped R (if r then s.add i else s) := by
  cases r with
  | false => exact h
  | true => exact .add (ho rfl)

/-- Go on in a block that is still to be filled. -/
theorem Ready.enter (h : Shaped R s) (p : Nat) (hp : p ∈ R) (S : List Nat)
    (hS : ∀ q ∈ S, q ∈ R ∧ q ≠ p) : Ready S (s.setBasicBlock p) where
  valid := (h.reserved p hp).lt
  shape := h.shape
  reserved q hq := (h.reserved q (hS q hq).1).setBasicBlock (hS q hq).2
  isOpen := by
    rw [current_setBasicBlock, code_setBasicBlock, (h.reserved p hp).empty]
    intro i hi
    cases hi

/-- The blocks to be filled are older than the ones made next. -/
theorem Shaped.lt {q : Nat} (h : Shaped R s) (hq : q ∈ R) : q < s.newBlockNo :=
  (h.reserved q hq).lt

theorem Shaped.subset {S : List Nat} (h : Shaped R s) (hS : S ⊆ R) : Shaped S s :=
  { h with reserved := fun p hp => h.reserved p (hS hp) }

theorem Shaped.newDirtyTracker (h : Shaped R s) : Shaped R s.newDirtyTracker :=
  h.congr rfl rfl fun _ => rfl

theorem Ready.newDirtyTracker (h : Ready R s) : Ready R s.newDirtyTracker :=
  h.congr rfl rfl fun _ => rfl

theorem Ready.enterScope {b c : Nat} (h : Ready R s) : Ready R (s.enterScope b c) :=
  h.congr rfl rfl fun _ => rfl

theorem Shaped.leaveScope (h : Shaped R s) : Shaped R s.leaveScope := h.congr rfl rfl fun _ => rfl

theorem Shaped.popDirtyTracker (h : Shaped R s) : Shaped R s.popDirtyTracker :=
  h.congr rfl rfl fun _ => rfl

theorem Ready.setPhis {b : Nat} {phis : List Nat} (h : Ready R s) : Ready R (s.setPhis b phis) :=
  h.congr (by simp) (by simp) (by simp)

theorem Ready.popDirtyTracker (h : Ready R s) : Ready R s.popDirtyTracker :=
  h.congr rfl rfl fun _ => rfl

end

end Lower

/-! ## Expressions -/

def ExprShape (f : Lower → Expression × Lower) : Prop := ∀ R s, Ready R s → Ready R (f s).2

/-- The block is still open where the flag `r` says that it is reachable. -/
def StmtShape (r : Bool) (f : Lower → Lower) : Prop :=
  ∀ R s, Ready R s → Shaped R (f s) ∧ (r = true → Ready R (f s))

theorem ready_addAll {R : List Nat} {is : List Instr} (hi : ∀ i ∈ is, i.targets = none) {s : Lower}
    (h : Ready R s) : Ready R (is.foldl (fun s i => s.add i) s) := by
  induction is generalizing s with
  | nil => exact h
  | cons i is ih => exact ih (fun j hj => hi j (.tail _ hj)) (h.addStraight (hi i (.head _)))

theorem exprShape_basic (code : Code) : ExprShape (lowerExpr (.basic code)) := by
  intro R s h
  obtain ⟨d, hd⟩ := setDirtyAll_eq code.dirty (code.instrs.foldl (fun s i => s.add i) s)
  simp only [lowerExpr, addCode, hd]
  exact (ready_addAll code.straight h).congr rfl rfl fun _ => rfl

section

variable {cond left right : Lower → Expression × Lower} {body other : Lower → Lower}

theorem exprShape_shortCircuit {isOr : Bool} (hl : ExprShape left) (hr : ExprShape right) :
    ExprShape (shortCircuit isOr left right) := by
  intro R s h
  have h1 : Ready R (left s).2.temp.newDirtyTracker := (hl R s h).congr rfl rfl fun _ => rfl
  have hlt : ∀ q ∈ R, q < (left s).2.newBlockNo := fun q hq => h1.lt hq
  refine .popDirtyTracker (.setPhis (.enter (.add (.addStraight (hr _ _ (.enter (.add (.addStraight h1.new.new rfl)) _
    ?_ (((left s).2.newBlockNo + 1) :: R) ?_)) rfl)) _ ?_ _ ?_))
  all_goals simp
  all_goals grind

theorem exprShape_conditionalOperator {ty : Ty} (hc : ExprShape cond) (hl : ExprShape left)
    (hr : ExprShape right) : ExprShape (conditionalOperator ty cond left right) := by
  intro R s h
  have h1 : Ready R (cond s).2.temp.newDirtyTracker := (hc R s h).congr rfl rfl fun _ => rfl
  have hlt : ∀ q ∈ R, q < (cond s).2.newBlockNo := fun q hq => h1.lt hq
  refine .popDirtyTracker (.setPhis (.enter (.add (.addStraight (hr _ _ (.enter (.add (.addStraight (hl _ _
    (.enter (.add h1.new.new.new) _ ?_
      (((cond s).2.newBlockNo + 2) :: ((cond s).2.newBlockNo + 1) :: R) ?_)) rfl)) _ ?_
      (((cond s).2.newBlockNo + 2) :: R) ?_)) rfl)) _ ?_ _ ?_))
  all_goals simp
  all_goals grind

theorem exprShape_lowerExpr (e : SrcExpr) : ExprShape (lowerExpr e) := by
  induction e with
  | basic code => exact exprShape_basic code
  | operands first second ihf ihs => exact fun R s h => ihs R _ (ihf R s h)
  | and left right ihl ihr | or left right ihl ihr => exact exprShape_shortCircuit ihl ihr
  | conditionalOperator ty cond left right ihc ihl ihr =>
    exact exprShape_conditionalOperator ihc ihl ihr

/-! ## Statements -/

variable {r nr : Bool}

theorem stmtShape_ifThen (hc : ExprShape cond) (hb : StmtShape r body) :
    StmtShape true (ifThen cond body r) := by
  intro R s h
  let s1 := (cond s).2
  let thenBlock := s1.newBlockNo
  let endif := s1.newBasicBlock.newBlockNo
  have h1 : Ready R s1 := hc R s h
  have hlt : ∀ q ∈ R, q < thenBlock := fun q hq => h1.lt hq
  have hend : endif = thenBlock + 1 := by simp [endif, thenBlock]
  have h3 : Shaped (endif :: thenBlock :: R) _ :=
    .add (i := .branchCond (cond s).1 thenBlock endif) h1.new.new
  have h4 := (Ready.enter h3 thenBlock (by simp) (endif :: R) (by grind)).newDirtyTracker
  obtain ⟨h5, ho⟩ := hb _ _ h4
  have h7 : Ready R (ifThen cond body r s) :=
    .enter (.popDirtyTracker (.setPhis (.addIf h5 ho))) endif (.head _) _ (by grind)
  exact ⟨h7.toShaped, fun _ => h7⟩

theorem stmtShape_ifThenElse {r' : Bool} (hc : ExprShape cond) (hb : StmtShape r body)
    (ho : StmtShape r' other) : StmtShape true (ifThenElse cond body other r r') := by
  intro R s h
  let s1 := (cond s).2
  let thenBlock := s1.newBlockNo
  let elseBlock := s1.newBasicBlock.newBlockNo
  let endif := s1.newBasicBlock.newBasicBlock.newBlockNo
  have h1 : Ready R s1 := hc R s h
  have hlt : ∀ q ∈ R, q < thenBlock := fun q hq => h1.lt hq
  have helse : elseBlock = thenBlock + 1 := by simp [elseBlock, thenBlock]
  have hend : endif = thenBlock + 2 := by simp [endif, thenBlock]
  have h3 : Shaped (endif :: elseBlock :: thenBlock :: R) _ :=
    .add (i := .branchCond (cond s).1 thenBlock elseBlock) h1.new.new.new
  have h4 := (Ready.enter h3 thenBlock (by simp) (endif :: elseBlock :: R)
    (by grind)).newDirtyTracker
  obtain ⟨h5, ho5⟩ := hb _ _ h4
  have h6 := Shaped.addIf (i := .branch endif) h5 ho5
  obtain ⟨h8, ho8⟩ := ho _ _ (Ready.enter h6 elseBlock (by simp) (endif :: R) (by grind))
  have h9 : Ready R (ifThenElse cond body other r r' s) :=
    .enter (.popDirtyTracker (.setPhis (.addIf h8 ho8))) endif (.head _) _ (by grind)
  exact ⟨h9.toShaped, fun _ => h9⟩

theorem stmtShape_doWhileLoop (hb : StmtShape r body) (hc : ExprShape cond) :
    StmtShape true (doWhileLoop body r cond) := by
  intro R s h
  let bodyBlock := s.newBlockNo
  let condBlock := s.newBasicBlock.newBlockNo
  let endBlock := s.newBasicBlock.newBasicBlock.newBlockNo
  have hlt : ∀ q ∈ R, q < bodyBlock := fun q hq => h.lt hq
  have hcond : condBlock = bodyBlock + 1 := by simp [condBlock, bodyBlock]
  have hend : endBlock = bodyBlock + 2 := by simp [endBlock, bodyBlock]
  have h3 : Shaped (endBlock :: condBlock :: bodyBlock :: R) _ :=
    .add (i := .branch bodyBlock) h.new.new.new
  have h4 := (Ready.enter h3 bodyBlock (by simp) (endBlock :: condBlock :: R)
    (by grind)).newDirtyTracker.enterScope (b := endBlock) (c := condBlock)
  obtain ⟨h5, ho5⟩ := hb _ _ h4
  have h6 := Shaped.addIf (i := .branch condBlock) h5 ho5
  have h8 := hc _ _ (Ready.enter h6 condBlock (by simp) (endBlock :: R) (by grind))
  have h9 : Ready R (doWhileLoop body r cond s) :=
    .enter (.setPhis (.setPhis (.setPhis (.popDirtyTracker (.add h8))))) endBlock (.head _) _
      (by grind)
  exact ⟨h9.toShaped, fun _ => h9⟩

theorem stmtShape_whileLoop (hc : ExprShape cond) (hb : StmtShape r body) :
    StmtShape true (whileLoop cond body r) := by
  intro R s h
  let condBlock := s.newBlockNo
  let bodyBlock := s.newBasicBlock.newBlockNo
  let endBlock := s.newBasicBlock.newBasicBlock.newBlockNo
  let s2 := s.newBasicBlock.newBasicBlock.newBasicBlock.add (.branch condBlock)
  let s3 := cond (s2.setBasicBlock condBlock)
  have hlt : ∀ q ∈ R, q < condBlock := fun q hq => h.lt hq
  have hbody : bodyBlock = condBlock + 1 := by simp [condBlock, bodyBlock]
  have hend : endBlock = condBlock + 2 := by simp [endBlock, condBlock]
  have h2 : Shaped (endBlock :: bodyBlock :: condBlock :: R) s2 := .add h.new.new.new
  have h3 : Ready (endBlock :: bodyBlock :: R) s3.2 :=
    hc _ _ (.enter h2 condBlock (by simp) _ (by grind))
  have h4 := Shaped.add (i := .branchCond s3.1 bodyBlock endBlock) h3
  have h5 := (Ready.enter h4 bodyBlock (by simp) (endBlock :: R)
    (by grind)).newDirtyTracker.enterScope (b := endBlock) (c := condBlock)
  obtain ⟨h6, ho6⟩ := hb _ _ h5
  have h7 : Ready R (whileLoop cond body r s) :=
    .enter (.setPhis (.setPhis (.popDirtyTracker (.leaveScope (.addIf h6 ho6))))) endBlock (.head _)
      _ (by grind)
  exact ⟨h7.toShaped, fun _ => h7⟩

variable {init : Lower → Lower} {next : Option (Lower → Lower)}

theorem shaped_forNext {R S : List Nat} {p q : Nat} {s : Lower} (hn : ∀ f ∈ next, StmtShape nr f)
    (h : Shaped R s) (hp : p ∈ R) (hS : ∀ b ∈ S, b ∈ R ∧ b ≠ p) : Shaped S (forNext next nr p q s) := by
  have h1 : Ready S (s.setBasicBlock p) := .enter h p hp S hS
  cases next with
  | none => exact .addIf h1.toShaped fun _ => h1
  | some f =>
    obtain ⟨h2, ho2⟩ := hn f rfl S _ h1
    exact .addIf h2 ho2

theorem stmtShape_forLoop (hi : StmtShape true init) (hn : ∀ f ∈ next, StmtShape nr f)
    (hb : StmtShape r body) :
    StmtShape true (forLoop init next nr body r) := by
  intro R s h
  let bodyBlock := s.newBlockNo
  let nextBlock := s.newBasicBlock.newBlockNo
  let endBlock := s.newBasicBlock.newBasicBlock.newBlockNo
  let s2 := init s.newBasicBlock.newBasicBlock.newBasicBlock
  have hlt : ∀ q ∈ R, q < bodyBlock := fun q hq => h.lt hq
  have hnext : nextBlock = bodyBlock + 1 := by simp [nextBlock, bodyBlock]
  have hend : endBlock = bodyBlock + 2 := by simp [endBlock, bodyBlock]
  have h2 : Ready (endBlock :: nextBlock :: bodyBlock :: R) s2 := (hi _ _ h.new.new.new).2 rfl
  have h3 := Shaped.add (i := .branch bodyBlock) h2
  have h4 := ((Ready.enter h3 bodyBlock (by simp) (endBlock :: nextBlock :: R)
    (by grind)).enterScope (b := endBlock)
      (c := if next.isNone then bodyBlock else nextBlock)).newDirtyTracker
  obtain ⟨h5, ho5⟩ := hb _ _ h4
  have h6 : Shaped (endBlock :: nextBlock :: R) _ :=
    .leaveScope (.addIf (i := .branch nextBlock) h5 ho5)
  have h7 : Ready R (forLoop init next nr body r s) := by
    refine .enter (R := endBlock :: R) (.setPhis (.setPhis (.setPhis (.popDirtyTracker ?_))))
      endBlock (.head _) _ (by grind)
    cases r with
    | true => exact shaped_forNext hn h6 (.tail _ (.head _)) (by grind)
    | false => exact h6.subset (by simp)
  exact ⟨h7.toShaped, fun _ => h7⟩

theorem stmtShape_forLoopCond (hi : StmtShape true init) (hc : ExprShape cond)
    (hn : ∀ f ∈ next, StmtShape nr f) (hb : StmtShape r body) :
    StmtShape true (forLoopCond init cond next nr body r) := by
  intro R s h
  let bodyBlock := s.newBlockNo
  let condBlock := s.newBasicBlock.newBlockNo
  let nextBlock := s.newBasicBlock.newBasicBlock.newBlockNo
  let endBlock := s.newBasicBlock.newBasicBlock.newBasicBlock.newBlockNo
  let s2 := init s.newBasicBlock.newBasicBlock.newBasicBlock.newBasicBlock
  let s3 := cond ((s2.add (.branch condBlock)).setBasicBlock condBlock)
  have hlt : ∀ q ∈ R, q < bodyBlock := fun q hq => h.lt hq
  have hcond : condBlock = bodyBlock + 1 := by simp [condBlock, bodyBlock]
  have hnext : nextBlock = bodyBlock + 2 := by simp [nextBlock, bodyBlock]
  have hend : endBlock = bodyBlock + 3 := by simp [endBlock, bodyBlock]
  have h2 : Ready (endBlock :: nextBlock :: condBlock :: bodyBlock :: R) s2 :=
    (hi _ _ h.new.new.new.new).2 rfl
  have h3 : Ready (endBlock :: nextBlock :: bodyBlock :: R) s3.2 :=
    hc _ _ (.enter (.add h2) condBlock (by simp) _ (by grind))
  have h4 := Shaped.add (i := .branchCond s3.1 bodyBlock endBlock) h3
  have h5 := ((Ready.enter h4 bodyBlock (by simp) (endBlock :: nextBlock :: R)
    (by grind)).enterScope (b := endBlock) (c := nextBlock)).newDirtyTracker
  obtain ⟨h6, ho6⟩ := hb _ _ h5
  have h7 : Shaped (endBlock :: R) _ :=
    shaped_forNext (p := nextBlock) (q := condBlock) hn
      (.leaveScope (.addIf (i := .branch nextBlock) h6 ho6)) (.tail _ (.head _)) (by grind)
  have h8 : Ready R (forLoopCond init cond next nr body r s) :=
    .setPhis (.setPhis (.setPhis (.popDirtyTracker (.enter h7 endBlock (.head _) R (by grind)))))
  exact ⟨h8.toShaped, fun _ => h8⟩

end

theorem StmtShape.weaken {r : Bool} {f : Lower → Lower} (h : StmtShape true f) : StmtShape r f :=
  fun R s hs => ⟨(h R s hs).1, fun _ => (h R s hs).2 rfl⟩

theorem stmtShape_add (f : Lower → Instr) : StmtShape false fun s => s.add (f s) :=
  fun _ _ h => ⟨.add h, nofun⟩

theorem stmtShape_lowerEffect (e : Effect) : StmtShape e.reachable (lowerEffect e) := by
  intro R s h
  have h1 := exprShape_lowerExpr e.expr R s h
  rcases hn : e.noreturn with _ | i
  · simp only [lowerEffect, hn]
    exact ⟨h1.toShaped, fun _ => h1⟩
  · simp only [lowerEffect, hn, Effect.reachable]
    exact ⟨.add h1, nofun⟩

/-- The arms of a returned `?:` are lowered one after the other. -/
theorem shaped_returns (e : SrcExpr) : ∀ R s, Ready R s → Shaped R (returns e s) := by
  induction e with
  | conditionalOperator ty cond left right ihc ihl ihr =>
    intro R s h
    let s1 := (lowerExpr cond s).2
    let leftBlock := s1.newBlockNo
    let rightBlock := s1.newBasicBlock.newBlockNo
    have h1 : Ready R s1 := exprShape_lowerExpr cond R s h
    have hlt : ∀ q ∈ R, q < leftBlock := fun q hq => h1.lt hq
    have hright : rightBlock = leftBlock + 1 := by simp [rightBlock, leftBlock]
    have h2 : Shaped (rightBlock :: leftBlock :: R) _ :=
      .add (i := .branchCond (lowerExpr cond s).1 leftBlock rightBlock) h1.new.new
    have h3 := ihl _ _ (Ready.enter h2.newDirtyTracker leftBlock (by simp) (rightBlock :: R)
      (by grind))
    exact ihr _ _ (Ready.enter h3 rightBlock (.head _) R (by grind))
  | _ =>
    intro R s h
    simp only [returns]
    exact .add (exprShape_lowerExpr _ R s h)

theorem stmtShape_next (next : Option Effect) :
    ∀ f ∈ next.map lowerEffect, StmtShape (next.all Effect.reachable) f := by
  intro f hf
  obtain ⟨e, rfl, rfl⟩ := Option.map_eq_some_iff.mp hf
  exact stmtShape_lowerEffect e

mutual

theorem stmtShape_statement (stmt : Stmt) {d : Nat} (h : stmt.loopsOk d = true) :
    StmtShape stmt.reachable (statement stmt) := by
  match stmt with
  | .block stmts => exact stmtShape_statements stmts h
  | .expression effect => exact stmtShape_lowerEffect effect
  | .return none => exact stmtShape_add fun _ => .return []
  | .return (some expr) => exact fun R s hs => ⟨shaped_returns expr R s hs, nofun⟩
  | .break => exact stmtShape_add fun s => .branch s.doBreak
  | .continue => exact stmtShape_add fun s => .branch s.doContinue
  | .ifThen cond thenStmt =>
    exact stmtShape_ifThen (exprShape_lowerExpr cond) (stmtShape_statement thenStmt h)
  | .ifThenElse cond thenStmt elseStmt =>
    simp only [Stmt.loopsOk, Bool.and_eq_true] at h
    exact (stmtShape_ifThenElse (exprShape_lowerExpr cond) (stmtShape_statement thenStmt h.1)
      (stmtShape_statement elseStmt h.2)).weaken
  | .doWhile body cond =>
    exact stmtShape_doWhileLoop (stmtShape_statement body h) (exprShape_lowerExpr cond)
  | .while cond body =>
    exact stmtShape_whileLoop (exprShape_lowerExpr cond) (stmtShape_statement body h)
  | .for init none next body =>
    simp only [Stmt.loopsOk, Bool.and_eq_true] at h
    have hi := stmtShape_optStatement init h.1.1.1
    rw [h.1.1.2] at hi
    exact (stmtShape_forLoop hi (stmtShape_next next) (stmtShape_optStatement body h.1.2)).weaken
  | .for init (some cond) next body =>
    simp only [Stmt.loopsOk, Bool.and_eq_true] at h
    have hi := stmtShape_optStatement init h.1.1.1
    rw [h.1.1.2] at hi
    exact stmtShape_forLoopCond hi (exprShape_lowerExpr cond) (stmtShape_next next)
      (stmtShape_optStatement body h.1.2)

theorem stmtShape_statements (stmts : List Stmt) {d : Nat} (h : Stmt.allLoopsOk d stmts = true) :
    StmtShape (Stmt.allReachable stmts) (statements stmts) := by
  match stmts with
  | [] => exact fun R s hs => ⟨hs.toShaped, fun _ => hs⟩
  | stmt :: stmts =>
    simp only [Stmt.allLoopsOk, Bool.and_eq_true, Bool.or_eq_true, Bool.not_eq_true'] at h
    have h1 := stmtShape_statement stmt h.1
    intro R s hs
    obtain ⟨h2, ho2⟩ := h1 R s hs
    cases hr : stmt.reachable with
    | false =>
      simp only [statements, hr, Stmt.allReachable]
      exact ⟨h2, nofun⟩
    | true =>
      simp only [statements, hr, Stmt.allReachable]
      have h3 := h.2.resolve_left (by simp [hr])
      exact stmtShape_statements stmts h3 R _ (ho2 hr)

theorem stmtShape_optStatement (stmt : Option Stmt) {d : Nat}
    (h : Stmt.optLoopsOk d stmt = true) : StmtShape (stmt.all Stmt.reachable) (optStatement stmt) := by
  match stmt with
  | none => exact fun R s hs => ⟨hs.toShaped, fun _ => hs⟩
  | some stmt => exact stmtShape_statement stmt h

end

end Solang.Codegen
