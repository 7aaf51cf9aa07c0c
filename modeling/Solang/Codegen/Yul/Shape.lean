import Solang.Codegen.StatementsShape
import Solang.Codegen.Yul.Source

/-!
# What the lowering of Yul leaves alone

As for the Solidity statements, a part appends to the current block and fills blocks
of its own. The blocks of a switch leave the current block alone too, to which the
switch is added in the end.
-/

namespace Solang.Codegen

open Lower

namespace Lower

/-- Go back to the block in which the construct started. -/
theorem GrowsTo.setCurrent {base s : Lower} {n : Nat} (hbase : base.Valid) (h : GrowsTo base n s) :
    GrowsTo base n (s.setBasicBlock base.current) :=
  { h with
    current := .inl rfl
    valid := lt_of_lt_of_le hbase (h.le.trans h.len) }

/-- Only blocks made since were touched. -/
structure Aside (s s' : Lower) : Prop where
  grows : Grows s s'
  same : ∀ b < s.newBlockNo, s'.code b = s.code b

theorem Aside.refl {s : Lower} (hs : s.Valid) : Aside s s := ⟨.refl hs, fun _ _ => rfl⟩

theorem Aside.trans {s s' s'' : Lower} (h : Aside s s') (h' : Aside s' s'') : Aside s s'' where
  grows := h.grows.trans h'.grows
  same b hb := by rw [h'.same b (lt_of_lt_of_le hb h.grows.len), h.same b hb]

end Lower

namespace Yul

/-- The lowering of a part keeps the frame and the loop scopes. -/
structure Framed (f : Lower → Lower) : Prop where
  grows : StmtFrame f
  loops : ∀ s, (f s).loops = s.loops

theorem framed_id : Framed id := ⟨fun _ hs => .refl hs, fun _ => rfl⟩

theorem Framed.ite {f : Lower → Lower} (hf : Framed f) (c : Bool) :
    Framed (if c then f else id) := by
  cases c
  · exact framed_id
  · exact hf

theorem framed_add (i : Lower → Instr) : Framed fun s => s.add (i s) :=
  ⟨fun _ hs => .add (Grows.refl hs), fun _ => loops_add _ _⟩

section Constructs

variable {cond : Lower → Expression × Lower} {init post body : Lower → Lower}

theorem lowerCondition_snd (c : Condition) (s : Lower) :
    (lowerCondition c s).2 = (lowerExpr c.expr s).2 := by
  unfold lowerCondition
  dsimp only
  split <;> rfl

theorem exprFrame_lowerCondition (c : Condition) : ExprFrame (lowerCondition c) where
  grows s hs := by
    rw [lowerCondition_snd]
    exact (exprFrame_lowerExpr c.expr).grows s hs
  loops s := by
    rw [lowerCondition_snd]
    exact (exprFrame_lowerExpr c.expr).loops s

theorem framed_lowerEffect (e : Effect) : Framed (lowerEffect e) where
  grows := stmtFrame_lowerEffect e
  loops s := by
    unfold lowerEffect
    cases e.noreturn <;> simp [(exprFrame_lowerExpr e.expr).loops]

theorem framed_ifThen {r : Bool} (hc : ExprFrame cond) (hb : Framed body) :
    Framed (ifThen cond body r) where
  grows := stmtFrame_ifThen hc hb.grows
  loops s := by simp [ifThen, hb.loops, hc.loops]

theorem framed_processForBlock {ri rp rb : Bool} (hi : Framed init) (hc : ExprFrame cond)
    (hp : Framed post) (hb : Framed body) :
    Framed (processForBlock init ri cond post rp body rb) where
  grows s hs := by
    have h0 : Grows s (init s) := hi.grows s hs
    cases ri with
    | false => exact h0
    | true =>
      refine h0.trans (GrowsTo.grows (n := (init s).newBlockNo + 4) ?_)
      refine .setPhis (.setPhis (.setPhis (.popDirtyTracker (.setBasicBlock (.addIf (.part hp.grows
        (.setBasicBlock (.leaveScope (.addIf (.part hb.grows (.newDirtyTracker (.enterScope
          (.setBasicBlock (.add (.expr hc.grows (.setBasicBlock (.add (growsTo_new4 h0.valid))
            ?_ ?_))) ?_ ?_)))))) ?_ ?_))) ?_ ?_))))
      all_goals simp <;> omega
  loops s := by
    cases ri with
    | false => exact hi.loops s
    | true => simp [processForBlock, hi.loops, hb.loops, hc.loops, hp.loops]

theorem aside_switchBlock {r : Bool} {endSwitch : Nat} (hb : Framed body) {s : Lower}
    (hs : s.Valid) : Aside s (switchBlock body r endSwitch s) := by
  have h1 : GrowsTo s (s.newBlockNo + 1) (s.newBasicBlock.setBasicBlock s.newBlockNo) := by
    refine .setBasicBlock ?_ (Nat.le_refl _) (Nat.lt_succ_self _)
    simpa using (Grows.refl hs).newCounted
  have h2 := hb.grows _ h1.valid
  refine ⟨GrowsTo.grows (n := s.newBlockNo + 1) (.addIf (.part hb.grows h1)), fun b hb' => ?_⟩
  have hbody : (body (s.newBasicBlock.setBasicBlock s.newBlockNo)).code b = s.code b := by
    rw [h2.other b (by simp; omega) (by simp; omega)]
    simp
  unfold switchBlock
  dsimp only
  split
  · have hcur : b ≠ (body (s.newBasicBlock.setBasicBlock s.newBlockNo)).current := by
      have hc := h2.current
      simp only [current_setBasicBlock, newBlockNo_setBasicBlock, newBlockNo_newBasicBlock] at hc
      omega
    rw [code_add h2.valid, if_neg hcur, hbody]
  · exact hbody

theorem loops_switchBlock {r : Bool} {endSwitch : Nat} (hb : Framed body) (s : Lower) :
    (switchBlock body r endSwitch s).loops = s.loops := by
  simp [switchBlock, hb.loops]

/-- The blocks of a switch are made on the side. -/
structure SwitchFrame {α : Type} (f : Nat → Lower → α × Lower) : Prop where
  aside : ∀ e s, s.Valid → Aside s (f e s).2
  loops : ∀ e s, (f e s).2.loops = s.loops

theorem framed_switch {cases : Nat → Lower → List (Expression × Nat) × Lower}
    {default : Nat → Lower → Nat × Lower} (hc : ExprFrame cond) (hcases : SwitchFrame cases)
    (hdefault : SwitchFrame default) : Framed (switch cond cases default) where
  grows s hs := by
    let s1 := (cond s).2
    let s2 := s1.newBasicBlock.newDirtyTracker
    have h1 : Grows s s1 := hc.grows s hs
    have h2 : GrowsTo s1 (s1.newBlockNo + 1) s2 := by
      refine .newDirtyTracker ?_
      simpa using (Grows.refl h1.valid).newCounted
    have h3 := hcases.aside s1.newBlockNo s2 h2.valid
    have h4 := hdefault.aside s1.newBlockNo _ h3.grows.valid
    refine h1.trans (GrowsTo.grows (n := s1.newBlockNo + 1) ?_)
    refine .setBasicBlock (.add (.setCurrent h1.valid (.popDirtyTracker (.setPhis
      ((h2.trans h3.grows).trans h4.grows))))) (Nat.le_refl _) (Nat.lt_succ_self _)
  loops s := by simp [switch, hcases.loops, hdefault.loops, hc.loops]

end Constructs

section Tree

variable (ret : Instr)

mutual

theorem framed_statement : ∀ st : YulStatement, Framed (statement ret st)
  | .effect r effect => by
    simp only [statement]
    exact (framed_lowerEffect effect).ite r
  | .block block => by
    simp only [statement]
    exact (framed_lowerBlock block).ite _
  | .ifBlock r condition block => by
    simp only [statement]
    exact (framed_ifThen (exprFrame_lowerCondition condition) (framed_lowerBlock block)).ite r
  | .switch r condition cases default => by
    simp only [statement]
    exact (framed_switch (exprFrame_lowerExpr condition) (switchFrame_cases cases)
      (switchFrame_default default)).ite r
  | .for r init condition post body => by
    simp only [statement]
    exact (framed_processForBlock (framed_lowerBlock init) (exprFrame_lowerCondition condition)
      (framed_lowerBlock post) (framed_lowerBlock body)).ite r
  | .leave r | .break r | .continue r => by
    simp only [statement]
    exact (framed_add _).ite r

theorem framed_lowerBlock : ∀ block : YulBlock, Framed (lowerBlock ret block)
  | ⟨_, _, statements⟩ => by
    simp only [lowerBlock]
    exact framed_lowerStatements statements

theorem framed_lowerStatements : ∀ sts : List YulStatement, Framed (lowerStatements ret sts)
  | [] => ⟨fun _ hs => .refl hs, fun _ => rfl⟩
  | item :: sts => by
    have h := framed_statement item
    have hrest := framed_lowerStatements sts
    refine ⟨fun s hs => ?_, fun s => ?_⟩
    · simp only [lowerStatements]
      exact (h.grows s hs).trans (hrest.grows _ (h.grows s hs).valid)
    · simp only [lowerStatements]
      rw [hrest.loops, h.loops]

theorem switchFrame_cases : ∀ cases : List CaseBlock, SwitchFrame (lowerCases ret cases)
  | [] => ⟨fun _ _ hs => .refl hs, fun _ _ => rfl⟩
  | ⟨_, block⟩ :: cases => by
    have h := framed_lowerBlock block
    have hrest := switchFrame_cases cases
    refine ⟨fun e s hs => ?_, fun e s => ?_⟩
    · simp only [lowerCases]
      have h1 : Aside s (switchBlock (lowerBlock ret block) block.isNextReachable e s) :=
        aside_switchBlock h hs
      exact h1.trans (hrest.aside e _ h1.grows.valid)
    · simp only [lowerCases]
      rw [hrest.loops, loops_switchBlock h]

theorem switchFrame_default : ∀ default : Option YulBlock, SwitchFrame (lowerDefault ret default)
  | none => ⟨fun _ _ hs => .refl hs, fun _ _ => rfl⟩
  | some block => by
    have h := framed_lowerBlock block
    refine ⟨fun e s hs => ?_, fun e s => ?_⟩
    · simp only [lowerDefault]
      exact aside_switchBlock h hs
    · simp only [lowerDefault]
      exact loops_switchBlock h s

end

end Tree

end Yul

end Solang.Codegen

/-!
## The shape of the lowered Yul blocks

Only the last instruction of a block ends it. This holds of every lowered statement,
also where the lowering leaves a block empty that can be reached.
-/

namespace Solang.Codegen

open Lower

namespace Lower

variable {R : List Nat} {s : Lower}

theorem Shaped.new (h : Shaped R s) : Shaped (s.newBlockNo :: R) s.newBasicBlock where
  valid := h.valid.new
  shape b := by
    rw [code_newBasicBlock]
    exact h.shape b
  reserved p hp := by
    obtain rfl | hp := List.mem_cons.mp hp
    · exact reserved_new h.valid
    · exact (h.reserved p hp).new

end Lower

namespace Yul

theorem stmtShape_id (r : Bool) : StmtShape r id := fun _ _ h => ⟨h.toShaped, fun _ => h⟩

theorem exprShape_lowerCondition (c : Condition) : ExprShape (lowerCondition c) := by
  intro R s h
  rw [lowerCondition_snd]
  exact exprShape_lowerExpr c.expr R s h

section Constructs

variable {cond : Lower → Expression × Lower} {init post body : Lower → Lower}

theorem stmtShape_processForBlock {ri rp rb : Bool} (hi : StmtShape ri init) (hc : ExprShape cond)
    (hp : StmtShape rp post) (hb : StmtShape rb body) :
    StmtShape ri (processForBlock init ri cond post rp body rb) := by
  intro R s h
  obtain ⟨h0, ho0⟩ := hi R s h
  cases ri with
  | false => exact ⟨h0, nofun⟩
  | true =>
    let s0 := init s
    let condBlock := s0.newBlockNo
    let nextBlock := s0.newBasicBlock.newBlockNo
    let bodyBlock := s0.newBasicBlock.newBasicBlock.newBlockNo
    let endBlock := s0.newBasicBlock.newBasicBlock.newBasicBlock.newBlockNo
    let sc := (s0.newBasicBlock.newBasicBlock.newBasicBlock.newBasicBlock.add
      (.branch condBlock)).setBasicBlock condBlock
    have hnext : nextBlock = condBlock + 1 := by simp [nextBlock, condBlock]
    have hbody : bodyBlock = condBlock + 2 := by simp [bodyBlock, condBlock]
    have hend : endBlock = condBlock + 3 := by simp [endBlock, condBlock]
    have hlt : ∀ q ∈ R, q < condBlock := fun q hq => (ho0 rfl).lt hq
    have h1 : Ready (endBlock :: bodyBlock :: nextBlock :: condBlock :: R) _ :=
      (ho0 rfl).new.new.new.new
    have h2 := Shaped.add (i := .branch condBlock) h1
    have h3 := hc _ _ (Ready.enter h2 condBlock (by simp) (endBlock :: bodyBlock :: nextBlock :: R)
      (by grind))
    have h4 := Shaped.add (i := .branchCond (cond sc).1 bodyBlock endBlock) h3
    have h5 := ((Ready.enter h4 bodyBlock (by simp) (endBlock :: nextBlock :: R)
      (by grind)).enterScope (b := endBlock) (c := nextBlock)).newDirtyTracker
    obtain ⟨h6, ho6⟩ := hb _ _ h5
    have h7 : Shaped (endBlock :: nextBlock :: R) _ :=
      .leaveScope (.addIf (i := .branch nextBlock) h6 ho6)
    obtain ⟨h8, ho8⟩ := hp _ _ (Ready.enter h7 nextBlock (by simp) (endBlock :: R) (by grind))
    have h9 : Shaped (endBlock :: R) _ := .addIf (i := .branch condBlock) h8 ho8
    have h10 : Ready R (processForBlock init true cond post rp body rb s) :=
      .setPhis (.setPhis (.setPhis (.popDirtyTracker (.enter h9 endBlock (.head _) R (by grind)))))
    exact ⟨h10.toShaped, fun _ => h10⟩

theorem shaped_switchBlock {r : Bool} {e : Nat} {R : List Nat} {s : Lower} (hb : StmtShape r body)
    (h : Shaped R s) : Shaped R (switchBlock body r e s) := by
  have hlt : ∀ q ∈ R, q < s.newBlockNo := fun q hq => h.lt hq
  have h1 : Ready R (s.newBasicBlock.setBasicBlock s.newBlockNo) :=
    .enter h.new s.newBlockNo (.head _) R (by grind)
  obtain ⟨h2, ho2⟩ := hb R _ h1
  exact .addIf h2 ho2

/-- The blocks of a switch keep the shape. -/
def SwitchShape {α : Type} (f : Nat → Lower → α × Lower) : Prop :=
  ∀ e R s, Shaped R s → Shaped R (f e s).2

theorem stmtShape_switch {cases : Nat → Lower → List (Expression × Nat) × Lower}
    {default : Nat → Lower → Nat × Lower} (hc : ExprShape cond) (fcases : SwitchFrame cases)
    (fdefault : SwitchFrame default) (hcases : SwitchShape cases) (hdefault : SwitchShape default) :
    StmtShape true (switch cond cases default) := by
  intro R s h
  let s1 := (cond s).2
  let e := s1.newBlockNo
  let s2 := s1.newBasicBlock.newDirtyTracker
  let s3 := (cases e s2).2
  let s4 := (default e s3).2
  let s5 := (s4.setPhis e s4.topDirty).popDirtyTracker
  let s6 := s5.setBasicBlock s1.current
  have h1 : Ready R s1 := hc R s h
  have h2 : Ready (e :: R) s2 := h1.new.newDirtyTracker
  have h4 : Shaped (e :: R) s4 := hdefault e _ _ (hcases e _ _ h2.toShaped)
  have a2 : Aside s2 s3 := fcases.aside e s2 h2.valid
  have a4 : Aside s2 s4 := a2.trans (fdefault.aside e s3 a2.grows.valid)
  have h5 : Shaped (e :: R) s5 := h4.setPhis.popDirtyTracker
  have hcur : s2.current < s2.newBlockNo := h2.valid
  have hcode : s6.code s6.current = s2.code s2.current := by
    have hsame := a4.same s2.current hcur
    simpa [s6, s5, s2] using hsame
  have h6 : Ready (e :: R) s6 := by
    refine ⟨⟨?_, fun b => ?_, fun q hq => ?_⟩, ?_⟩
    · have hlen := a4.grows.len
      simp only [Valid, s6, s5, newBlockNo_setBasicBlock, newBlockNo_popDirtyTracker,
        newBlockNo_setPhis, current_setBasicBlock]
      exact lt_of_lt_of_le hcur hlen
    · exact h5.shape b
    · exact (h5.reserved q hq).setBasicBlock (h2.reserved q hq).ne
    · rw [hcode]
      exact h2.isOpen
  have h7 : Shaped (e :: R) _ := .add (i := .switch (cond s).1 (cases e s2).1 (default e s3).1) h6
  have hlt : ∀ q ∈ R, q < e := fun q hq => h1.lt hq
  have h8 : Ready R (switch cond cases default s) := .enter h7 e (.head _) R (by grind)
  exact ⟨h8.toShaped, fun _ => h8⟩

end Constructs

section Tree

variable (ret : Instr)

theorem isNextReachable_eq (ss : List Stmt) :
    (asBlock true (processStatements true ss)).1.isNextReachable = (processStatements true ss).2 := by
  rw [asBlock_isNextReachable, processStatements_isEmpty]
  cases ss with
  | nil => rfl
  | cons s ss => rfl

/-- The statements of a block with the flag of the block -/
theorem stmtShape_block_of {ret : Instr} {ss : List Stmt}
    (h : StmtShape (processStatements true ss).2 (lowerStatements ret (processStatements true ss).1)) :
    StmtShape (asBlock true (processStatements true ss)).1.isNextReachable
      (lowerBlock ret (asBlock true (processStatements true ss)).1) := by
  rw [isNextReachable_eq]
  exact h

mutual

theorem stmtShape_statement : ∀ stmt : Stmt,
    StmtShape (resolveYulStatement true stmt).2 (statement ret (resolveYulStatement true stmt).1)
  | .effect effect => by
    simp only [resolveYulStatement, statement, if_true]
    exact stmtShape_lowerEffect effect
  | .block statements => by
    have h := stmtShape_statements statements
    simp only [resolveYulStatement, statement, asBlock, YulBlock.reachable, lowerBlock, if_true,
      Bool.and_true]
    exact h
  | .ifBlock condition body => by
    have h := stmtShape_statements body
    simp only [resolveYulStatement, statement, if_true]
    exact stmtShape_ifThen (exprShape_lowerCondition condition) (stmtShape_block_of h)
  | .switch condition cases default => by
    simp only [resolveYulStatement, statement, if_true, resolveCases_true]
    exact (stmtShape_switch (exprShape_lowerExpr condition) (switchFrame_cases _ _)
      (switchFrame_default _ _) (switchShape_cases cases) (switchShape_default default)).weaken
  | .for init condition post body => by
    have hi := stmtShape_statements init
    have hb := stmtShape_statements body
    have hp := stmtShape_statements post
    simp only [resolveYulStatement, statement, if_true]
    have hri : YulBlock.isNextReachable
        ⟨true, (processStatements true init).2, (processStatements true init).1⟩ =
          (processStatements true init).2 := by
      have h := isNextReachable_eq init
      simpa only [asBlock, Bool.and_true] using h
    rw [hri]
    cases hn : (processStatements true init).2 with
    | false =>
      rw [hn] at hi
      exact fun R s h => ⟨(hi R s h).1, nofun⟩
    | true =>
      rw [hn] at hi
      refine stmtShape_processForBlock hi (exprShape_lowerCondition condition) ?_
        (stmtShape_block_of hb)
      simp only [Bool.true_and, Bool.and_true, asBlock]
      cases (processStatements true body).2 with
      | true => exact stmtShape_block_of hp
      | false =>
        have hid : lowerBlock ret ⟨false, (processStatements false post).2 && false,
            (processStatements false post).1⟩ = id := by
          funext s
          exact lowerStatements_unreachable ret post s
        rw [hid]
        exact stmtShape_id _
  | .leave | .break | .continue => by
    simp only [resolveYulStatement, statement, if_true]
    exact stmtShape_add _

theorem stmtShape_statements : ∀ ss : List Stmt,
    StmtShape (processStatements true ss).2 (lowerStatements ret (processStatements true ss).1)
  | [] => fun _ _ h => ⟨h.toShaped, fun _ => h⟩
  | stmt :: ss => by
    intro R s h
    obtain ⟨h1, ho1⟩ := stmtShape_statement stmt R s h
    have hrest := stmtShape_statements ss
    simp only [processStatements, lowerStatements, Bool.true_and]
    cases hn : (resolveYulStatement true stmt).2 with
    | true => exact hrest R _ (ho1 hn)
    | false =>
      rw [lowerStatements_unreachable, processStatements_false]
      exact ⟨h1, nofun⟩

theorem switchShape_cases : ∀ cases : List Case,
    SwitchShape (lowerCases ret (resolveCases true cases).1)
  | [] => fun _ _ _ h => h
  | ⟨c, body⟩ :: cases => by
    intro e R s h
    have hb := stmtShape_statements body
    have hrest := switchShape_cases cases
    simp only [resolveCases, lowerCases, Bool.true_or]
    exact hrest e R _ (shaped_switchBlock (stmtShape_block_of hb) h)

theorem switchShape_default : ∀ default : Option (List Stmt),
    SwitchShape (lowerDefault ret (resolveDefault true default).1)
  | none => fun _ _ _ h => h
  | some body => by
    intro e R s h
    have hb := stmtShape_statements body
    simp only [resolveDefault, lowerDefault]
    exact shaped_switchBlock (stmtShape_block_of hb) h

end

end Tree

end Yul

end Solang.Codegen
