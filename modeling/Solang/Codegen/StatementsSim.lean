import Solang.Codegen.StatementsFrame

/-!
# The lowered code runs as the source does

`In F s`: the code added so far is in the finished graph `F`. From the place
where the lowering of a statement started, the run of `F` makes the visits of
the statement and arrives where the statement was left: where its lowering
stopped, at the blocks for `break` and `continue`, or at the end of the run.
-/

namespace Solang.Codegen

open Lower Runs

namespace Lower

def In (F : ControlFlowGraph) (s : Lower) : Prop := ∀ b, s.code b <+: (F.block b).instr

/-- The place after the last instruction of the current block. -/
def here (s : Lower) : Position := .at s.current (s.code s.current).length

variable {F : ControlFlowGraph} {s s' : Lower}

theorem Valid.add {i : Instr} (hs : s.Valid) : (s.add i).Valid := by
  simpa [Valid] using hs

theorem Valid.new (hs : s.Valid) : s.newBasicBlock.Valid := by
  simp only [Valid, newBlockNo_newBasicBlock, current_newBasicBlock] at hs ⊢
  omega

theorem In.of_grows (h : In F s') (hg : Grows s s') : In F s := by
  intro b
  rcases Nat.lt_or_ge b s.newBlockNo with hb | hb
  · by_cases hc : b = s.current
    · rw [hc]
      exact hg.here.trans (h _)
    · rw [← hg.other b hb hc]
      exact h b
  · rw [code_of_le hb]
    exact List.nil_prefix

theorem In.of_add {i : Instr} (hs : s.Valid) (h : In F (s.add i)) : In F s :=
  h.of_grows (GrowsTo.add (Grows.refl hs))

theorem In.congr (h : In F s') (hc : ∀ b, s'.code b = s.code b) : In F s := by
  intro b
  rw [← hc]
  exact h b

theorem In.of_setPhis {b : Nat} {phis : List Nat} (h : In F (s.setPhis b phis)) : In F s :=
  h.congr (by simp)

theorem In.of_addIf {c : Bool} {i : Instr} (hs : s.Valid)
    (h : In F (if c then s.add i else s)) : In F s := by
  cases c
  · exact h
  · exact h.of_add hs

theorem here_congr {t : Lower} (hc : t.current = s.current) (hcode : ∀ b, t.code b = s.code b) :
    t.here = s.here := by
  rw [here, here, hc, hcode]

/-- A block made for later: it is empty and not the current one. -/
structure Reserved (p : Nat) (s : Lower) : Prop where
  lt : p < s.newBlockNo
  ne : p ≠ s.current
  empty : s.code p = []

namespace Reserved

variable {p : Nat}

theorem grows (h : Reserved p s) (hg : Grows s s') : Reserved p s' where
  lt := lt_of_lt_of_le h.lt hg.len
  ne := by
    rcases hg.current with hc | hc
    · rw [hc]
      exact h.ne
    · have := h.lt
      omega
  empty := by rw [hg.other p h.lt h.ne, h.empty]

theorem add {i : Instr} (h : Reserved p s) (hs : s.Valid) : Reserved p (s.add i) :=
  h.grows (GrowsTo.add (Grows.refl hs))

theorem addIf {c : Bool} {i : Instr} (h : Reserved p s) (hs : s.Valid) :
    Reserved p (if c then s.add i else s) := by
  cases c
  · exact h
  · exact h.add hs

theorem setBasicBlock {q : Nat} (h : Reserved p s) (hq : p ≠ q) : Reserved p (s.setBasicBlock q) :=
  ⟨h.lt, hq, h.empty⟩

theorem congr (h : Reserved p s) (hl : s'.newBlockNo = s.newBlockNo)
    (hc : s'.current = s.current) (hcode : ∀ b, s'.code b = s.code b) : Reserved p s' :=
  ⟨by rw [hl]; exact h.lt, by rw [hc]; exact h.ne, by rw [hcode]; exact h.empty⟩

theorem newDirtyTracker (h : Reserved p s) : Reserved p s.newDirtyTracker :=
  h.congr rfl rfl fun _ => rfl

theorem enterScope {b c : Nat} (h : Reserved p s) : Reserved p (s.enterScope b c) :=
  h.congr rfl rfl fun _ => rfl

theorem leaveScope (h : Reserved p s) : Reserved p s.leaveScope := h.congr rfl rfl fun _ => rfl

/-- A reserved block is entered at its start. -/
theorem here_setBasicBlock (h : Reserved p s) : (s.setBasicBlock p).here = .at p 0 := by
  simp [here, h.empty]

end Reserved

theorem reserved_new (hs : s.Valid) : Reserved s.newBlockNo s.newBasicBlock where
  lt := by simp
  ne := by
    have : s.current < s.newBlockNo := hs
    simp only [current_newBasicBlock]
    omega
  empty := by
    rw [code_newBasicBlock]
    exact code_of_le le_rfl

theorem Reserved.new {p : Nat} (h : Reserved p s) : Reserved p s.newBasicBlock where
  lt := by
    have := h.lt
    simp only [newBlockNo_newBasicBlock]
    omega
  ne := h.ne
  empty := by
    rw [code_newBasicBlock]
    exact h.empty

end Lower

/-! ## Single instructions -/

section Step

variable {F : ControlFlowGraph} {o : Oracle} {s : Lower} {t : Trace}

variable {i : Instr} {e : Expression}

theorem instr_here (hs : s.Valid) (h : In F (s.add i)) :
    (F.block s.current).instr[(s.code s.current).length]? = some i := by
  have hp := h s.current
  rw [code_add hs, if_pos rfl] at hp
  obtain ⟨rest, hr⟩ := hp
  rw [← hr]
  simp

theorem here_add (hs : s.Valid) :
    (s.add i).here = .at s.current ((s.code s.current).length + 1) := by
  simp [here, code_add hs]

theorem reach_add (hi : i.targets = none) (hs : s.Valid) (h : In F (s.add i)) :
    Reach (step F o) 1 (s.here, t) ((s.add i).here, o.visit i t) := by
  refine .single ?_
  rw [here_add hs, here, step, instr_here hs h]
  cases i <;> first | rfl | simp_all [Instr.targets]

/-- An assignment to a temporary is not observed. -/
theorem reach_temp {pos : Nat} (hp : o.lim ≤ pos) (hs : s.Valid) (h : In F (s.add (.set pos e))) :
    Reach (step F o) 1 (s.here, t) ((s.add (.set pos e)).here, t) := by
  have hr := reach_add (t := t) (o := o) rfl hs h
  have hv : o.visible (.set pos e) = false := by simp [Oracle.visible, hp]
  rwa [Oracle.visit, hv] at hr

theorem reach_branch {b : Nat} (hs : s.Valid) (h : In F (s.add (.branch b))) :
    Reach (step F o) 1 (s.here, t) (.at b 0, t) := by
  refine .single ?_
  rw [here, step, instr_here hs h]

theorem reach_branchCond {b c : Nat} (hs : s.Valid) (h : In F (s.add (.branchCond e b c))) :
    Reach (step F o) 1 (s.here, t) (.at (if o.choose t then b else c) 0, o.decided t) := by
  refine .single ?_
  rw [here, step, instr_here hs h]

theorem reach_final (hi : i.targets = some []) (hs : s.Valid) (h : In F (s.add i)) :
    Reach (step F o) 1 (s.here, t) (.done, t ++ [endEvent i]) := by
  refine .single ?_
  rw [here, step, instr_here hs h]
  cases i <;> first | rfl | simp_all [Instr.targets]

theorem reach_code {is : List Instr} (hi : ∀ i ∈ is, i.targets = none) (hs : s.Valid)
    (h : In F (is.foldl (fun s i => s.add i) s)) :
    Reach (step F o) 0 (s.here, t)
      ((is.foldl (fun s i => s.add i) s).here, o.visitAll is t) := by
  induction is generalizing s t with
  | nil => exact .refl _ _
  | cons i is ih =>
    have hv : (s.add i).Valid := (GrowsTo.add (Grows.refl hs)).valid
    have hin : In F (s.add i) := h.of_grows (grows_addAll hv is)
    exact (reach_add (hi i (.head _)) hs hin).seq (ih (fun j hj => hi j (.tail _ hj)) hv h)

end Step

/-! ## Expressions -/

section Expressions

variable {F : ControlFlowGraph} {o : Oracle}

/-- The code of the expression makes the visits `ev`. -/
def ExprSim (F : ControlFlowGraph) (o : Oracle) (f : Lower → Expression × Lower)
    (ev : Trace → Trace) : Prop :=
  ∀ s t, s.Valid → o.lim ≤ s.nextId → In F (f s).2 →
    Reach (step F o) 0 (s.here, t) ((f s).2.here, ev t)

theorem exprSim_basic (code : Code) :
    ExprSim F o (lowerExpr (.basic code)) (eval o (.basic code)) := by
  intro s t hs _ h
  obtain ⟨d, hd⟩ := setDirtyAll_eq code.dirty (code.instrs.foldl (fun s i => s.add i) s)
  simp only [lowerExpr, addCode, hd] at h ⊢
  exact reach_code code.straight hs h

theorem exprSim_shortCircuit {isOr : Bool} {left right : Lower → Expression × Lower}
    {evl evr : Trace → Trace} (fl : ExprFrame left) (fr : ExprFrame right)
    (hl : ExprSim F o left evl) (hr : ExprSim F o right evr) :
    ExprSim F o (shortCircuit isOr left right) fun t =>
      if o.choose (evl t) = isOr then o.decided (evl t) else evr (o.decided (evl t)) := by
  intro s t hs hid hin
  -- the states of the lowering, from the left operand to the jump to the end
  let s1 := (left s).2.temp.newDirtyTracker
  let rightSide := s1.newBlockNo
  let endBlock := s1.newBasicBlock.newBlockNo
  let s2 := s1.newBasicBlock.newBasicBlock
  let s3 := s2.add (.set (left s).2.nextId (.boolLiteral isOr))
  let s4 := s3.add (if isOr then .branchCond (left s).1 endBlock rightSide
    else .branchCond (left s).1 rightSide endBlock)
  let s5 := s4.setBasicBlock rightSide
  let s6 := (right s5).2
  let s7 := s6.add (.set (left s).2.nextId (right s5).1)
  let s8 := s7.add (.branch endBlock)
  let s9 := s8.setBasicBlock endBlock
  have g1 := fl.grows s hs
  have hid1 : o.lim ≤ (left s).2.nextId := hid.trans g1.ids
  have v1 : s1.Valid := g1.valid
  have v2 : s2.Valid := v1.new.new
  have v3 : s3.Valid := v2.add
  have hne : endBlock ≠ rightSide := by simp [endBlock, rightSide]
  have r4 : Reserved rightSide s4 := ((reserved_new v1).new.add v2).add v3
  have v5 : s5.Valid := r4.lt
  have g5 : Grows s5 s6 := fr.grows s5 v5
  have r5 : Reserved endBlock s5 := (((reserved_new v1.new).add v2).add v3).setBasicBlock hne
  have r8 : Reserved endBlock s8 := ((r5.grows g5).add g5.valid).add g5.valid.add
  have hin9 : In F (s9.setPhis endBlock s9.topDirty) := hin
  have hin8 : In F s8 := hin9.of_setPhis
  have hin7 : In F s7 := hin8.of_add g5.valid.add
  have hin5 : In F s5 := (hin7.of_add g5.valid).of_grows g5
  have hin4 : In F s4 := hin5
  have hin3 : In F s3 := hin4.of_add v3
  have hin1 : In F (left s).2 := (hin3.of_add v2).congr (by simp [s2, s1])
  have hid5 : o.lim ≤ s5.nextId := by
    simp only [s5, s4, s3, s2, setBasicBlock, nextId_add]
    exact hid1.trans (Nat.le_succ _)
  -- the run up to the branch
  have hend : (shortCircuit isOr left right s).2.here = .at endBlock 0 := by
    rw [← r8.here_setBasicBlock]
    exact here_congr (t := (s9.setPhis endBlock s9.topDirty).popDirtyTracker)
      (by simp [s9]) (by simp [s9])
  have h2 : s2.here = (left s).2.here := here_congr (by simp [s2, s1]) (by simp [s2, s1])
  have hleft : Reach (step F o) 0 (s.here, t) (s3.here, evl t) := by
    have h := hl s t hs hid hin1
    rw [← h2] at h
    exact h.seq (reach_temp hid1 v2 hin3)
  have hright : Reach (step F o) 0 (.at rightSide 0, o.decided (evl t))
      (.at endBlock 0, evr (o.decided (evl t))) := by
    rw [← r4.here_setBasicBlock]
    have h := hr s5 (o.decided (evl t)) v5 hid5 (hin7.of_add g5.valid)
    exact h.seq ((reach_temp hid1 g5.valid hin7).seq (reach_branch g5.valid.add hin8))
  rw [hend]
  dsimp only
  cases isOr with
  | true =>
    have hb := reach_branchCond (t := evl t) (o := o) v3 hin4
    by_cases hc : o.choose (evl t) = true
    · rw [if_pos hc] at hb ⊢
      exact hleft.seq hb
    · rw [if_neg hc] at hb ⊢
      exact hleft.seq (hb.seq hright)
  | false =>
    have hb := reach_branchCond (t := evl t) (o := o) v3 hin4
    by_cases hc : o.choose (evl t) = true
    · rw [if_pos hc] at hb
      rw [if_neg (by simp [hc])]
      exact hleft.seq (hb.seq hright)
    · rw [if_neg hc] at hb
      rw [if_pos (by simpa using hc)]
      exact hleft.seq hb

theorem exprSim_conditionalOperator {ty : Ty} {cond left right : Lower → Expression × Lower}
    {evc evl evr : Trace → Trace} (fc : ExprFrame cond) (fl : ExprFrame left)
    (fr : ExprFrame right) (hc : ExprSim F o cond evc) (hl : ExprSim F o left evl)
    (hr : ExprSim F o right evr) :
    ExprSim F o (conditionalOperator ty cond left right) fun t =>
      if o.choose (evc t) then evl (o.decided (evc t)) else evr (o.decided (evc t)) := by
  intro s t hs hid hin
  let s1 := (cond s).2.temp.newDirtyTracker
  let leftBlock := s1.newBlockNo
  let rightBlock := s1.newBasicBlock.newBlockNo
  let doneBlock := s1.newBasicBlock.newBasicBlock.newBlockNo
  let s2 := s1.newBasicBlock.newBasicBlock.newBasicBlock
  let s3 := s2.add (.branchCond (cond s).1 leftBlock rightBlock)
  let s4 := s3.setBasicBlock leftBlock
  let s5 := (left s4).2
  let s6 := s5.add (.set (cond s).2.nextId (left s4).1)
  let s7 := s6.add (.branch doneBlock)
  let s8 := s7.setBasicBlock rightBlock
  let s9 := (right s8).2
  let s10 := s9.add (.set (cond s).2.nextId (right s8).1)
  let s11 := s10.add (.branch doneBlock)
  let s12 := s11.setBasicBlock doneBlock
  have g1 := fc.grows s hs
  have hid1 : o.lim ≤ (cond s).2.nextId := hid.trans g1.ids
  have v1 : s1.Valid := g1.valid
  have v2 : s2.Valid := v1.new.new.new
  have hlr : rightBlock ≠ leftBlock := by simp [rightBlock, leftBlock]
  have hdl : doneBlock ≠ leftBlock := by
    simp only [doneBlock, leftBlock, newBlockNo_newBasicBlock]
    omega
  have hdr : doneBlock ≠ rightBlock := by simp [doneBlock, rightBlock]
  have rl : Reserved leftBlock s3 := (reserved_new v1).new.new.add v2
  have v4 : s4.Valid := rl.lt
  have g4 : Grows s4 s5 := fl.grows s4 v4
  have rr : Reserved rightBlock s7 :=
    ((((reserved_new v1.new).new.add v2).setBasicBlock hlr).grows g4 |>.add g4.valid).add g4.valid.add
  have v8 : s8.Valid := rr.lt
  have g8 : Grows s8 s9 := fr.grows s8 v8
  have rd7 : Reserved doneBlock s7 :=
    ((((reserved_new v1.new.new).add v2).setBasicBlock hdl).grows g4 |>.add g4.valid).add g4.valid.add
  have rd : Reserved doneBlock s11 :=
    (((rd7.setBasicBlock hdr).grows g8).add g8.valid).add g8.valid.add
  have hin12 : In F (s12.setPhis doneBlock s12.topDirty) := hin
  have hin11 : In F s11 := hin12.of_setPhis
  have hin10 : In F s10 := hin11.of_add g8.valid.add
  have hin9 : In F s9 := hin10.of_add g8.valid
  have hin8 : In F s8 := hin9.of_grows g8
  have hin7 : In F s7 := hin8
  have hin6 : In F s6 := hin7.of_add g4.valid.add
  have hin5 : In F s5 := hin6.of_add g4.valid
  have hin4 : In F s4 := hin5.of_grows g4
  have hin3 : In F s3 := hin4
  have hin1 : In F (cond s).2 := (hin3.of_add v2).congr (by simp [s2, s1])
  have hid4 : o.lim ≤ s4.nextId := by
    simp only [s4, s3, s2, setBasicBlock, nextId_add]
    exact hid1.trans (Nat.le_succ _)
  have hid8 : o.lim ≤ s8.nextId := by
    simp only [s8, s7, s6, setBasicBlock, nextId_add]
    exact hid4.trans g4.ids
  have hend : (conditionalOperator ty cond left right s).2.here = .at doneBlock 0 := by
    rw [← rd.here_setBasicBlock]
    exact here_congr (t := (s12.setPhis doneBlock s12.topDirty).popDirtyTracker)
      (by simp [s12]) (by simp [s12])
  have h2 : s2.here = (cond s).2.here := here_congr (by simp [s2, s1]) (by simp [s2, s1])
  have hcond := hc s t hs hid hin1
  rw [← h2] at hcond
  have hbranch := hcond.seq (reach_branchCond v2 hin3)
  rw [hend]
  dsimp only
  split
  · rename_i hch
    rw [if_pos hch, ← rl.here_setBasicBlock] at hbranch
    have h := hl s4 (o.decided (evc t)) v4 hid4 hin5
    exact hbranch.seq (h.seq ((reach_temp hid1 g4.valid hin6).seq (reach_branch g4.valid.add hin7)))
  · rename_i hch
    rw [if_neg hch, ← rr.here_setBasicBlock] at hbranch
    have h := hr s8 (o.decided (evc t)) v8 hid8 hin9
    exact hbranch.seq (h.seq
      ((reach_temp hid1 g8.valid hin10).seq (reach_branch g8.valid.add hin11)))

theorem exprSim_lowerExpr (e : SrcExpr) : ExprSim F o (lowerExpr e) (eval o e) := by
  induction e with
  | basic code => exact exprSim_basic code
  | operands first second h1 h2 =>
    intro s t hs hid hin
    have g1 := (exprFrame_lowerExpr first).grows s hs
    have g2 := (exprFrame_lowerExpr second).grows _ g1.valid
    exact (h1 s t hs hid (In.of_grows hin g2)).seq (h2 _ _ g1.valid (hid.trans g1.ids) hin)
  | and left right hl hr =>
    intro s t hs hid hin
    have h := exprSim_shortCircuit (exprFrame_lowerExpr left) (exprFrame_lowerExpr right) hl hr
      s t hs hid hin
    simp only [eval, lowerExpr]
    cases hch : o.choose (eval o left t) <;> simpa [hch] using h
  | or left right hl hr =>
    exact exprSim_shortCircuit (exprFrame_lowerExpr left) (exprFrame_lowerExpr right) hl hr
  | conditionalOperator ty cond left right hc hl hr =>
    exact exprSim_conditionalOperator (exprFrame_lowerExpr cond) (exprFrame_lowerExpr left)
      (exprFrame_lowerExpr right) hc hl hr

end Expressions

end Solang.Codegen
