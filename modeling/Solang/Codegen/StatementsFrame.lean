import Solang.Codegen.StatementsSource

/-!
# What the lowering leaves alone

`Grows s s'` says everything that the lowering of a part can do to the blocks:
it appends to the current block and fills blocks of its own. Every construct
keeps it, given that its parts do.
-/

namespace Solang.Codegen

open ControlFlowGraph

namespace Lower

/-- The instructions added to a block so far; none for one not created yet. -/
def code (s : Lower) (b : Nat) : List Instr := (s.cfg.block b).instr

/-- The current block exists. -/
def Valid (s : Lower) : Prop := s.current < s.newBlockNo

section Primitives

variable (s : Lower)

theorem code_of_le {s : Lower} {b : Nat} (h : s.newBlockNo ≤ b) : s.code b = [] := by
  rw [code, block_of_le h]

@[simp] theorem newBlockNo_newBasicBlock : s.newBasicBlock.newBlockNo = s.newBlockNo + 1 := by
  simp [newBasicBlock, newBlockNo]

@[simp] theorem current_newBasicBlock : s.newBasicBlock.current = s.current := rfl

@[simp] theorem code_newBasicBlock (b : Nat) : s.newBasicBlock.code b = s.code b := by
  simp only [code, block, newBasicBlock, List.getD_eq_getElem?_getD, List.getElem?_append]
  split
  · rfl
  · rename_i h
    rw [List.getElem?_eq_none (l := s.cfg.blocks) (by omega)]
    rcases hk : b - s.cfg.blocks.length with _ | k <;> simp

@[simp] theorem newBlockNo_setBasicBlock (p : Nat) :
    (s.setBasicBlock p).newBlockNo = s.newBlockNo := rfl

@[simp] theorem current_setBasicBlock (p : Nat) : (s.setBasicBlock p).current = p := rfl

@[simp] theorem code_setBasicBlock (p b : Nat) : (s.setBasicBlock p).code b = s.code b := rfl

theorem add_eq (i : Instr) : ∃ dirty, s.add i =
    { s with
      dirty := dirty
      cfg := ⟨s.cfg.blocks.set s.current
        { s.cfg.block s.current with instr := s.code s.current ++ [i] }⟩ } := by
  unfold add
  split <;> exact ⟨_, rfl⟩

@[simp] theorem newBlockNo_add (i : Instr) : (s.add i).newBlockNo = s.newBlockNo := by
  obtain ⟨d, h⟩ := s.add_eq i
  simp [h, newBlockNo]

@[simp] theorem current_add (i : Instr) : (s.add i).current = s.current := by
  obtain ⟨d, h⟩ := s.add_eq i
  simp [h]

@[simp] theorem loops_add (i : Instr) : (s.add i).loops = s.loops := by
  obtain ⟨d, h⟩ := s.add_eq i
  simp [h]

@[simp] theorem nextId_add (i : Instr) : (s.add i).nextId = s.nextId := by
  obtain ⟨d, h⟩ := s.add_eq i
  simp [h]

theorem code_add {s : Lower} (hs : s.Valid) (i : Instr) (b : Nat) :
    (s.add i).code b = if b = s.current then s.code b ++ [i] else s.code b := by
  obtain ⟨d, h⟩ := s.add_eq i
  rw [h, code]
  simp only
  rw [block_set hs]
  split
  · rename_i hb
    rw [hb]
  · rfl

@[simp] theorem newBlockNo_setPhis (b : Nat) (phis : List Nat) :
    (s.setPhis b phis).newBlockNo = s.newBlockNo := by
  unfold setPhis
  split <;> simp [newBlockNo]

@[simp] theorem current_setPhis (b : Nat) (phis : List Nat) :
    (s.setPhis b phis).current = s.current := by
  unfold setPhis
  split <;> rfl

@[simp] theorem loops_setPhis (b : Nat) (phis : List Nat) :
    (s.setPhis b phis).loops = s.loops := by
  unfold setPhis
  split <;> rfl

@[simp] theorem nextId_setPhis (b : Nat) (phis : List Nat) :
    (s.setPhis b phis).nextId = s.nextId := by
  unfold setPhis
  split <;> rfl

@[simp] theorem code_setPhis (b : Nat) (phis : List Nat) (e : Nat) :
    (s.setPhis b phis).code e = s.code e := by
  unfold setPhis
  split
  · rfl
  · rcases Nat.lt_or_ge b s.cfg.blocks.length with hb | hb
    · rw [code]
      simp only
      rw [block_set hb]
      split
      · rename_i he
        rw [he, code]
      · rfl
    · rw [List.set_eq_of_length_le hb]

@[simp] theorem newBlockNo_newDirtyTracker : s.newDirtyTracker.newBlockNo = s.newBlockNo := rfl
@[simp] theorem current_newDirtyTracker : s.newDirtyTracker.current = s.current := rfl
@[simp] theorem code_newDirtyTracker (b : Nat) : s.newDirtyTracker.code b = s.code b := rfl
@[simp] theorem loops_newDirtyTracker : s.newDirtyTracker.loops = s.loops := rfl

@[simp] theorem newBlockNo_popDirtyTracker : s.popDirtyTracker.newBlockNo = s.newBlockNo := rfl
@[simp] theorem current_popDirtyTracker : s.popDirtyTracker.current = s.current := rfl
@[simp] theorem code_popDirtyTracker (b : Nat) : s.popDirtyTracker.code b = s.code b := rfl
@[simp] theorem loops_popDirtyTracker : s.popDirtyTracker.loops = s.loops := rfl

@[simp] theorem newBlockNo_temp : s.temp.newBlockNo = s.newBlockNo := rfl
@[simp] theorem current_temp : s.temp.current = s.current := rfl
@[simp] theorem code_temp (b : Nat) : s.temp.code b = s.code b := rfl
@[simp] theorem loops_temp : s.temp.loops = s.loops := rfl

@[simp] theorem newBlockNo_enterScope (b c : Nat) : (s.enterScope b c).newBlockNo = s.newBlockNo :=
  rfl
@[simp] theorem current_enterScope (b c : Nat) : (s.enterScope b c).current = s.current := rfl
@[simp] theorem code_enterScope (b c e : Nat) : (s.enterScope b c).code e = s.code e := rfl
@[simp] theorem loops_enterScope (b c : Nat) : (s.enterScope b c).loops = ⟨b, c⟩ :: s.loops := rfl

@[simp] theorem newBlockNo_leaveScope : s.leaveScope.newBlockNo = s.newBlockNo := rfl
@[simp] theorem current_leaveScope : s.leaveScope.current = s.current := rfl
@[simp] theorem code_leaveScope (b : Nat) : s.leaveScope.code b = s.code b := rfl
@[simp] theorem loops_leaveScope : s.leaveScope.loops = s.loops.tail := rfl

@[simp] theorem nextId_newBasicBlock : s.newBasicBlock.nextId = s.nextId := rfl
@[simp] theorem nextId_setBasicBlock (p : Nat) : (s.setBasicBlock p).nextId = s.nextId := rfl
@[simp] theorem nextId_newDirtyTracker : s.newDirtyTracker.nextId = s.nextId := rfl
@[simp] theorem nextId_enterScope (b c : Nat) : (s.enterScope b c).nextId = s.nextId := rfl
@[simp] theorem nextId_leaveScope : s.leaveScope.nextId = s.nextId := rfl

@[simp] theorem loops_newBasicBlock : s.newBasicBlock.loops = s.loops := rfl
@[simp] theorem loops_setBasicBlock (p : Nat) : (s.setBasicBlock p).loops = s.loops := rfl

@[simp] theorem loops_addIf (c : Bool) (i : Instr) :
    (if c then s.add i else s).loops = s.loops := by
  cases c
  · rfl
  · exact loops_add s i

@[simp] theorem newBlockNo_addIf (c : Bool) (i : Instr) :
    (if c then s.add i else s).newBlockNo = s.newBlockNo := by
  cases c <;> simp

@[simp] theorem nextId_addIf (c : Bool) (i : Instr) :
    (if c then s.add i else s).nextId = s.nextId := by
  cases c
  · rfl
  · exact nextId_add s i

@[simp] theorem newBlockNo_setDirty (v : Nat) : (s.setDirty v).newBlockNo = s.newBlockNo := rfl
@[simp] theorem current_setDirty (v : Nat) : (s.setDirty v).current = s.current := rfl
@[simp] theorem code_setDirty (v b : Nat) : (s.setDirty v).code b = s.code b := rfl
@[simp] theorem loops_setDirty (v : Nat) : (s.setDirty v).loops = s.loops := rfl

end Primitives

/-- The lowering went on from `base` to `s`: it appended to the current block
of `base` and otherwise touched only blocks made since, of which there are all
below `n`. -/
structure GrowsTo (base : Lower) (n : Nat) (s : Lower) : Prop where
  le : base.newBlockNo ≤ n
  len : n ≤ s.newBlockNo
  current : s.current = base.current ∨ base.newBlockNo ≤ s.current
  valid : s.Valid
  here : base.code base.current <+: s.code base.current
  other : ∀ b < base.newBlockNo, b ≠ base.current → s.code b = base.code b
  ids : base.nextId ≤ s.nextId

def Grows (s s' : Lower) : Prop := GrowsTo s s.newBlockNo s'

theorem Grows.refl {s : Lower} (hs : s.Valid) : Grows s s :=
  ⟨le_rfl, le_rfl, .inl rfl, hs, List.prefix_rfl, fun _ _ _ => rfl, le_rfl⟩

namespace GrowsTo

variable {base s s' : Lower} {n : Nat}

theorem grows (h : GrowsTo base n s) : Grows base s :=
  { h with le := le_rfl, len := h.le.trans h.len }

theorem trans (h : GrowsTo base n s) (h' : Grows s s') : GrowsTo base n s' where
  le := h.le
  len := h.len.trans h'.len
  current := by
    rcases h'.current with hc | hc
    · rw [hc]
      exact h.current
    · exact .inr ((h.le.trans h.len).trans hc)
  valid := h'.valid
  here := by
    refine h.here.trans ?_
    by_cases hc : base.current = s.current
    · rw [hc]
      exact h'.here
    · rcases Nat.lt_or_ge base.current s.newBlockNo with hlt | hge
      · have hcode := h'.other _ hlt hc
        exact hcode ▸ List.prefix_rfl
      · rw [code_of_le hge]
        exact List.nil_prefix
  other b hb hne := by
    have hlt : b < s.newBlockNo := lt_of_lt_of_le hb (h.le.trans h.len)
    have hc : b ≠ s.current := by
      rintro rfl
      rcases h.current with hc | hc
      · exact hne hc
      · omega
    rw [h'.other b hlt hc, h.other b hb hne]
  ids := h.ids.trans h'.ids

theorem new (h : GrowsTo base n s) : GrowsTo base n s.newBasicBlock where
  le := h.le
  len := by
    rw [newBlockNo_newBasicBlock]
    exact h.len.trans (Nat.le_succ _)
  current := h.current
  valid := by
    have := h.valid
    simp only [Valid, newBlockNo_newBasicBlock, current_newBasicBlock] at this ⊢
    omega
  here := by
    rw [code_newBasicBlock]
    exact h.here
  other b hb hne := by
    rw [code_newBasicBlock]
    exact h.other b hb hne
  ids := h.ids

/-- A new block may count as one of those made since. -/
theorem newCounted (h : GrowsTo base s.newBlockNo s) :
    GrowsTo base s.newBasicBlock.newBlockNo s.newBasicBlock :=
  { h.new with
    le := h.le.trans (by simp)
    len := le_rfl }

theorem add {i : Instr} (h : GrowsTo base n s) : GrowsTo base n (s.add i) where
  le := h.le
  len := by
    rw [newBlockNo_add]
    exact h.len
  current := by
    rw [current_add]
    exact h.current
  valid := by
    have := h.valid
    simpa only [Valid, newBlockNo_add, current_add] using this
  here := by
    refine h.here.trans ?_
    rw [code_add h.valid]
    split
    · exact List.prefix_append _ _
    · exact List.prefix_rfl
  other b hb hne := by
    rw [code_add h.valid, if_neg, h.other b hb hne]
    rintro rfl
    rcases h.current with hc | hc
    · exact hne hc
    · omega
  ids := by
    rw [nextId_add]
    exact h.ids

theorem setBasicBlock {p : Nat} (h : GrowsTo base n s) (hp : base.newBlockNo ≤ p) (hn : p < n) :
    GrowsTo base n (s.setBasicBlock p) :=
  { h with
    current := .inr hp
    valid := lt_of_lt_of_le hn h.len }

/-- An update that keeps the blocks' instructions and the current block. -/
theorem congr (h : GrowsTo base n s) (hl : s'.newBlockNo = s.newBlockNo)
    (hc : s'.current = s.current) (hcode : ∀ b, s'.code b = s.code b)
    (hid : s.nextId ≤ s'.nextId) : GrowsTo base n s' where
  le := h.le
  len := by
    rw [hl]
    exact h.len
  current := by
    rw [hc]
    exact h.current
  valid := by
    have := h.valid
    rwa [Valid, hl, hc]
  here := by
    rw [hcode]
    exact h.here
  other b hb hne := by
    rw [hcode]
    exact h.other b hb hne
  ids := h.ids.trans hid

theorem setPhis {b : Nat} {phis : List Nat} (h : GrowsTo base n s) :
    GrowsTo base n (s.setPhis b phis) := h.congr (by simp) (by simp) (by simp) (by simp)

theorem newDirtyTracker (h : GrowsTo base n s) : GrowsTo base n s.newDirtyTracker :=
  h.congr rfl rfl (fun _ => rfl) le_rfl

theorem temp (h : GrowsTo base n s) : GrowsTo base n s.temp :=
  h.congr rfl rfl (fun _ => rfl) (Nat.le_succ _)

theorem popDirtyTracker (h : GrowsTo base n s) : GrowsTo base n s.popDirtyTracker :=
  h.congr rfl rfl (fun _ => rfl) le_rfl

theorem enterScope {b c : Nat} (h : GrowsTo base n s) : GrowsTo base n (s.enterScope b c) :=
  h.congr rfl rfl (fun _ => rfl) le_rfl

theorem leaveScope (h : GrowsTo base n s) : GrowsTo base n s.leaveScope :=
  h.congr rfl rfl (fun _ => rfl) le_rfl

theorem addIf {c : Bool} {i : Instr} (h : GrowsTo base n s) :
    GrowsTo base n (if c then s.add i else s) := by
  cases c
  · exact h
  · exact h.add

theorem ite {c : Bool} (h : GrowsTo base n s) (h' : GrowsTo base n s') :
    GrowsTo base n (if c then s else s') := by
  cases c
  · exact h'
  · exact h

/-- The lowering of a part. -/
theorem part {f : Lower → Lower} (hf : ∀ s, s.Valid → Grows s (f s)) (h : GrowsTo base n s) :
    GrowsTo base n (f s) := h.trans (hf s h.valid)

theorem expr {f : Lower → Expression × Lower} (hf : ∀ s, s.Valid → Grows s (f s).2)
    (h : GrowsTo base n s) : GrowsTo base n (f s).2 := h.trans (hf s h.valid)

end GrowsTo

theorem Grows.trans {s s' s'' : Lower} (h : Grows s s') (h' : Grows s' s'') : Grows s s'' :=
  GrowsTo.trans h h'

end Lower

open Lower

/-! ## Expressions -/

/-- The lowering of an expression keeps the frame and the loop scopes. -/
structure ExprFrame (f : Lower → Expression × Lower) : Prop where
  grows : ∀ s, s.Valid → Grows s (f s).2
  loops : ∀ s, (f s).2.loops = s.loops

/-- The lowering of a statement keeps the frame. -/
def StmtFrame (f : Lower → Lower) : Prop := ∀ s, s.Valid → Grows s (f s)

theorem grows_addAll {s : Lower} (hs : s.Valid) (is : List Instr) :
    Grows s (is.foldl (fun s i => s.add i) s) := by
  induction is generalizing s with
  | nil => exact .refl hs
  | cons i is ih =>
    have h : Grows s (s.add i) := GrowsTo.add (Grows.refl hs)
    exact h.trans (ih h.valid)

theorem loops_addAll (is : List Instr) (s : Lower) :
    (is.foldl (fun s i => s.add i) s).loops = s.loops := by
  induction is generalizing s with
  | nil => rfl
  | cons i is ih => rw [List.foldl_cons, ih, loops_add]

theorem setDirtyAll_eq (vs : List Nat) (s : Lower) :
    ∃ d, vs.foldl (fun s v => s.setDirty v) s = { s with dirty := d } := by
  induction vs generalizing s with
  | nil => exact ⟨_, rfl⟩
  | cons v vs ih =>
    obtain ⟨d, h⟩ := ih (s.setDirty v)
    exact ⟨d, h⟩

theorem exprFrame_basic (code : Code) : ExprFrame fun s => (code.value, s.addCode code) where
  grows s hs := by
    obtain ⟨d, h⟩ := setDirtyAll_eq code.dirty (code.instrs.foldl (fun s i => s.add i) s)
    simp only [addCode, h]
    exact (grows_addAll hs code.instrs).congr rfl rfl (fun _ => rfl) le_rfl
  loops s := by
    obtain ⟨d, h⟩ := setDirtyAll_eq code.dirty (code.instrs.foldl (fun s i => s.add i) s)
    simp only [addCode, h, loops_addAll]

theorem ExprFrame.comp {f g : Lower → Expression × Lower} (hf : ExprFrame f) (hg : ExprFrame g) :
    ExprFrame fun s => g (f s).2 where
  grows s hs := (hf.grows s hs).trans (hg.grows _ (hf.grows s hs).valid)
  loops s := by rw [hg.loops, hf.loops]

/-- The blocks a construct makes first. -/
theorem growsTo_new2 {s : Lower} (hs : s.Valid) :
    GrowsTo s (s.newBlockNo + 2) s.newBasicBlock.newBasicBlock := by
  simpa using (Grows.refl hs).newCounted.newCounted

theorem growsTo_new3 {s : Lower} (hs : s.Valid) :
    GrowsTo s (s.newBlockNo + 3) s.newBasicBlock.newBasicBlock.newBasicBlock := by
  simpa using (Grows.refl hs).newCounted.newCounted.newCounted

theorem growsTo_new4 {s : Lower} (hs : s.Valid) :
    GrowsTo s (s.newBlockNo + 4)
      s.newBasicBlock.newBasicBlock.newBasicBlock.newBasicBlock := by
  simpa using (Grows.refl hs).newCounted.newCounted.newCounted.newCounted

theorem exprFrame_shortCircuit {isOr : Bool} {left right : Lower → Expression × Lower}
    (hl : ExprFrame left) (hr : ExprFrame right) : ExprFrame (shortCircuit isOr left right) where
  grows s hs := by
    have h0 : Grows s (left s).2.temp.newDirtyTracker := (hl.grows s hs).temp.newDirtyTracker
    refine h0.trans (GrowsTo.grows (n := (left s).2.newBlockNo + 2) ?_)
    refine .popDirtyTracker (.setPhis (.setBasicBlock (.add (.add (.expr hr.grows
      (.setBasicBlock (.add (.add (growsTo_new2 h0.valid))) ?_ ?_)))) ?_ ?_))
    all_goals simp
  loops s := by
    simp [shortCircuit, hl.loops, hr.loops]

theorem exprFrame_conditionalOperator {ty : Ty} {cond left right : Lower → Expression × Lower}
    (hc : ExprFrame cond) (hl : ExprFrame left) (hr : ExprFrame right) :
    ExprFrame (conditionalOperator ty cond left right) where
  grows s hs := by
    have h0 : Grows s (cond s).2.temp.newDirtyTracker := (hc.grows s hs).temp.newDirtyTracker
    refine h0.trans (GrowsTo.grows (n := (cond s).2.newBlockNo + 3) ?_)
    refine .popDirtyTracker (.setPhis (.setBasicBlock (.add (.add (.expr hr.grows
      (.setBasicBlock (.add (.add (.expr hl.grows
        (.setBasicBlock (.add (growsTo_new3 h0.valid)) ?_ ?_)))) ?_ ?_)))) ?_ ?_))
    all_goals simp <;> omega
  loops s := by
    simp [conditionalOperator, hc.loops, hl.loops, hr.loops]

theorem exprFrame_lowerExpr (e : SrcExpr) : ExprFrame (lowerExpr e) := by
  induction e with
  | basic code => exact exprFrame_basic code
  | operands first second h1 h2 => exact h1.comp h2
  | and left right hl hr | or left right hl hr => exact exprFrame_shortCircuit hl hr
  | conditionalOperator ty cond left right hc hl hr =>
    exact exprFrame_conditionalOperator hc hl hr

theorem stmtFrame_lowerEffect (e : Effect) : StmtFrame (lowerEffect e) := by
  intro s hs
  have h := (exprFrame_lowerExpr e.expr).grows s hs
  unfold lowerEffect
  cases e.noreturn with
  | none => exact h
  | some i => exact h.add

theorem returns_eq {e : SrcExpr} (h : ∀ ty c l r, e ≠ .conditionalOperator ty c l r) (s : Lower) :
    returns e s = (lowerExpr e s).2.add (.return [(lowerExpr e s).1]) := by
  cases e with
  | conditionalOperator ty c l r => exact absurd rfl (h ty c l r)
  | _ => rfl

theorem stmtFrame_returns (e : SrcExpr) : StmtFrame (returns e) := by
  induction e with
  | conditionalOperator ty cond left right _ hl hr =>
    intro s hs
    have h0 := (exprFrame_lowerExpr cond).grows s hs
    simp only [returns]
    refine h0.trans (GrowsTo.grows (n := (lowerExpr cond s).2.newBlockNo + 2) ?_)
    refine .part hr (.setBasicBlock (.part hl (.setBasicBlock (.newDirtyTracker (.add
      (growsTo_new2 h0.valid))) ?_ ?_)) ?_ ?_)
    all_goals simp
  | _ =>
    intro s hs
    rw [returns_eq (by simp)]
    exact ((exprFrame_lowerExpr _).grows s hs).add

/-! ## Statements -/

section Constructs

variable {cond : Lower → Expression × Lower} {init next body other : Lower → Lower}

variable {r r' : Bool}

theorem stmtFrame_ifThen (hc : ExprFrame cond) (hb : StmtFrame body) :
    StmtFrame (ifThen cond body r) := by
  intro s hs
  have h0 := hc.grows s hs
  refine h0.trans (GrowsTo.grows (n := (cond s).2.newBlockNo + 2) ?_)
  refine .setBasicBlock (.popDirtyTracker (.setPhis (.addIf (.part hb (.newDirtyTracker
    (.setBasicBlock (.add (growsTo_new2 h0.valid)) ?_ ?_)))))) ?_ ?_
  all_goals simp

theorem stmtFrame_ifThenElse (hc : ExprFrame cond) (hb : StmtFrame body) (ho : StmtFrame other) :
    StmtFrame (ifThenElse cond body other r r') := by
  intro s hs
  have h0 := hc.grows s hs
  refine h0.trans (GrowsTo.grows (n := (cond s).2.newBlockNo + 3) ?_)
  refine .setBasicBlock (.popDirtyTracker (.setPhis (.addIf (.part ho (.setBasicBlock
    (.addIf (.part hb (.newDirtyTracker (.setBasicBlock (.add (growsTo_new3 h0.valid)) ?_ ?_))))
    ?_ ?_))))) ?_ ?_
  all_goals simp <;> omega

theorem stmtFrame_doWhileLoop (hb : StmtFrame body) (hc : ExprFrame cond) :
    StmtFrame (doWhileLoop body r cond) := by
  intro s hs
  refine GrowsTo.grows (n := s.newBlockNo + 3) ?_
  refine .setBasicBlock (.setPhis (.setPhis (.setPhis (.popDirtyTracker (.add (.expr hc.grows
    (.setBasicBlock (.addIf (.part hb (.enterScope (.newDirtyTracker (.setBasicBlock
      (.add (growsTo_new3 hs)) ?_ ?_))))) ?_ ?_))))))) ?_ ?_
  all_goals simp <;> omega

theorem stmtFrame_whileLoop (hc : ExprFrame cond) (hb : StmtFrame body) :
    StmtFrame (whileLoop cond body r) := by
  intro s hs
  refine GrowsTo.grows (n := s.newBlockNo + 3) ?_
  refine .setBasicBlock (.setPhis (.setPhis (.popDirtyTracker (.leaveScope (.addIf (.part hb
    (.enterScope (.newDirtyTracker (.setBasicBlock (.add (.expr hc.grows
      (.setBasicBlock (.add (growsTo_new3 hs)) ?_ ?_))) ?_ ?_))))))))) ?_ ?_
  all_goals simp <;> omega

theorem Lower.GrowsTo.forNext {base s : Lower} {n p q : Nat} {next : Option (Lower → Lower)} {r : Bool}
    (hn : ∀ f ∈ next, StmtFrame f) (h : GrowsTo base n s) (hp : base.newBlockNo ≤ p) (hq : p < n) :
    GrowsTo base n (forNext next r p q s) := by
  have h' := h.setBasicBlock hp hq
  refine .addIf ?_
  cases next with
  | none => exact h'
  | some f => exact h'.part (hn f rfl)

theorem stmtFrame_forLoop {next : Option (Lower → Lower)} (hi : StmtFrame init)
    (hn : ∀ f ∈ next, StmtFrame f) (hb : StmtFrame body) :
    StmtFrame (forLoop init next r body r') := by
  intro s hs
  refine GrowsTo.grows (n := s.newBlockNo + 3) ?_
  refine .setBasicBlock (.setPhis (.setPhis (.setPhis (.popDirtyTracker (.ite (.forNext hn
    (.leaveScope (.addIf (.part hb (.newDirtyTracker (.enterScope (.setBasicBlock
      (.add (.part hi (growsTo_new3 hs))) ?_ ?_)))))) ?_ ?_) (.leaveScope (.addIf (.part hb
      (.newDirtyTracker (.enterScope (.setBasicBlock
      (.add (.part hi (growsTo_new3 hs))) ?_ ?_))))))))))) ?_ ?_
  all_goals simp <;> omega

theorem stmtFrame_forLoopCond {next : Option (Lower → Lower)} (hi : StmtFrame init)
    (hc : ExprFrame cond) (hn : ∀ f ∈ next, StmtFrame f) (hb : StmtFrame body) :
    StmtFrame (forLoopCond init cond next r body r') := by
  intro s hs
  refine GrowsTo.grows (n := s.newBlockNo + 4) ?_
  refine .setPhis (.setPhis (.setPhis (.popDirtyTracker (.setBasicBlock (.forNext hn
    (.leaveScope (.addIf (.part hb (.newDirtyTracker (.enterScope (.setBasicBlock
      (.add (.expr hc.grows (.setBasicBlock (.add (.part hi (growsTo_new4 hs))) ?_ ?_)))
      ?_ ?_)))))) ?_ ?_) ?_ ?_))))
  all_goals simp <;> omega

end Constructs

mutual

theorem stmtFrame_statement : ∀ stmt : Stmt, StmtFrame (statement stmt)
  | .block stmts => stmtFrame_statements stmts
  | .expression effect => stmtFrame_lowerEffect effect
  | .return none => fun s hs => by
    simp only [statement]
    exact .add (Grows.refl hs)
  | .return (some expr) => stmtFrame_returns expr
  | .break | .continue => fun s hs => by
    simp only [statement]
    exact .add (Grows.refl hs)
  | .ifThen cond thenStmt =>
    stmtFrame_ifThen (exprFrame_lowerExpr cond) (stmtFrame_statement thenStmt)
  | .ifThenElse cond thenStmt elseStmt =>
    stmtFrame_ifThenElse (exprFrame_lowerExpr cond) (stmtFrame_statement thenStmt)
      (stmtFrame_statement elseStmt)
  | .doWhile body cond => stmtFrame_doWhileLoop (stmtFrame_statement body) (exprFrame_lowerExpr cond)
  | .while cond body => stmtFrame_whileLoop (exprFrame_lowerExpr cond) (stmtFrame_statement body)
  | .for init none next body => by
    refine stmtFrame_forLoop (stmtFrame_optStatement init) ?_ (stmtFrame_optStatement body)
    intro f hf
    obtain ⟨e, -, rfl⟩ := Option.map_eq_some_iff.mp hf
    exact stmtFrame_lowerEffect e
  | .for init (some cond) next body => by
    refine stmtFrame_forLoopCond (stmtFrame_optStatement init) (exprFrame_lowerExpr cond) ?_
      (stmtFrame_optStatement body)
    intro f hf
    obtain ⟨e, -, rfl⟩ := Option.map_eq_some_iff.mp hf
    exact stmtFrame_lowerEffect e

theorem stmtFrame_statements : ∀ stmts : List Stmt, StmtFrame (statements stmts)
  | [] => fun _ hs => Grows.refl hs
  | stmt :: stmts => by
    intro s hs
    have h := stmtFrame_statement stmt s hs
    simp only [statements]
    split
    · exact h.trans (stmtFrame_statements stmts _ h.valid)
    · exact h

theorem stmtFrame_optStatement : ∀ stmt : Option Stmt, StmtFrame (optStatement stmt)
  | none => fun _ hs => Grows.refl hs
  | some stmt => stmtFrame_statement stmt

end

end Solang.Codegen
