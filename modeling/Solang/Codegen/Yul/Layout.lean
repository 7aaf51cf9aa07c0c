import Solang.Codegen.Yul.Shape

/-!
# Where the parts of a construct stand

The finished graph `F` contains the code of a construct: the lowering of each part
starts in a block of its own, and the jumps between them stand where the parts end.
-/

namespace Solang.Codegen.Yul

open Lower

variable {F : ControlFlowGraph}

/-- The instruction stands at this place. -/
def At (F : ControlFlowGraph) (p : Position) (i : Instr) : Prop :=
  ∃ b k, p = .at b k ∧ (F.block b).instr[k]? = some i

variable {s : Lower} {r : Bool} {cond : Lower → Expression × Lower} {body : Lower → Lower}

theorem at_here {i : Instr} (hs : s.Valid) (h : In F (s.add i)) : At F s.here i :=
  ⟨_, _, rfl, instr_here hs h⟩

theorem at_here_addIf {i : Instr} (hs : s.Valid) (h : In F (if r then s.add i else s))
    (hr : r = true) : At F s.here i := by
  subst hr
  exact at_here hs h

/-- The lowering of a part starts in the state `s`, in the block `b`. -/
structure Starts (base s : Lower) (b : Nat) (loops : List LoopScope) : Prop where
  valid : s.Valid
  here : s.here = .at b 0
  ids : base.nextId ≤ s.nextId
  loops : s.loops = loops

/-- A block that was left empty since `base` is empty in the end. -/
def Keeps (base s final : Lower) (f : Lower → Lower) : Prop :=
  ∀ p, s.newBlockNo ≤ p → Reserved p (f s) → base.newBlockNo ≤ p ∧ Reserved p final

/-- A part that starts in the block `b` and, if it gets to its end, goes on with `next`. -/
structure Part (F : ControlFlowGraph) (base final : Lower) (f : Lower → Lower) (r : Bool)
    (loops : List LoopScope) (b next : Nat) (s : Lower) : Prop where
  starts : Starts base s b loops
  inside : In F (f s)
  jump : r = true → At F (f s).here (.branch next)
  keeps : Keeps base s final f

/-! ## `if` -/

structure IfLayout (F : ControlFlowGraph) (cond : Lower → Expression × Lower)
    (body : Lower → Lower) (r : Bool) (s : Lower) (thenBlock endif : Nat) : Prop where
  inCond : In F (cond s).2
  branch : At F (cond s).2.here (.branchCond (cond s).1 thenBlock endif)
  thenPart : ∃ s', Part F s (ifThen cond body r s) body r s.loops thenBlock endif s'
  ends : (ifThen cond body r s).here = .at endif 0

theorem ifLayout (hc : ExprFrame cond) (hb : Framed body) (hs : s.Valid)
    (hin : In F (ifThen cond body r s)) :
    ∃ thenBlock endif, IfLayout F cond body r s thenBlock endif := by
  let s1 := (cond s).2
  let thenBlock := s1.newBlockNo
  let endif := s1.newBasicBlock.newBlockNo
  let s2 := s1.newBasicBlock.newBasicBlock
  let s3 := s2.add (.branchCond (cond s).1 thenBlock endif)
  let s4 := (s3.setBasicBlock thenBlock).newDirtyTracker
  let s5 := body s4
  let s6 := if r then s5.add (.branch endif) else s5
  have g1 : Grows s s1 := hc.grows s hs
  have v2 : s2.Valid := g1.valid.new.new
  have hne : endif ≠ thenBlock := by simp [endif, thenBlock]
  have rt : Reserved thenBlock s3 := (reserved_new g1.valid).new.add v2
  have v4 : s4.Valid := rt.lt
  have g4 : Grows s4 s5 := hb.grows s4 v4
  have re4 : Reserved endif s4 :=
    (((reserved_new g1.valid.new).add v2).setBasicBlock hne).newDirtyTracker
  have re : Reserved endif s6 := (re4.grows g4).addIf g4.valid
  have hin6 : In F (s6.setPhis endif s6.topDirty) := hin
  have hin6 : In F s6 := hin6.of_setPhis
  have hin5 : In F s5 := hin6.of_addIf g4.valid
  have hin3 : In F s3 := (hin5.of_grows g4 : In F s4)
  have h2 : s2.here = s1.here := here_congr (by simp [s2]) (by simp [s2])
  have hkeeps : Keeps s s4 (ifThen cond body r s) body := by
    intro p hp hres
    have hlen := g1.len
    have h4 : s4.newBlockNo = s1.newBlockNo + 2 := by simp [s4, s3, s2]
    have hne : p ≠ endif := by
      simp only [endif, newBlockNo_newBasicBlock]
      omega
    refine ⟨by omega, ?_⟩
    have h6 : Reserved p s6 := hres.addIf g4.valid
    have h7 : Reserved p (s6.setPhis endif s6.topDirty).popDirtyTracker :=
      h6.congr (by simp) (by simp) (by simp)
    exact h7.setBasicBlock hne
  refine ⟨thenBlock, endif, ?_, ?_, ⟨s4, ⟨v4, rt.here_setBasicBlock, ?_, ?_⟩, hin5,
    at_here_addIf g4.valid hin6, hkeeps⟩, ?_⟩
  · exact (hin3.of_add v2).congr (by simp [s2, s1])
  · show At F s1.here _
    rw [← h2]
    exact at_here v2 hin3
  · simp only [s4, s3, s2, nextId_newDirtyTracker, nextId_setBasicBlock, nextId_add,
      nextId_newBasicBlock]
    exact g1.ids
  · simp [s4, s3, s2, s1, hc.loops]
  · rw [← re.here_setBasicBlock]
    exact here_congr (t := (s6.setPhis endif s6.topDirty).popDirtyTracker.setBasicBlock endif)
      (by simp) (by simp)

/-! ## `for` -/

structure ForLayout (F : ControlFlowGraph) (init : Lower → Lower)
    (cond : Lower → Expression × Lower) (post : Lower → Lower) (rp : Bool) (body : Lower → Lower)
    (rb : Bool) (s final : Lower) (condBlock nextBlock bodyBlock endBlock : Nat) : Prop where
  inInit : In F (init s)
  initKeeps : Keeps s s final init
  enter : At F (init s).here (.branch condBlock)
  condPart : ∃ s', Starts s s' condBlock s.loops ∧ In F (cond s').2 ∧
    At F (cond s').2.here (.branchCond (cond s').1 bodyBlock endBlock)
  bodyPart : ∃ s', Part F s final body rb (⟨endBlock, nextBlock⟩ :: s.loops) bodyBlock nextBlock s'
  postPart : ∃ s', Part F s final post rp s.loops nextBlock condBlock s'
  /-- Without a post block nothing is added to the block of its own. -/
  unfilled : post = id → rp = false → s.newBlockNo ≤ nextBlock ∧ Reserved nextBlock final
  ends : final.here = .at endBlock 0

theorem forLayout {init post : Lower → Lower} {rp rb : Bool} (hi : Framed init)
    (hc : ExprFrame cond) (hp : Framed post) (hb : Framed body) (hs : s.Valid)
    (hin : In F (processForBlock init true cond post rp body rb s)) :
    ∃ condBlock nextBlock bodyBlock endBlock,
      ForLayout F init cond post rp body rb s (processForBlock init true cond post rp body rb s)
        condBlock nextBlock bodyBlock endBlock := by
  let s0 := init s
  let condBlock := s0.newBlockNo
  let nextBlock := s0.newBasicBlock.newBlockNo
  let bodyBlock := s0.newBasicBlock.newBasicBlock.newBlockNo
  let endBlock := s0.newBasicBlock.newBasicBlock.newBasicBlock.newBlockNo
  let s1 := s0.newBasicBlock.newBasicBlock.newBasicBlock.newBasicBlock
  let s2 := s1.add (.branch condBlock)
  let s3 := s2.setBasicBlock condBlock
  let s4 := (cond s3).2
  let s5 := s4.add (.branchCond (cond s3).1 bodyBlock endBlock)
  let s6 := ((s5.setBasicBlock bodyBlock).enterScope endBlock nextBlock).newDirtyTracker
  let s7 := body s6
  let s8 := if rb then s7.add (.branch nextBlock) else s7
  let s9 := s8.leaveScope.setBasicBlock nextBlock
  let s10 := post s9
  let s11 := if rp then s10.add (.branch condBlock) else s10
  let s12 := s11.setBasicBlock endBlock
  let s13 := ((s12.popDirtyTracker.setPhis nextBlock s12.topDirty).setPhis endBlock
    s12.topDirty).setPhis condBlock s12.topDirty
  have hnc : nextBlock ≠ condBlock := by simp [nextBlock, condBlock]
  have hbc : bodyBlock ≠ condBlock := by
    simp only [bodyBlock, condBlock, newBlockNo_newBasicBlock]
    omega
  have hbn : bodyBlock ≠ nextBlock := by simp [bodyBlock, nextBlock]
  have hec : endBlock ≠ condBlock := by
    simp only [endBlock, condBlock, newBlockNo_newBasicBlock]
    omega
  have hen : endBlock ≠ nextBlock := by
    simp only [endBlock, nextBlock, newBlockNo_newBasicBlock]
    omega
  have heb : endBlock ≠ bodyBlock := by simp [endBlock, bodyBlock]
  -- the blocks are empty until they are entered
  have g0 : Grows s s0 := hi.grows s hs
  have v1 : s1.Valid := g0.valid.new.new.new.new
  have rc : Reserved condBlock s2 := (reserved_new g0.valid).new.new.new.add v1
  have v3 : s3.Valid := rc.lt
  have g3 : Grows s3 s4 := hc.grows s3 v3
  have rb3 : Reserved bodyBlock s3 :=
    ((reserved_new g0.valid.new.new).new.add v1).setBasicBlock hbc
  have rb5 : Reserved bodyBlock s5 := (rb3.grows g3).add g3.valid
  have v6 : s6.Valid := rb5.lt
  have g6 : Grows s6 s7 := hb.grows s6 v6
  have rn3 : Reserved nextBlock s3 :=
    ((reserved_new g0.valid.new).new.new.add v1).setBasicBlock hnc
  have rn6 : Reserved nextBlock s6 :=
    (((rn3.grows g3).add g3.valid).setBasicBlock hbn.symm).enterScope.newDirtyTracker
  have rn8 : Reserved nextBlock s8.leaveScope := ((rn6.grows g6).addIf g6.valid).leaveScope
  have v9 : s9.Valid := rn8.lt
  have g9 : Grows s9 s10 := hp.grows s9 v9
  have re3 : Reserved endBlock s3 :=
    ((reserved_new g0.valid.new.new.new).add v1).setBasicBlock hec
  have re6 : Reserved endBlock s6 :=
    (((re3.grows g3).add g3.valid).setBasicBlock heb).enterScope.newDirtyTracker
  have re9 : Reserved endBlock s9 :=
    ((re6.grows g6).addIf g6.valid).leaveScope.setBasicBlock hen
  have re11 : Reserved endBlock s11 := (re9.grows g9).addIf g9.valid
  -- and what was added stays
  have hin13 : In F s13 := hin
  have hin12 : In F s12 := hin13.of_setPhis.of_setPhis.of_setPhis
  have hin11 : In F s11 := hin12
  have hin10 : In F s10 := hin11.of_addIf g9.valid
  have hin9 : In F s9 := hin10.of_grows g9
  have hin8 : In F s8 := hin9
  have hin7 : In F s7 := hin8.of_addIf g6.valid
  have hin5 : In F s5 := (hin7.of_grows g6 : In F s6)
  have hin4 : In F s4 := hin5.of_add g3.valid
  have hin2 : In F s2 := (hin4.of_grows g3 : In F s3)
  have ids3 : s.nextId ≤ s3.nextId := by
    simp only [s3, s2, s1, nextId_setBasicBlock, nextId_add, nextId_newBasicBlock]
    exact g0.ids
  have ids6 : s.nextId ≤ s6.nextId := by
    simp only [s6, s5, nextId_newDirtyTracker, nextId_enterScope, nextId_setBasicBlock, nextId_add]
    exact ids3.trans g3.ids
  have ids9 : s.nextId ≤ s9.nextId := by
    simp only [s9, s8, nextId_setBasicBlock, nextId_leaveScope, nextId_addIf]
    exact ids6.trans g6.ids
  have l3 : s3.loops = s.loops := by simp [s3, s2, s1, s0, hi.loops]
  have l6 : s6.loops = ⟨endBlock, nextBlock⟩ :: s.loops := by
    simp [s6, s5, s4, hc.loops, l3]
  have l9 : s9.loops = s.loops := by
    simp [s9, s8, s7, hb.loops, l6]
  have h1 : s1.here = s0.here := here_congr (by simp [s1]) (by simp [s1])
  -- a block that is left empty somewhere is not one of those that are entered later
  have hlast : ∀ p, p ≠ endBlock → Reserved p s11 → Reserved p s13 := by
    intro p hne hres
    exact (hres.setBasicBlock hne).congr (by simp [s13, s12]) (by simp [s13, s12])
      (by simp [s13, s12])
  have hpostKeeps : ∀ p, p ≠ endBlock → Reserved p s9 → Reserved p s13 := fun p hne hres =>
    hlast p hne ((hres.grows g9).addIf g9.valid)
  have hbodyKeeps : ∀ p, p ≠ nextBlock → p ≠ endBlock → Reserved p s7 → Reserved p s13 :=
    fun p hn he hres => hpostKeeps p he ((hres.addIf g6.valid).leaveScope.setBasicBlock hn)
  have hlen6 : s6.newBlockNo = s4.newBlockNo := by simp [s6, s5]
  have hlen3 : s3.newBlockNo = s0.newBlockNo + 4 := by simp [s3, s2, s1]
  have hle3 := g3.len
  have hle6 := g6.len
  have hle0 := g0.len
  have hlen9 : s9.newBlockNo = s7.newBlockNo := by simp [s9, s8]
  have hblocks : nextBlock = s0.newBlockNo + 1 ∧ bodyBlock = s0.newBlockNo + 2 ∧
      endBlock = s0.newBlockNo + 3 := by simp [nextBlock, bodyBlock, endBlock]
  have kinit : Keeps s s s13 init := by
    intro p hp hres
    have hlt : p < s0.newBlockNo := hres.lt
    refine ⟨hp, hbodyKeeps p (by omega) (by omega) (Reserved.grows ?_ g6)⟩
    have h3 : Reserved p s3 := (hres.new.new.new.new.add v1).setBasicBlock (by omega)
    exact (((h3.grows g3).add g3.valid).setBasicBlock (by omega)).enterScope.newDirtyTracker
  have kbody : Keeps s s6 s13 body := by
    intro p hp hres
    exact ⟨by omega, hbodyKeeps p (by omega) (by omega) hres⟩
  have kpost : Keeps s s9 s13 post := by
    intro p hp hres
    exact ⟨by omega, hlast p (by omega) (hres.addIf g9.valid)⟩
  refine ⟨condBlock, nextBlock, bodyBlock, endBlock, (hin2.of_add v1).congr (by simp [s1, s0]), kinit,
    ?_, ⟨s3, ⟨v3, rc.here_setBasicBlock, ids3, l3⟩, hin4, at_here g3.valid hin5⟩,
    ⟨s6, ⟨v6, rb5.here_setBasicBlock, ids6, l6⟩, hin7, at_here_addIf g6.valid hin8, kbody⟩,
    ⟨s9, ⟨v9, rn8.here_setBasicBlock, ids9, l9⟩, hin10, at_here_addIf g9.valid hin11, kpost⟩, ?_, ?_⟩
  · show At F s0.here _
    rw [← h1]
    exact at_here v1 hin2
  · rintro rfl rfl
    refine ⟨by omega, ?_⟩
    have hempty : Reserved nextBlock s13 :=
      ⟨by simpa [s13, s12, s11, s10, s9] using rn8.lt, by simpa [s13, s12] using hen.symm,
        by simpa [s13, s12, s11, s10, s9] using rn8.empty⟩
    exact hempty
  · rw [← re11.here_setBasicBlock]
    exact here_congr (t := s13) (by simp [s13, s12]) (by simp [s13, s12])

/-! ## `switch` -/

/-- `casesState` and `defaultState` are where the lowering of the cases and of the default block
starts. -/
structure SwitchLayout (F : ControlFlowGraph) (cond : Lower → Expression × Lower)
    (cases : Nat → Lower → List (Expression × Nat) × Lower) (default : Nat → Lower → Nat × Lower)
    (s : Lower) (endSwitch : Nat) (casesState defaultState : Lower) : Prop where
  inCond : In F (cond s).2
  branch : At F (cond s).2.here
    (.switch (cond s).1 (cases endSwitch casesState).1 (default endSwitch defaultState).1)
  casesValid : casesState.Valid
  casesIds : s.nextId ≤ casesState.nextId
  casesLoops : casesState.loops = s.loops
  inCases : In F (cases endSwitch casesState).2
  defaultValid : defaultState.Valid
  defaultIds : s.nextId ≤ defaultState.nextId
  defaultLoops : defaultState.loops = s.loops
  inDefault : In F (default endSwitch defaultState).2
  casesKeep : Keeps s casesState (switch cond cases default s) fun s => (cases endSwitch s).2
  defaultKeep : Keeps s defaultState (switch cond cases default s) fun s => (default endSwitch s).2
  ends : (switch cond cases default s).here = .at endSwitch 0

theorem switchLayout {cases : Nat → Lower → List (Expression × Nat) × Lower}
    {default : Nat → Lower → Nat × Lower} (hc : ExprFrame cond) (hcases : SwitchFrame cases)
    (hdefault : SwitchFrame default) (hs : s.Valid) (hin : In F (switch cond cases default s)) :
    ∃ endSwitch casesState defaultState,
      SwitchLayout F cond cases default s endSwitch casesState defaultState := by
  let s1 := (cond s).2
  let endSwitch := s1.newBlockNo
  let s2 := s1.newBasicBlock.newDirtyTracker
  let s3 := (cases endSwitch s2).2
  let s4 := (default endSwitch s3).2
  let s5 := (s4.setPhis endSwitch s4.topDirty).popDirtyTracker
  let s6 := s5.setBasicBlock s1.current
  let s7 := s6.add (.switch (cond s).1 (cases endSwitch s2).1 (default endSwitch s3).1)
  let s8 := s7.setBasicBlock endSwitch
  have g1 : Grows s s1 := hc.grows s hs
  have re2 : Reserved endSwitch s2 := (reserved_new g1.valid).newDirtyTracker
  have v2 : s2.Valid := g1.valid.new
  have a2 : Aside s2 s3 := hcases.aside endSwitch s2 v2
  have a3 : Aside s3 s4 := hdefault.aside endSwitch s3 a2.grows.valid
  have a4 : Aside s2 s4 := a2.trans a3
  have hcur : s1.current < s2.newBlockNo := v2
  -- the block of the switch is as it was before the cases
  have hcode6 : ∀ b < s2.newBlockNo, s6.code b = s1.code b := by
    intro b hb
    have h4 := a4.same b hb
    simp only [s2, code_newDirtyTracker, code_newBasicBlock] at h4
    simpa [s6, s5] using h4
  have v6 : s6.Valid := by
    have hlen := a4.grows.len
    simp only [Valid, s6, s5, newBlockNo_setBasicBlock, newBlockNo_popDirtyTracker,
      newBlockNo_setPhis, current_setBasicBlock]
    omega
  have h6 : s6.here = s1.here := by
    show Position.at s1.current (s6.code s1.current).length = _
    rw [hcode6 _ hcur]
    rfl
  have hempty : s7.code endSwitch = [] := by
    have hne : endSwitch ≠ s6.current := re2.ne
    rw [code_add v6, if_neg hne, hcode6 _ re2.lt]
    exact code_of_le (Nat.le_refl _)
  have hin7 : In F s7 := hin
  have hin4 : In F s4 := (hin7.of_add v6).congr (by simp [s6, s5])
  have hin3 : In F s3 := hin4.of_grows a3.grows
  have hin2 : In F s2 := hin3.of_grows a2.grows
  have ids2 : s.nextId ≤ s2.nextId := g1.ids
  have l2 : s2.loops = s.loops := hc.loops s
  have hlen1 := g1.len
  have hlen2 : s2.newBlockNo = s1.newBlockNo + 1 := by simp [s2]
  have hlen3 := a2.grows.len
  have hlast : ∀ p, s2.newBlockNo ≤ p → Reserved p s4 →
      s.newBlockNo ≤ p ∧ Reserved p (switch cond cases default s) := by
    intro p hp hres
    have hne : p ≠ endSwitch := by
      simp only [endSwitch]
      omega
    refine ⟨by omega, ?_⟩
    have h5 : Reserved p s5 := hres.congr (by simp [s5]) (by simp [s5]) (by simp [s5])
    have h7 : Reserved p s7 := (h5.setBasicBlock (by omega)).add v6
    exact h7.setBasicBlock hne
  refine ⟨endSwitch, s2, s3, hin2.congr (by simp [s2, s1]), ?_, v2, ids2, l2, hin3, a2.grows.valid,
    ids2.trans a2.grows.ids, (hcases.loops _ _).trans l2, hin4,
    fun p hp hres => hlast p hp (hres.grows a3.grows), fun p hp hres => hlast p (by omega) hres, ?_⟩
  · show At F s1.here _
    rw [← h6]
    exact at_here v6 hin7
  · show s8.here = _
    simp [here, s8, hempty]

/-- A block of a switch -/
theorem part_switchBlock {endSwitch : Nat} (hb : Framed body) (hs : s.Valid)
    (hin : In F (switchBlock body r endSwitch s)) :
    ∃ s', Part F s (switchBlock body r endSwitch s) body r s.loops s.newBlockNo endSwitch s' := by
  let s1 := s.newBasicBlock.setBasicBlock s.newBlockNo
  have r1 : Reserved s.newBlockNo s.newBasicBlock := reserved_new hs
  have v1 : s1.Valid := r1.lt
  have g1 : Grows s1 (body s1) := hb.grows s1 v1
  have hin1 : In F (if r then (body s1).add (.branch endSwitch) else body s1) := hin
  refine ⟨s1, ⟨v1, r1.here_setBasicBlock, Nat.le_refl _, rfl⟩, hin1.of_addIf g1.valid,
    at_here_addIf g1.valid hin1, fun p hp hres => ?_⟩
  have hlen : s1.newBlockNo = s.newBlockNo + 1 := by simp [s1]
  exact ⟨by omega, hres.addIf g1.valid⟩

end Solang.Codegen.Yul
