import Solang.Codegen.ReachingDefinitionsSound

/-!
# Reaching definitions along execution paths

`lastAssigned` is the definition that assigned a variable last on a path, and
`origin` the one that its value comes from: a variable assigned from another
variable keeps the definition of that variable. `find` collects origins.
-/

namespace Solang.Codegen.ReachingDefinitions

open ControlFlowGraph

/-! ## The fixpoint -/

variable {cfg : ControlFlowGraph} {b v n : Nat} {bs vs : List Nat} {vars : VarDefs} {i : Instr}
  {orig : Nat → Option Def}

theorem block_withTransfers (h : b < cfg.blocks.length) :
    (withTransfers cfg).block b =
      { cfg.block b with transfers := instrTransfers b (cfg.block b) } := by
  have h' : b < (withTransfers cfg).blocks.length := by simpa [withTransfers] using h
  rw [block_of_lt h', block_of_lt h]
  simp [withTransfers]

theorem length_withTransfers (cfg : ControlFlowGraph) :
    (withTransfers cfg).blocks.length = cfg.blocks.length := by
  simp [withTransfers]

theorem instr_withTransfers (cfg : ControlFlowGraph) (b : Nat) :
    ((withTransfers cfg).block b).instr = (cfg.block b).instr := by
  rcases Nat.lt_or_ge b cfg.blocks.length with h | h
  · rw [block_withTransfers h]
  · rw [block_of_le h, block_of_le (by rw [length_withTransfers]; exact h)]

theorem edge_withTransfers {e : Nat} :
    (withTransfers cfg).Edge b e ↔ cfg.Edge b e := by
  simp only [Edge, BasicBlock.successors, instr_withTransfers]

theorem wellFormed_withTransfers (h : cfg.WellFormed) :
    (withTransfers cfg).WellFormed := by
  constructor
  · rw [length_withTransfers]
    exact h.entry
  · simpa only [length_withTransfers, instr_withTransfers] using h.last
  · simpa only [length_withTransfers, instr_withTransfers] using h.only
  · simpa only [length_withTransfers, BasicBlock.successors, instr_withTransfers] using h.edge

theorem hasTransfers_withTransfers (cfg : ControlFlowGraph) :
    ∀ b < (withTransfers cfg).blocks.length, HasTransfers b ((withTransfers cfg).block b) := by
  intro b hb
  rw [length_withTransfers] at hb
  rw [block_withTransfers hb]
  rfl

theorem not_cfgHolds_of_fresh (h : Fresh cfg) (b : Nat) (f : Fact) :
    ¬ CfgHolds (withTransfers cfg) (b, f) := by
  have hempty : ((withTransfers cfg).block b).defs = ∅ ∧
      ((withTransfers cfg).block b).loopReachingVariables = [] := by
    rcases Nat.lt_or_ge b cfg.blocks.length with hb | hb
    · rw [block_withTransfers hb]
      exact h (cfg.block b) (by rw [block_of_lt hb]; exact List.getElem_mem hb)
    · rw [block_of_le (by rw [length_withTransfers]; exact hb)]
      exact ⟨rfl, rfl⟩
  rintro (⟨defs, hl, -⟩ | ⟨-, hl⟩)
  · rw [hempty.1] at hl
    cases hl
  · rw [hempty.2] at hl
    cases hl

theorem inv_initial (hwf : cfg.WellFormed) (h : Fresh cfg) (M : Nat) :
    Inv (withTransfers cfg) M [0] (withTransfers cfg) where
  code := ⟨rfl, fun _ => rfl, fun _ => rfl⟩
  pending b hb := by
    rw [List.mem_singleton.mp hb, length_withTransfers]
    exact hwf.entry
  bounded b f hf := absurd hf (not_cfgHolds_of_fresh h b f)
  propagated p hp := by
    rcases hp with rfl | ⟨f, hf⟩
    · exact .inl (.head _)
    · exact absurd (.inl hf) (not_cfgHolds_of_fresh h p f)

/-- `find` ends, with every block's set propagated along its edges. -/
theorem find_total (hwf : cfg.WellFormed) (hf : Fresh cfg) :
    ∃ bound, ∀ fuel, bound ≤ fuel → ∀ pick, Worklist.Fair pick →
      ∃ cfg' M, find pick fuel cfg = some cfg' ∧ Inv (withTransfers cfg) M [] cfg' := by
  have hwf' := wellFormed_withTransfers hwf
  have hT := hasTransfers_withTransfers cfg
  set c := withTransfers cfg with hc
  obtain ⟨M, hM⟩ := exists_transferBounded c
  let width := (c.blocks.map fun b => b.successors.length).sum
  let U := factUniverse c.blocks.length M
  refine ⟨Worklist.fuelBound (unknown CfgHolds U) width [0] c, fun fuel hfuel pick hp => ?_⟩
  have hw : ∀ k todo s, Inv c M todo s → k ∈ todo → (visit k s).2.length ≤ width := by
    intro k todo s hi hk
    refine (hi.merged hwf' hk).width.trans ?_
    rw [List.length_nil, Nat.zero_add, block_of_lt (hi.pending k hk)]
    refine List.single_le_sum (by simp) _ (List.mem_map.mpr ?_)
    exact ⟨_, List.getElem_mem (hi.pending k hk), rfl⟩
  have hle : ∀ k todo s, Inv c M todo s → k ∈ todo →
      unknown CfgHolds U (visit k s).1 ≤ unknown CfgHolds U s := by
    intro k todo s hi hk
    exact unknown_le (hi.merged hwf' hk).grows
  have hlt : ∀ k todo s, Inv c M todo s → k ∈ todo → (visit k s).2 ≠ [] →
      unknown CfgHolds U (visit k s).1 < unknown CfgHolds U s := by
    intro k todo s hi hk hne
    obtain ⟨⟨e, f⟩, he, hnew, hold⟩ := (hi.merged hwf' hk).fresh hne
    have hlt := hwf'.edge k (hi.pending k hk) e he
    refine unknown_lt (hi.merged hwf' hk).grows (mem_factUniverse hlt ?_) hnew hold
    exact hi.bounded_visit hM hwf' hk e f hnew
  obtain ⟨cfg', hrun, hinv⟩ := Worklist.run_total hp
    (fun k todo s hi hk => hi.visit hT hM hwf' hk) hw hle hlt fuel [0] c
    (inv_initial hwf hf M) hfuel
  exact ⟨cfg', M, hrun, hinv⟩

/-! ## Paths -/

/-- The definitions after execution ran through the blocks `bs`. -/
def defsAlong (cfg : ControlFlowGraph) (bs : List Nat) : VarDefs :=
  bs.foldl (fun vars b => leave (cfg.block b) vars) ∅

theorem eq_zero_of_path_nil (h : Path cfg b []) : b = 0 := by
  generalize hbs : ([] : List Nat) = bs at h
  cases h with
  | entry => rfl
  | step => simp at hbs

/-- Along a path on which no block is left with an empty set, the computed sets
cover the definitions of the path. -/
theorem le_of_path {c : ControlFlowGraph} {M : Nat}
    (hT : ∀ b < c.blocks.length, HasTransfers b (c.block b)) (hwf : c.WellFormed)
    (hi : Inv c M [] cfg) (hp : Path c b bs)
    (ht : ∀ k, 0 < k → k < bs.length → ∃ f, Holds (defsAlong c (bs.take k)) f) :
    Le (defsAlong c bs) (cfg.block b).defs := by
  induction hp with
  | entry =>
    rintro f ⟨defs, hl, -⟩
    cases hl
  | @step b e bs hp he ih =>
    have ht' : ∀ k, 0 < k → k < bs.length → ∃ f, Holds (defsAlong c (bs.take k)) f := by
      intro k h0 hk
      have := ht k h0 (by simp; omega)
      rwa [List.take_append_of_le_length (by omega)] at this
    have hle := ih ht'
    have hvisited : b = 0 ∨ ∃ f, Holds (cfg.block b).defs f := by
      cases bs with
      | nil => exact .inl (eq_zero_of_path_nil hp)
      | cons b' bs =>
        obtain ⟨f, hf⟩ := ht (b' :: bs).length (by simp) (by simp)
        rw [List.take_left] at hf
        exact .inr ⟨f, hle f hf⟩
    have hout := (hi.propagated b hvisited).resolve_left (by simp) e he
    have hlt := hp.lt hwf
    intro f hf
    rw [defsAlong, List.foldl_append] at hf
    exact hout f (leave_mono (hT b hlt) hle f hf)

/-! ## Assignments and origins -/

/-- The position of the last of `varNos` that is `v`. -/
def assignmentNo (v : Nat) (varNos : List Nat) : Option Nat :=
  (varNos.zipIdx.filter (·.1 == v)).getLast?.map (·.2)

/-- The definitions that assigned the variables last, after the instruction. -/
def assigned (blockNo instrNo : Nat) (i : Instr) (last : Nat → Option Def) (v : Nat) :
    Option Def :=
  match assignmentNo v i.results with
  | some k => some ⟨blockNo, instrNo, k⟩
  | none => last v

/-- `instr_transfers` has an arm that defines the results of the instruction. -/
def tracked : Instr → Bool
  | .popMemory _ _ _ | .pushStorage _ _ _ _ | .accountAccess _ _ => false
  | _ => true

/-- The definitions that the values of the variables come from, after the
instruction; `none` where the transfers lose track of them. -/
def origin (blockNo instrNo : Nat) (i : Instr) (orig : Nat → Option Def) (v : Nat) :
    Option Def :=
  match i with
  | .set res (.variable _ src) =>
    if v = res then if src = res then none else orig src else orig v
  | i =>
    if tracked i then assigned blockNo instrNo i orig v
    else if v ∈ i.results then none else orig v

/-- Run `step` over the instructions of the blocks `bs`. -/
def along (step : Nat → Nat → Instr → (Nat → Option Def) → Nat → Option Def)
    (cfg : ControlFlowGraph) (bs : List Nat) : Nat → Option Def :=
  bs.foldl (fun o b => (cfg.block b).instr.zipIdx.foldl (fun o p => step b p.2 p.1 o) o)
    fun _ => none

def lastAssigned (cfg : ControlFlowGraph) (bs : List Nat) : Nat → Option Def :=
  along assigned cfg bs

def originAlong (cfg : ControlFlowGraph) (bs : List Nat) : Nat → Option Def :=
  along origin cfg bs

theorem mem_of_assignmentNo {k : Nat} (h : assignmentNo v vs = some k) :
    (v, k) ∈ vs.zipIdx := by
  obtain ⟨⟨u, j⟩, hl, rfl⟩ := Option.map_eq_some_iff.mp h
  have hm := List.mem_of_getLast? hl
  rw [List.mem_filter] at hm
  obtain ⟨hm, hu⟩ := hm
  rw [beq_iff_eq] at hu
  exact hu ▸ hm

theorem notMem_of_assignmentNo (h : assignmentNo v vs = none) :
    v ∉ vs := by
  intro hv
  obtain ⟨k, hk, rfl⟩ := List.getElem_of_mem hv
  rw [assignmentNo, Option.map_eq_none_iff, List.getLast?_eq_none_iff,
    List.filter_eq_nil_iff] at h
  exact h (vs[k], k) (List.mk_mem_zipIdx_iff_getElem?.mpr (by simp [hk])) (by simp)

/-! ## The transfers keep origins -/

theorem holds_foldl_of_step {ts : List Transfer} {f : Fact}
    (h : ∀ t ∈ ts, ∀ vars, Holds vars f → Holds (applyTransfer vars t) f) (hf : Holds vars f) :
    Holds (applyTransfers ts vars) f := by
  unfold applyTransfers
  induction ts generalizing vars with
  | nil => exact hf
  | cons t ts ih => exact ih (fun u hu => h u (.tail _ hu)) (h t (.head _) vars hf)

theorem applyTransfers_append (ts us : List Transfer) (vars : VarDefs) :
    applyTransfers (ts ++ us) vars = applyTransfers us (applyTransfers ts vars) := by
  simp [applyTransfers]

theorem holds_mods {ms : List Nat} {f : Fact} (hf : Holds vars f) :
    Holds (applyTransfers (ms.map .mod) vars) f := by
  refine holds_foldl_of_step (fun t ht vars hf => ?_) hf
  obtain ⟨v, -, rfl⟩ := List.mem_map.mp ht
  exact holds_mod.mpr (.inl hf)

theorem reaches_gen {d d' : Def} {u : Nat} (h : Holds vars ⟨v, .reaches d⟩) :
    Holds (applyTransfer vars (.gen d' u)) ⟨v, .reaches d⟩ :=
  holds_gen.mpr (.inr (.inr ⟨by simp, h⟩))

theorem reaches_setVar_of_mem {k : Nat} (h : (v, k) ∈ vs.zipIdx) :
    Holds (applyTransfers (setVar b n vs) vars) ⟨v, .reaches ⟨b, n, k⟩⟩ := by
  rw [setVar, applyTransfers_append]
  obtain ⟨l₁, l₂, hsplit⟩ := List.append_of_mem h
  rw [hsplit, List.map_append, List.map_cons, applyTransfers_append]
  simp only [applyTransfers, List.foldl_cons]
  refine holds_foldl_of_step (fun t ht vars hf => ?_) (holds_gen.mpr (.inr (.inl rfl)))
  obtain ⟨p, -, rfl⟩ := List.mem_map.mp ht
  exact reaches_gen hf

theorem reaches_setVar_of_notMem {d : Def} (hv : v ∉ vs) (h : Holds vars ⟨v, .reaches d⟩) :
    Holds (applyTransfers (setVar b n vs) vars) ⟨v, .reaches d⟩ := by
  refine holds_foldl_of_step (fun t ht vars hf => ?_) h
  rcases List.mem_append.mp ht with ht | ht
  · obtain ⟨u, hu, rfl⟩ := List.mem_map.mp ht
    refine holds_kill.mpr ⟨?_, hf⟩
    rintro rfl
    exact hv (List.mem_reverse.mp hu)
  · obtain ⟨p, -, rfl⟩ := List.mem_map.mp ht
    exact reaches_gen hf

/-- The transfers of an instruction that is not a copy: its results are
defined, if it is tracked, and objects are modified. -/
theorem instrTransfer_eq (b n : Nat) (i : Instr) :
    (∃ res ty src, i = .set res (.variable ty src)) ∨
    (∀ res ty src, i ≠ .set res (.variable ty src)) ∧ ∃ ms : List Nat,
      instrTransfer b n i = (if tracked i then setVar b n i.results else []) ++ ms.map .mod := by
  cases i with
  | set res expr =>
    cases expr with
    | «variable» ty src => exact .inl ⟨res, ty, src, rfl⟩
    | _ => exact .inr ⟨by simp, [], by simp [instrTransfer, tracked, Instr.results]⟩
  | pushMemory res ty array value | popMemory res ty array =>
    exact .inr ⟨by simp, [array], by simp [instrTransfer, tracked, Instr.results]⟩
  | store dest _ | clearStorage _ dest | setStorage _ _ dest | setStorageBytes _ dest _ =>
    exact .inr ⟨by simp, (arrayVar dest).toList, by simp [instrTransfer, tracked, Instr.results, setVar]⟩
  | popStorage res _ _ | externalCall res _ _ _ _ _ _ _ | valueTransfer res _ _ =>
    cases res <;> exact .inr ⟨by simp, [], by simp [instrTransfer, tracked, Instr.results, setVar]⟩
  | constructor success _ _ _ _ _ _ _ _ _ _ =>
    cases success <;> exact .inr ⟨by simp, [], by simp [instrTransfer, tracked, Instr.results]⟩
  | _ => exact .inr ⟨by simp, [], by simp [instrTransfer, tracked, Instr.results, setVar]⟩

theorem origin_of_tracked (hi : ∀ res ty src, i ≠ .set res (.variable ty src)) (ht : tracked i) :
    origin b n i orig v = assigned b n i orig v := by
  unfold origin
  split
  · exact absurd rfl (hi _ _ _)
  · rw [if_pos ht]

theorem of_origin_untracked {d : Def} (ht : ¬ tracked i) (h : origin b n i orig v = some d) :
    orig v = some d := by
  unfold origin at h
  split at h
  · exact absurd rfl ht
  · rw [if_neg ht] at h
    split at h
    · cases h
    · exact h

/-- The variables of `orig` have their origins in `vars`. -/
def Covers (vars : VarDefs) (orig : Nat → Option Def) : Prop :=
  ∀ v d, orig v = some d → Holds vars ⟨v, .reaches d⟩

theorem covers_assigned (h : Covers vars orig) :
    Covers (applyTransfers (setVar b n i.results) vars) (assigned b n i orig) := by
  intro v d hd
  unfold assigned at hd
  split at hd
  · rename_i k hk
    cases hd
    exact reaches_setVar_of_mem (mem_of_assignmentNo hk)
  · rename_i hn
    exact reaches_setVar_of_notMem (notMem_of_assignmentNo hn) (h v d hd)

theorem covers_origin (h : Covers vars orig) :
    Covers (applyTransfers (instrTransfer b n i) vars) (origin b n i orig) := by
  intro v d hd
  rcases instrTransfer_eq b n i with ⟨res, ty, src, rfl⟩ | ⟨hi, ms, hms⟩
  · rw [instrTransfer, holds_assignCopy]
    simp only [origin] at hd
    by_cases hv : v = res
    · rw [if_pos hv] at hd
      split at hd
      · cases hd
      · rename_i hs
        exact .inl ⟨hv, hs, h src d hd⟩
    · rw [if_neg hv] at hd
      exact .inr ⟨hv, h v d hd⟩
  · rw [hms, applyTransfers_append]
    refine holds_mods ?_
    by_cases ht : tracked i
    · rw [if_pos ht]
      rw [origin_of_tracked hi ht] at hd
      exact covers_assigned h v d hd
    · rw [if_neg ht]
      exact h v d (of_origin_untracked ht hd)

theorem covers_leave {no : Nat} {block : BasicBlock} (ht : HasTransfers no block)
    (h : Covers vars orig) :
    Covers (leave block vars)
      (block.instr.zipIdx.foldl (fun o p => origin no p.2 p.1 o) orig) := by
  unfold leave
  rw [ht, instrTransfers, List.foldl_map]
  generalize block.instr.zipIdx = l
  induction l generalizing vars orig with
  | nil => exact h
  | cons p l ih => exact ih (covers_origin h)

theorem covers_defsAlong (hbs : ∀ b ∈ bs, b < cfg.blocks.length) :
    Covers (defsAlong (withTransfers cfg) bs) (originAlong cfg bs) := by
  unfold defsAlong originAlong along
  suffices ∀ vars orig, Covers vars orig →
      Covers (bs.foldl (fun vars b => leave ((withTransfers cfg).block b) vars) vars)
        (bs.foldl (fun o b => (cfg.block b).instr.zipIdx.foldl
          (fun o p => origin b p.2 p.1 o) o) orig) from this ∅ _ (by simp [Covers])
  induction bs with
  | nil =>
    intro vars orig h
    exact h
  | cons b bs ih =>
    intro vars orig h
    have hb : b < (withTransfers cfg).blocks.length := by
      rw [length_withTransfers]
      exact hbs b (.head _)
    have hl := covers_leave (hasTransfers_withTransfers cfg b hb) h
    rw [instr_withTransfers] at hl
    exact ih (fun b' hb' => hbs b' (.tail _ hb')) _ _ hl

/-! ## Results -/

theorem path_withTransfers (h : Path cfg b bs) : Path (withTransfers cfg) b bs := by
  induction h with
  | entry => exact .entry
  | step _ he ih => exact .step ih (edge_withTransfers.mpr he)

theorem lt_of_mem_path (hwf : cfg.WellFormed) (h : Path cfg b bs) :
    ∀ p ∈ bs, p < cfg.blocks.length := by
  induction h with
  | entry =>
    intro p hp
    cases hp
  | step hpath _ ih =>
    intro p hp
    rcases List.mem_append.mp hp with hp | hp
    · exact ih p hp
    · rw [List.mem_singleton.mp hp]
      exact hpath.lt hwf

/-- The path leaves every block before the last with some variable whose
origin is known. -/
def Tracks (cfg : ControlFlowGraph) (bs : List Nat) : Prop :=
  ∀ k, 0 < k → k < bs.length → ∃ v, (originAlong cfg (bs.take k) v).isSome

theorem covers_of_path {cfg' : ControlFlowGraph} (hwf : cfg.WellFormed) {M : Nat}
    (hinv : Inv (withTransfers cfg) M [] cfg') (hp : Path cfg b bs) (ht : Tracks cfg bs) :
    Covers (cfg'.block b).defs (originAlong cfg bs) := by
  intro v d hd
  have hlt := lt_of_mem_path hwf hp
  refine le_of_path (hasTransfers_withTransfers cfg) (wellFormed_withTransfers hwf) hinv
    (path_withTransfers hp) ?_ _ (covers_defsAlong hlt v d hd)
  intro k h0 hk
  obtain ⟨u, hu⟩ := ht k h0 hk
  obtain ⟨d', hd'⟩ := Option.isSome_iff_exists.mp hu
  exact ⟨_, covers_defsAlong (fun b hb => hlt b (List.mem_of_mem_take hb)) u d' hd'⟩

/-- For every order in which pending blocks are taken, `find` ends, and the set
of every variable at every block contains the definition that the variable's
value comes from, on every path to the block that stays tracked. -/
theorem find_covers_origins {cfg : ControlFlowGraph} (hwf : cfg.WellFormed) (hfresh : Fresh cfg) :
    ∃ bound, ∀ fuel, bound ≤ fuel → ∀ pick, Worklist.Fair pick →
      ∃ cfg', find pick fuel cfg = some cfg' ∧
        ∀ b bs, Path cfg b bs → Tracks cfg bs → ∀ v d, originAlong cfg bs v = some d →
          ∃ defs, (cfg'.block b).defs.lookup v = some defs ∧ d ∈ defs := by
  obtain ⟨bound, hbound⟩ := find_total hwf hfresh
  refine ⟨bound, fun fuel hfuel pick hpick => ?_⟩
  obtain ⟨cfg', M, hrun, hinv⟩ := hbound fuel hfuel pick hpick
  exact ⟨cfg', hrun, fun b bs hp ht => covers_of_path hwf hinv hp ht⟩

/-- `x := 7; y := x` in the entry block, and a second block after it. -/
def copyCfg : ControlFlowGraph :=
  ⟨[{ instr := [.set 1 (.numberLiteral (.uint 8) 7), .set 2 (.variable (.uint 8) 1), .branch 1] },
    { instr := [.return []] }]⟩

theorem wellFormed_copyCfg : copyCfg.WellFormed :=
  ⟨by decide, by decide, by decide, by decide⟩

theorem path_copyCfg : Path copyCfg 1 [0] :=
  .step .entry (show 1 ∈ (copyCfg.block 0).successors by decide)

theorem find_covers_origins_copyCfg :
    ∃ fuel cfg', find (fun _ todo => todo.headD 0) fuel copyCfg = some cfg' ∧
      ∃ defs, (cfg'.block 1).defs.lookup 2 = some defs ∧ ⟨0, 0, 0⟩ ∈ defs := by
  have hfresh : Fresh copyCfg := by simp [Fresh, copyCfg]
  obtain ⟨bound, h⟩ := find_covers_origins wellFormed_copyCfg hfresh
  obtain ⟨cfg', hfind, hcov⟩ := h bound le_rfl (fun _ todo => todo.headD 0) (by simp [Worklist.Fair])
  refine ⟨bound, cfg', hfind, hcov 1 [0] path_copyCfg ?_ 2 ⟨0, 0, 0⟩ (by decide)⟩
  intro k h0 hk
  simp at hk
  omega

/-- The definition that assigned a variable last is not always in its set: a
copy does not count as a definition of its own. -/
theorem find_misses_lastAssigned :
    ¬ ∀ cfg : ControlFlowGraph, cfg.WellFormed → Fresh cfg →
      ∀ pick, Worklist.Fair pick → ∀ fuel cfg', find pick fuel cfg = some cfg' →
        ∀ b bs, Path cfg b bs → ∀ v d, lastAssigned cfg bs v = some d →
          ∃ defs, (cfg'.block b).defs.lookup v = some defs ∧ d ∈ defs := by
  intro h
  have hfresh : Fresh copyCfg := by simp [Fresh, copyCfg]
  have hsome : (find (fun _ todo => todo.headD 0) 2 copyCfg).isSome := by decide
  obtain ⟨defs, hl, hd⟩ := h copyCfg wellFormed_copyCfg hfresh (fun _ todo => todo.headD 0)
    (by simp [Worklist.Fair]) 2 _ (Option.some_get hsome).symm 1 [0] path_copyCfg 2 ⟨0, 1, 0⟩
    (by decide)
  have hset : ((((find (fun _ todo => todo.headD 0) 2 copyCfg).get hsome).block 1).defs.lookup 2).map
      (·.keys) = some [⟨0, 0, 0⟩] := by
    clear hl h
    revert hsome
    decide
  rw [hl] at hset
  have hkeys : defs.keys = [⟨0, 0, 0⟩] := by simpa using hset
  rw [AList.mem_keys, hkeys] at hd
  simp at hd

end Solang.Codegen.ReachingDefinitions
