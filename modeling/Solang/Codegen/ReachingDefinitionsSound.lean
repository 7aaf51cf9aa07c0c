import Solang.Codegen.ReachingFacts

/-!
# What `find` computes

The loop of `find` ends for every order of the pending blocks, and the sets it
leaves behind cover every execution path whose blocks it propagates. The
invariant: a block whose set is not empty is pending, or its successors have
everything that leaves it.
-/

namespace Solang.Codegen.ReachingDefinitions

open ControlFlowGraph

/-! ## Monotonicity -/

/-- The transfers that act on each variable alone. -/
def CopyFree (t : Transfer) : Prop := ∀ v src, t ≠ .copy v src

variable {a b vars : VarDefs} {t : Transfer} {f : Fact} {n M : Nat} {block : BasicBlock}

theorem applyTransfer_mono (ht : CopyFree t) (h : Le a b) :
    Le (applyTransfer a t) (applyTransfer b t) := by
  intro f hf
  cases t with
  | copy v src => exact absurd rfl (ht v src)
  | kill v =>
    rw [holds_kill] at hf ⊢
    exact ⟨hf.1, h f hf.2⟩
  | mod v =>
    rw [holds_mod] at hf ⊢
    rcases hf with hf | ⟨hv, d, hk, hd⟩
    · exact .inl (h f hf)
    · exact .inr ⟨hv, d, hk, h _ hd⟩
  | gen d v =>
    rw [holds_gen] at hf ⊢
    rcases hf with hf | hf | ⟨hn, hf⟩
    · exact .inl hf
    · exact .inr (.inl hf)
    · exact .inr (.inr ⟨hn, h f hf⟩)

theorem applyTransfers_mono {ts : List Transfer} (hts : ∀ t ∈ ts, CopyFree t) (h : Le a b) :
    Le (applyTransfers ts a) (applyTransfers ts b) := by
  unfold applyTransfers
  induction ts generalizing a b with
  | nil => exact h
  | cons t ts ih =>
    exact ih (fun u hu => hts u (.tail _ hu)) (applyTransfer_mono (hts t (.head _)) h)

theorem holds_assignCopy {res src : Nat} :
    Holds (applyTransfers [.kill res, .copy res src] vars) f ↔
      (f.varNo = res ∧ src ≠ res ∧ Holds vars ⟨src, f.kind⟩) ∨ (f.varNo ≠ res ∧ Holds vars f) := by
  have hk : (applyTransfer vars (.kill res)).lookup res = none := by
    simp [applyTransfer]
  simp only [applyTransfers, List.foldl_cons, List.foldl_nil, holds_copy hk, holds_kill]
  tauto

theorem copyFree_setVar {b : Nat} {vs : List Nat} : ∀ t ∈ setVar b n vs, CopyFree t := by
  intro t ht v src
  simp only [setVar, List.mem_append, List.mem_map] at ht
  rcases ht with ⟨_, _, rfl⟩ | ⟨_, _, rfl⟩ <;> simp

/-- An instruction copies the definitions of one variable, or has only
transfers that act on each variable alone. -/
theorem instrTransfer_cases (b n : Nat) (i : Instr) :
    (∃ res ty src, i = .set res (.variable ty src) ∧
      instrTransfer b n i = [.kill res, .copy res src]) ∨
    ∀ t ∈ instrTransfer b n i, CopyFree t := by
  unfold instrTransfer
  split
  · exact .inl ⟨_, _, _, rfl, rfl⟩
  all_goals
    refine .inr fun t ht v src => ?_
    first
      | exact copyFree_setVar t ht v src
      | simp only [List.mem_append, List.mem_map, List.mem_singleton, List.not_mem_nil] at ht
  · rcases ht with ht | rfl
    · exact copyFree_setVar t ht v src
    · simp
  · rw [ht]
    simp
  all_goals
    obtain ⟨_, _, rfl⟩ := ht
    simp

theorem applyTransfers_instr_mono {blockNo : Nat} {i : Instr} (h : Le a b) :
    Le (applyTransfers (instrTransfer blockNo n i) a)
      (applyTransfers (instrTransfer blockNo n i) b) := by
  rcases instrTransfer_cases blockNo n i with ⟨res, _, src, -, he⟩ | hf
  · rw [he]
    intro f hf
    rw [holds_assignCopy] at hf ⊢
    rcases hf with ⟨hv, hs, hf⟩ | ⟨hv, hf⟩
    · exact .inl ⟨hv, hs, h _ hf⟩
    · exact .inr ⟨hv, h _ hf⟩
  · exact applyTransfers_mono hf h

/-- The transfers of `block` are those `find` calculates for block `no`. -/
def HasTransfers (no : Nat) (block : BasicBlock) : Prop :=
  block.transfers = instrTransfers no block

theorem leave_mono {no : Nat} (ht : HasTransfers no block) (h : Le a b) :
    Le (leave block a) (leave block b) := by
  unfold leave
  rw [ht, instrTransfers, List.foldl_map, List.foldl_map]
  generalize block.instr.zipIdx = l
  induction l generalizing a b with
  | nil => exact h
  | cons p l ih => exact ih (applyTransfers_instr_mono h)

/-! ## A finite universe of facts -/

def Def.Bounded (M : Nat) (d : Def) : Prop := d.blockNo < M ∧ d.instrNo < M ∧ d.assignmentNo < M

def Kind.Bounded (M : Nat) : Kind → Prop
  | .reaches d | .modified d => Def.Bounded M d
  | .present | .loop => True

def Fact.Bounded (M : Nat) (f : Fact) : Prop := f.varNo < M ∧ f.kind.Bounded M

/-- The facts that the transfer introduces are bounded. -/
def TransferBounded (M : Nat) : Transfer → Prop
  | .gen d v => Def.Bounded M d ∧ v < M
  | .copy v _ => v < M
  | .mod _ | .kill _ => True

theorem of_holds_copy {v src : Nat} (h : Holds (applyTransfer vars (.copy v src)) f) :
    (f.varNo = v ∧ Holds vars ⟨src, f.kind⟩) ∨ Holds vars f := by
  simp only [applyTransfer] at h
  rcases hl : vars.lookup src with _ | defs
  · rw [hl] at h
    exact .inr h
  · simp only [hl, holds_insert] at h
    split at h
    · rename_i hv
      exact .inl ⟨hv, defs, hl, h⟩
    · exact .inr h

theorem bounded_applyTransfer (ht : TransferBounded M t) (h : ∀ f, Holds vars f → Fact.Bounded M f) :
    ∀ f, Holds (applyTransfer vars t) f → Fact.Bounded M f := by
  intro f hf
  cases t with
  | kill v => exact h f (holds_kill.mp hf).2
  | mod v =>
    rcases holds_mod.mp hf with hf | ⟨hv, d, hk, hd⟩
    · exact h f hf
    · have := h _ hd
      obtain ⟨u, k⟩ := f
      cases hv
      cases hk
      exact this
  | gen d v =>
    rcases holds_gen.mp hf with rfl | rfl | ⟨-, hf⟩
    · exact ⟨ht.2, trivial⟩
    · exact ⟨ht.2, ht.1⟩
    · exact h f hf
  | copy v src =>
    rcases of_holds_copy hf with ⟨hv, hs⟩ | hs
    · exact ⟨hv ▸ ht, (h _ hs).2⟩
    · exact h f hs

theorem bounded_applyTransfers {ts : List Transfer} (ht : ∀ t ∈ ts, TransferBounded M t)
    (h : ∀ f, Holds vars f → Fact.Bounded M f) :
    ∀ f, Holds (applyTransfers ts vars) f → Fact.Bounded M f := by
  unfold applyTransfers
  induction ts generalizing vars with
  | nil => exact h
  | cons t ts ih =>
    exact ih (fun u hu => ht u (.tail _ hu)) (bounded_applyTransfer (ht t (.head _)) h)

theorem bounded_leave (ht : ∀ ts ∈ block.transfers, ∀ t ∈ ts, TransferBounded M t)
    (h : ∀ f, Holds vars f → Fact.Bounded M f) :
    ∀ f, Holds (leave block vars) f → Fact.Bounded M f := by
  unfold leave
  revert ht
  generalize block.transfers = l
  intro ht
  induction l generalizing vars with
  | nil => exact h
  | cons ts l ih =>
    exact ih (bounded_applyTransfers (ht ts (.head _)) h) fun u hu => ht u (.tail _ hu)

/-- A bound on the numbers in a transfer. -/
def transferSize : Transfer → Nat
  | .gen d v => d.blockNo + d.instrNo + d.assignmentNo + v + 1
  | .copy v _ => v + 1
  | .mod _ | .kill _ => 0

theorem transferBounded_of_size (h : transferSize t ≤ M) :
    TransferBounded M t := by
  cases t with
  | gen d v =>
    simp only [transferSize] at h
    refine ⟨⟨?_, ?_, ?_⟩, ?_⟩ <;> omega
  | copy v src =>
    simp only [transferSize] at h
    simp only [TransferBounded]
    omega
  | mod v | kill v => trivial

theorem exists_transferBounded (cfg : ControlFlowGraph) :
    ∃ M, ∀ b, ∀ ts ∈ (cfg.block b).transfers, ∀ t ∈ ts, TransferBounded M t := by
  let all := cfg.blocks.flatMap fun b => b.transfers.flatten
  refine ⟨(all.map transferSize).sum, fun b ts hts t ht => transferBounded_of_size ?_⟩
  refine List.single_le_sum (by simp) _ (List.mem_map_of_mem ?_)
  rcases Nat.lt_or_ge b cfg.blocks.length with hb | hb
  · rw [block_of_lt hb] at hts
    exact List.mem_flatMap.mpr ⟨_, List.getElem_mem hb, List.mem_flatten.mpr ⟨ts, hts, ht⟩⟩
  · rw [block_of_le hb] at hts
    cases hts

/-- The bounded facts about the blocks of a graph with `n` blocks. -/
def factUniverse (n M : Nat) : Finset (Nat × Fact) :=
  let defs := (Finset.range M ×ˢ Finset.range M ×ˢ Finset.range M).image
    fun p => (⟨p.1, p.2.1, p.2.2⟩ : Def)
  let kinds := {Kind.present, Kind.loop} ∪ defs.image .reaches ∪ defs.image .modified
  Finset.range n ×ˢ (Finset.range M ×ˢ kinds).image fun p => ⟨p.1, p.2⟩

theorem mem_factUniverse {b : Nat} (hb : b < n) (hf : f.Bounded M) :
    (b, f) ∈ factUniverse n M := by
  obtain ⟨v, k⟩ := f
  obtain ⟨hv, hk⟩ := hf
  have hdef : ∀ d : Def, Def.Bounded M d →
      d ∈ (Finset.range M ×ˢ Finset.range M ×ˢ Finset.range M).image
        fun p => (⟨p.1, p.2.1, p.2.2⟩ : Def) := by
    intro d hd
    exact Finset.mem_image.mpr ⟨(d.blockNo, d.instrNo, d.assignmentNo), by simpa [Def.Bounded] using hd, rfl⟩
  refine Finset.mem_product.mpr ⟨Finset.mem_range.mpr hb, Finset.mem_image.mpr ⟨(v, k), ?_, rfl⟩⟩
  refine Finset.mem_product.mpr ⟨Finset.mem_range.mpr hv, ?_⟩
  cases k with
  | present | loop => simp
  | reaches d =>
    exact Finset.mem_union_left _ (Finset.mem_union_right _ (Finset.mem_image_of_mem _ (hdef d hk)))
  | modified d => exact Finset.mem_union_right _ (Finset.mem_image_of_mem _ (hdef d hk))

/-! ## One visit -/

/-- The graphs differ at most in what the analysis has found out. -/
structure SameCode (c c' : ControlFlowGraph) : Prop where
  length : c'.blocks.length = c.blocks.length
  instr : ∀ b, (c'.block b).instr = (c.block b).instr
  transfers : ∀ b, (c'.block b).transfers = (c.block b).transfers

theorem SameCode.successors {c c' : ControlFlowGraph} (h : SameCode c c') (b : Nat) :
    (c'.block b).successors = (c.block b).successors := by
  simp only [BasicBlock.successors, h.instr]

theorem SameCode.leave {c c' : ControlFlowGraph} (h : SameCode c c') (b : Nat) (vars : VarDefs) :
    leave (c'.block b) vars = leave (c.block b) vars := by
  simp only [ReachingDefinitions.leave, h.transfers]

def CfgHolds (cfg : ControlFlowGraph) (p : Nat × Fact) : Prop := BlockHolds (cfg.block p.1) p.2

/-- What merging `vars` into the blocks `es` does to the graph and to the list
of blocks that changed. -/
structure Merged (vars : VarDefs) (es : List Nat) (r r' : ControlFlowGraph × List Nat) : Prop where
  code : SameCode r.1 r'.1
  grows : ∀ p, CfgHolds r.1 p → CfgHolds r'.1 p
  incoming : ∀ p, CfgHolds r'.1 p → CfgHolds r.1 p ∨ (p.1 ∈ es ∧ Incoming p.1 vars p.2)
  arrives : ∀ e ∈ es, ∀ f, Holds vars f → CfgHolds r'.1 (e, f)
  queued : ∀ b, b ∈ r.2 → b ∈ r'.2
  edges : ∀ b, b ∈ r'.2 → b ∈ r.2 ∨ b ∈ es
  unchanged : ∀ b, b ∉ r'.2 → ∀ f, CfgHolds r'.1 (b, f) → CfgHolds r.1 (b, f)
  width : r'.2.length ≤ r.2.length + es.length
  fresh : r'.2 ≠ r.2 → ∃ p, p.1 ∈ es ∧ CfgHolds r'.1 p ∧ ¬ CfgHolds r.1 p

theorem Merged.nil (vars : VarDefs) (r : ControlFlowGraph × List Nat) : Merged vars [] r r where
  code := ⟨rfl, fun _ => rfl, fun _ => rfl⟩
  grows _ h := h
  incoming _ h := .inl h
  arrives _ h := by cases h
  queued _ h := h
  edges _ h := .inl h
  unchanged _ _ _ h := h
  width := by simp
  fresh h := absurd rfl h

theorem Merged.trans {vars : VarDefs} {es es' : List Nat} {r r' r'' : ControlFlowGraph × List Nat}
    (h : Merged vars es r r') (h' : Merged vars es' r' r'') : Merged vars (es ++ es') r r'' where
  code :=
    ⟨h'.code.length.trans h.code.length, fun b => (h'.code.instr b).trans (h.code.instr b),
      fun b => (h'.code.transfers b).trans (h.code.transfers b)⟩
  grows p hp := h'.grows p (h.grows p hp)
  incoming p hp := by
    rcases h'.incoming p hp with hp | ⟨he, hi⟩
    · rcases h.incoming p hp with hp | ⟨he, hi⟩
      · exact .inl hp
      · exact .inr ⟨List.mem_append_left _ he, hi⟩
    · exact .inr ⟨List.mem_append_right _ he, hi⟩
  arrives e he f hf := by
    rcases List.mem_append.mp he with he | he
    · exact h'.grows _ (h.arrives e he f hf)
    · exact h'.arrives e he f hf
  queued b hb := h'.queued b (h.queued b hb)
  edges b hb := by
    rcases h'.edges b hb with hb | hb
    · exact (h.edges b hb).imp_right (List.mem_append_left _)
    · exact .inr (List.mem_append_right _ hb)
  unchanged b hb f hf :=
    h.unchanged b (fun hn => hb (h'.queued b hn)) f (h'.unchanged b hb f hf)
  width := by
    have h1 := h.width
    have h2 := h'.width
    rw [List.length_append]
    omega
  fresh hne := by
    by_cases hq : r'.2 = r.2
    · obtain ⟨p, hp, hn, ho⟩ := h'.fresh (by rwa [hq])
      exact ⟨p, List.mem_append_right _ hp, hn, fun h0 => ho (h.grows p h0)⟩
    · obtain ⟨p, hp, hn, ho⟩ := h.fresh hq
      exact ⟨p, List.mem_append_left _ hp, h'.grows p hn, ho⟩

theorem merged_mergeEdge {r : ControlFlowGraph × List Nat} {edge : Nat}
    (he : edge < r.1.blocks.length) : Merged vars [edge] r (mergeEdge vars r edge) := by
  set m := mergeInto edge vars (r.1.block edge) with hm
  have hblock : ∀ b, (mergeEdge vars r edge).1.block b = if b = edge then m.1 else r.1.block b :=
    fun b => block_set he b m.1
  have hself : (mergeEdge vars r edge).1.block edge = m.1 := by rw [hblock, if_pos rfl]
  have hother : ∀ b, b ≠ edge → (mergeEdge vars r edge).1.block b = r.1.block b := by
    intro b hb
    rw [hblock, if_neg hb]
  have hqueue : (mergeEdge vars r edge).2 = if m.2 then edge :: r.2 else r.2 := rfl
  constructor
  case code =>
    refine ⟨by simp [mergeEdge], fun b => ?_, fun b => ?_⟩
    · by_cases hb : b = edge
      · rw [hb, hself, hm, (mergeInto_code _ _ _).1]
      · rw [hother b hb]
    · by_cases hb : b = edge
      · rw [hb, hself, hm, (mergeInto_code _ _ _).2]
      · rw [hother b hb]
  case grows =>
    rintro ⟨b, f⟩ h
    simp only [CfgHolds] at h ⊢
    by_cases hb : b = edge
    · subst hb
      rw [hself]
      exact blockHolds_mono_mergeInto h
    · rwa [hother b hb]
  case incoming =>
    rintro ⟨b, f⟩ h
    simp only [CfgHolds] at h ⊢
    by_cases hb : b = edge
    · subst hb
      rw [hself] at h
      exact (incoming_of_mergeInto h).imp_right fun hi => ⟨.head _, hi⟩
    · rw [hother b hb] at h
      exact .inl h
  case arrives =>
    intro e hmem f hf
    rw [List.mem_singleton.mp hmem, CfgHolds, hself]
    exact holds_mergeInto hf
  case queued =>
    intro b hb
    rw [hqueue]
    split
    · exact .tail _ hb
    · exact hb
  case edges =>
    intro b hb
    rw [hqueue] at hb
    split at hb
    · rcases List.mem_cons.mp hb with rfl | hb
      · exact .inr (.head _)
      · exact .inl hb
    · exact .inl hb
  case unchanged =>
    intro b hq f h
    simp only [CfgHolds] at h ⊢
    by_cases hb : b = edge
    · subst hb
      rw [hself] at h
      refine blockHolds_of_unchanged ?_ h
      by_contra hc
      rw [hqueue, if_pos (by simpa using hc)] at hq
      exact hq (.head _)
    · rwa [hother b hb] at h
  case width =>
    rw [hqueue]
    split <;> simp
  case fresh =>
    intro hne
    have hc : m.2 = true := by
      by_contra hc
      exact hne (by rw [hqueue, if_neg hc])
    obtain ⟨f, -, hf, hn⟩ := exists_new_of_changed hc
    refine ⟨(edge, f), .head _, ?_, hn⟩
    rw [CfgHolds, hself]
    exact hf

theorem merged_foldl (es : List Nat) (r : ControlFlowGraph × List Nat)
    (hes : ∀ e ∈ es, e < r.1.blocks.length) :
    Merged vars es r (es.foldl (mergeEdge vars) r) := by
  induction es generalizing r with
  | nil => exact .nil vars r
  | cons e es ih =>
    have h1 : Merged vars [e] r (mergeEdge vars r e) := merged_mergeEdge (hes e (.head _))
    refine h1.trans (ih _ fun e' he' => ?_)
    rw [h1.code.length]
    exact hes e' (.tail _ he')

/-! ## The invariant -/

theorem Holds.kind_ne_loop (h : Holds vars f) : f.kind ≠ .loop := by
  obtain ⟨defs, -, hd⟩ := h
  intro hk
  rw [hk] at hd
  exact hd

theorem BlockHolds.holds (h : BlockHolds block f) (hf : f.kind ≠ .loop) : Holds block.defs f :=
  h.resolve_right fun hl => hf hl.1

/-- Nothing is known about the variables before the analysis. -/
def Fresh (cfg : ControlFlowGraph) : Prop :=
  ∀ b ∈ cfg.blocks, b.defs = ∅ ∧ b.loopReachingVariables = []

/-- The state of the loop on the graph `c`, whose facts are bounded by `M`. -/
structure Inv (c : ControlFlowGraph) (M : Nat) (todo : List Nat) (cfg : ControlFlowGraph) :
    Prop where
  code : SameCode c cfg
  pending : ∀ b ∈ todo, b < c.blocks.length
  bounded : ∀ b f, CfgHolds cfg (b, f) → f.Bounded M
  propagated : ∀ p, (p = 0 ∨ ∃ f, Holds (cfg.block p).defs f) →
    p ∈ todo ∨ ∀ e, c.Edge p e → Le (leave (c.block p) (cfg.block p).defs) (cfg.block e).defs

section Visit

variable {c cfg : ControlFlowGraph} {M k : Nat} {todo : List Nat}

theorem Inv.merged (hwf : c.WellFormed) (hi : Inv c M todo cfg) (hk : k ∈ todo) :
    Merged (leave (c.block k) (cfg.block k).defs) (c.block k).successors (cfg, [])
      (visit k cfg) := by
  unfold visit
  rw [hi.code.leave, hi.code.successors]
  refine merged_foldl _ _ fun e he => ?_
  rw [hi.code.length]
  exact hwf.edge k (hi.pending k hk) e he

theorem Inv.bounded_visit
    (hM : ∀ b, ∀ ts ∈ (c.block b).transfers, ∀ t ∈ ts, TransferBounded M t)
    (hwf : c.WellFormed) (hi : Inv c M todo cfg) (hk : k ∈ todo) :
    ∀ b f, CfgHolds (visit k cfg).1 (b, f) → f.Bounded M := by
  intro b f hf
  rcases (hi.merged hwf hk).incoming _ hf with hf | ⟨-, hf⟩
  · exact hi.bounded b f hf
  · have hin : ∀ f, Holds (cfg.block k).defs f → f.Bounded M := fun f hf => hi.bounded k f (.inl hf)
    have hout := bounded_leave (hM k) hin
    by_cases hl : f.kind = .loop
    · exact ⟨(hout _ hf.varNo).1, by rw [hl]; trivial⟩
    · exact hout f (hf.holds hl)

/-- A block that is not queued by the visit leaves what it left before. -/
theorem Inv.leave_visit (hT : ∀ b < c.blocks.length, HasTransfers b (c.block b))
    (hwf : c.WellFormed) (hi : Inv c M todo cfg) (hk : k ∈ todo) {p : Nat}
    (hp : p ∉ (visit k cfg).2) (hlt : p < c.blocks.length) :
    Le (leave (c.block p) ((visit k cfg).1.block p).defs)
      (leave (c.block p) (cfg.block p).defs) := by
  refine leave_mono (hT p hlt) fun f hf => ?_
  have := (hi.merged hwf hk).unchanged p hp f (.inl hf)
  exact this.holds hf.kind_ne_loop

theorem Inv.visit (hT : ∀ b < c.blocks.length, HasTransfers b (c.block b))
    (hM : ∀ b, ∀ ts ∈ (c.block b).transfers, ∀ t ∈ ts, TransferBounded M t)
    (hwf : c.WellFormed) (hi : Inv c M todo cfg) (hk : k ∈ todo) :
    Inv c M (Worklist.requeue k (visit k cfg).2 todo) (visit k cfg).1 := by
  have hm := hi.merged hwf hk
  have hcode : SameCode c (ReachingDefinitions.visit k cfg).1 :=
    ⟨hm.code.length.trans hi.code.length, fun b => (hm.code.instr b).trans (hi.code.instr b),
      fun b => (hm.code.transfers b).trans (hi.code.transfers b)⟩
  constructor
  case code => exact hcode
  case pending =>
    intro b hb
    rcases Worklist.mem_requeue.mp hb with hb | ⟨hb, -⟩
    · rcases hm.edges b hb with hb | hb
      · cases hb
      · exact hwf.edge k (hi.pending k hk) b hb
    · exact hi.pending b hb
  case bounded => exact hi.bounded_visit hM hwf hk
  case propagated =>
    intro p hp
    rw [Worklist.mem_requeue]
    by_cases hq : p ∈ (ReachingDefinitions.visit k cfg).2
    · exact .inl (.inl hq)
    have hlt : p < c.blocks.length := by
      rcases Nat.lt_or_ge p c.blocks.length with h | h
      · exact h
      · rcases hp with rfl | ⟨f, hf⟩
        · exact hwf.entry
        · rw [block_of_le (by rw [hcode.length]; exact h)] at hf
          obtain ⟨defs, hl, -⟩ := hf
          cases hl
    have hleave := hi.leave_visit hT hwf hk hq hlt
    by_cases hpk : p = k
    · -- the visited block: its successors have received everything
      subst hpk
      refine .inr fun e he f hf => ?_
      exact BlockHolds.holds (hm.arrives e he f (hleave f hf)) hf.kind_ne_loop
    · have hp' : p = 0 ∨ ∃ f, Holds (cfg.block p).defs f := by
        refine hp.imp_right fun ⟨f, hf⟩ => ⟨f, ?_⟩
        exact BlockHolds.holds (hm.unchanged p hq f (.inl hf)) hf.kind_ne_loop
      rcases hi.propagated p hp' with ht | hall
      · exact .inl (.inr ⟨ht, hpk⟩)
      · refine .inr fun e he f hf => ?_
        have := hm.grows (e, f) (.inl (hall e he f (hleave f hf)))
        exact BlockHolds.holds this hf.kind_ne_loop

end Visit

end Solang.Codegen.ReachingDefinitions
