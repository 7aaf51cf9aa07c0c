import Solang.Codegen.Subexpressions.AvailableExpressions
import Solang.Lib.Flow
import Solang.Lib.Fuel

/-!
# Common ancestors

`anticipated_expressions.rs`: the block in which an expression of two blocks can be evaluated. The flow from
both blocks goes up the graph, and all of it arrives at the blocks that are on every path to both.
-/

namespace Solang.Codegen.Subexpressions

open Flow Fuel

/-- `u16::MAX` -/
def maxDepth : Nat := 65535

/-- `blocks_depth`, with the depths that it has changed -/
def blocksDepth (dag : Nat → List Nat) : Nat → Nat → Nat → (Nat → Nat) → Option (Nat × (Nat → Nat))
  | 0, _, _, _ => none
  | fuel + 1, block, level, depth =>
    if level < depth block then do
      let (levels, depth) ← (dag block).foldlM (fun (s : List Nat × (Nat → Nat)) child => do
        let (childLevel, depth) ← blocksDepth dag fuel child (level + 1) s.2
        some (s.1 ++ [childLevel], depth)) ([], Function.update depth block level)
      some (levels.min?.getD maxDepth, depth)
    else some (level, depth)

/-- The `blocks` of the graph are the numbers below it. -/
structure AnticipatedExpressions where
  blocks : Nat
  reverseSets : Nat → Option AvailableExpressionSet
  reverseDag : Nat → List Nat
  traversingOrder : List (Nat × Bool)
  depth : Nat → Nat

namespace AnticipatedExpressions

def new (dag : Nat → List Nat) (blocks : Nat) (reverseDag : Nat → List Nat)
    (traversingOrder : List (Nat × Bool)) (fuel : Nat) : Option AnticipatedExpressions := do
  let (_, depth) ← blocksDepth dag fuel 0 0 fun _ => maxDepth
  some ⟨blocks, fun _ => none, reverseDag, traversingOrder, depth⟩

/-- An edge up: the set is united with the one that is there, if there is one. -/
def passSet (unionSets : AvailableExpressionSet → AvailableExpressionSet → AvailableExpressionSet)
    (curSet : AvailableExpressionSet) (sets : Nat → Option AvailableExpressionSet) (edge : Nat) :
    Nat → Option AvailableExpressionSet :=
  Function.update sets edge (some ((sets edge).elim curSet fun set => unionSets set curSet))

/-- `calculate_anticipated_expressions`; `process` is what the instructions of a block do to its set. -/
def calculateAnticipatedExpressions (process : Nat → Bool → AvailableExpressionSet → AvailableExpressionSet)
    (unionSets : AvailableExpressionSet → AvailableExpressionSet → AvailableExpressionSet)
    (a : AnticipatedExpressions) : AnticipatedExpressions :=
  let visit sets (block : Nat × Bool) :=
    let curSet := process block.1 block.2 ((sets block.1).getD ⟨∅, ∅⟩)
    (a.reverseDag block.1).foldl (passSet unionSets curSet) sets
  { a with reverseSets := a.traversingOrder.foldl visit a.reverseSets }

def sourceFlow : ℚ := 1000

/-- `calculate_flow` -/
def calculateFlow (a : AnticipatedExpressions) (block₁ block₂ : Nat) : Nat → ℚ :=
  spread a.reverseDag (a.traversingOrder.map Prod.fst)
    (Function.update (Function.update (fun _ => 0) block₁ sourceFlow) block₂ sourceFlow)

/-- The body of the loop of `find_ancestor` -/
def tryBlock (a : AnticipatedExpressions) (flow : Nat → ℚ) (expr : Expression) (candidate : Option Nat)
    (blockNo : Nat) : Option (Option Nat) :=
  if (candidate.all fun c => a.depth c < a.depth blockNo) && 2 * sourceFlow = flow blockNo then do
    let set ← a.reverseSets blockNo
    some (if (set.findExpression expr).isSome then some blockNo else candidate)
  else some candidate

/-- `find_ancestor` -/
def findAncestor (a : AnticipatedExpressions) (block₁ block₂ : Nat) (expr : Expression) :
    Option (Option Nat) :=
  if block₁ = block₂ then some (some block₁)
  else (List.range a.blocks).foldlM (a.tryBlock (a.calculateFlow block₁ block₂) expr) none

end AnticipatedExpressions

/-! ## Depths -/

section Depths

variable {dag : Nat → List Nat} {depth depth' : Nat → Nat} {level : Nat}

/-- A way of this length from the first block -/
inductive Walk (dag : Nat → List Nat) : Nat → Nat → Prop where
  | entry : Walk dag 0 0
  | step {n b e : Nat} (h : Walk dag n b) (he : e ∈ dag b) : Walk dag (n + 1) e

/-- The blocks that are not being visited have passed their depths on. -/
def PassedOn (dag : Nat → List Nat) (visiting : List Nat) (depth : Nat → Nat) : Prop :=
  ∀ u ∉ visiting, depth u < maxDepth → ∀ c ∈ dag u, depth c ≤ depth u + 1

/-- Depths are the lengths of ways. -/
def Reached (dag : Nat → List Nat) (depth : Nat → Nat) : Prop :=
  ∀ b, depth b < maxDepth → Walk dag (depth b) b

/-- What the visits of `bs` at a level do to the depths -/
structure Relaxes (dag : Nat → List Nat) (bs : List Nat) (level : Nat) (depth depth' : Nat → Nat) : Prop where
  le : ∀ b, depth' b ≤ depth b
  visited : ∀ b ∈ bs, depth' b ≤ level
  changed : ∀ b, depth' b = depth b ∨ level ≤ depth' b
  reached : (∀ b ∈ bs, Walk dag level b) → Reached dag depth → Reached dag depth'
  passedOn : ∀ visiting, PassedOn dag visiting depth → PassedOn dag visiting depth'

theorem Relaxes.cons {b : Nat} {bs : List Nat} {depth'' : Nat → Nat} (h : Relaxes dag [b] level depth depth')
    (h' : Relaxes dag bs level depth' depth'') : Relaxes dag (b :: bs) level depth depth'' where
  le c := (h'.le c).trans (h.le c)
  visited c hc := by
    obtain rfl | hc := List.mem_cons.mp hc
    · exact (h'.le c).trans (h.visited c List.mem_cons_self)
    · exact h'.visited c hc
  changed c := by
    obtain hc | hc := h'.changed c
    · rw [hc]
      exact h.changed c
    · exact .inr hc
  reached hbs hdepth := h'.reached (fun c hc => hbs c (List.mem_cons_of_mem b hc))
    (h.reached (fun c hc => hbs c (List.mem_singleton.mp hc ▸ List.mem_cons_self)) hdepth)
  passedOn visiting hdepth := h'.passedOn visiting (h.passedOn visiting hdepth)

/-- The children of a block are visited one level deeper. -/
theorem Relaxes.block {block : Nat} (hlt : level < depth block)
    (h : Relaxes dag (dag block) (level + 1) (Function.update depth block level) depth') :
    Relaxes dag [block] level depth depth' := by
  have hself : depth' block = level := by
    have hle := h.le block
    have hchanged := h.changed block
    rw [Function.update_self] at hle hchanged
    omega
  have hother : ∀ b, b ≠ block → Function.update depth block level b = depth b := fun b hb =>
    Function.update_of_ne hb _ _
  refine ⟨fun b => ?_, by simp [hself], fun b => ?_, fun hwalk hdepth => ?_, fun visiting hdepth => ?_⟩
  · by_cases hb : b = block
    · rw [hb, hself]
      exact hlt.le
    · exact hother b hb ▸ h.le b
  · by_cases hb : b = block
    · exact .inr (hb ▸ hself.ge)
    · exact (hother b hb ▸ h.changed b).imp_right fun hle => Nat.le_of_succ_le hle
  · have hblock := hwalk block (List.mem_singleton_self block)
    refine h.reached (fun c hc => hblock.step hc) fun b hb => ?_
    by_cases hbb : b = block
    · rw [hbb, Function.update_self]
      exact hblock
    · rw [hother b hbb] at hb ⊢
      exact hdepth b hb
  · intro u hu hlt' c hc
    by_cases hub : u = block
    · rw [hub, hself]
      exact h.visited c (hub ▸ hc)
    · refine h.passedOn (block :: visiting) (fun v hv hlt c hc => ?_) u (by simp [hu, hub]) hlt' c hc
      obtain ⟨hvb, hv⟩ := List.ne_and_not_mem_of_not_mem_cons hv
      rw [hother v hvb] at hlt ⊢
      refine le_trans ?_ (hdepth v hv hlt c hc)
      by_cases hcb : c = block
      · rw [hcb, Function.update_self]
        exact Nat.le_of_lt ‹level < depth block›
      · rw [hother c hcb]

/-- The levels grow, so the recursion comes to an end, also around a cycle. -/
theorem blocksDepth_relaxes (dag : Nat → List Nat) {k : Nat} (hk : level + k = maxDepth) (block : Nat)
    (hmax : ∀ b, depth b ≤ maxDepth) :
    ∃ r, Settles (fun fuel => blocksDepth dag fuel block level depth) r ∧
      Relaxes dag [block] level depth r.2 := by
  induction k generalizing level block depth with
  | zero =>
    have hnot : ¬ level < depth block := by have := hmax block; omega
    exact ⟨(level, depth), settles_at 1 fun fuel => by rw [blocksDepth, if_neg hnot],
      fun _ => le_rfl, by simpa using hnot, fun _ => .inl rfl, fun _ h => h, fun _ h => h⟩
  | succ k ih =>
    by_cases hlt : level < depth block
    · have hchildren : ∀ (cs : List Nat) (s : List Nat × (Nat → Nat)), (∀ b, s.2 b ≤ maxDepth) → ∃ s',
          Settles (fun fuel => cs.foldlM (fun (s : List Nat × (Nat → Nat)) child => do
            let (childLevel, depth) ← blocksDepth dag fuel child (level + 1) s.2
            some (s.1 ++ [childLevel], depth)) s) s' ∧ Relaxes dag cs (level + 1) s.2 s'.2 := by
        intro cs
        induction cs with
        | nil =>
          exact fun s _ => ⟨s, settles_const s, fun _ => le_rfl, nofun, fun _ => .inl rfl, fun _ h => h,
            fun _ h => h⟩
        | cons c cs ihcs =>
          intro s hs
          obtain ⟨r, hr, hrelax⟩ := ih (show level + 1 + k = maxDepth by omega) c hs
          obtain ⟨s', hs', hrelax'⟩ := ihcs (s.1 ++ [r.1], r.2) fun b => (hrelax.le b).trans (hs b)
          have hround := hr.bind (g := fun _ x => some (s.1 ++ [x.1], x.2)) (settles_const _)
          refine ⟨s', ?_, hrelax.cons hrelax'⟩
          simp only [List.foldlM_cons]
          exact hround.bind hs'
      obtain ⟨s', hs', hrelax⟩ := hchildren (dag block) ([], Function.update depth block level) fun b => by
        dsimp only
        by_cases hb : b = block
        · rw [hb, Function.update_self]
          omega
        · rw [Function.update_of_ne hb]
          exact hmax b
      have hresult := hs'.bind (g := fun _ s => some (s.1.min?.getD maxDepth, s.2)) (settles_const _)
      refine ⟨(s'.1.min?.getD maxDepth, s'.2), hresult.succ fun fuel => ?_, .block hlt hrelax⟩
      rw [blocksDepth, if_pos hlt]
    · exact ⟨(level, depth), settles_at 1 fun fuel => by rw [blocksDepth, if_neg hlt],
        fun _ => le_rfl, by simpa using hlt, fun _ => .inl rfl, fun _ h => h, fun _ h => h⟩

/-- The length of a shortest way to each block, up to the greatest one -/
def Shortest (dag : Nat → List Nat) (depth : Nat → Nat) : Prop :=
  ∀ b, depth b ≤ maxDepth ∧ (∀ n, Walk dag n b → depth b ≤ n) ∧ (depth b < maxDepth → Walk dag (depth b) b)

theorem blocksDepth_shortest (dag : Nat → List Nat) :
    ∃ r, Settles (fun fuel => blocksDepth dag fuel 0 0 fun _ => maxDepth) r ∧ Shortest dag r.2 := by
  obtain ⟨r, hr, h⟩ := blocksDepth_relaxes dag (Nat.zero_add maxDepth) 0 fun _ => le_rfl
  have hpassed := h.passedOn [] fun u _ hlt => absurd hlt (Nat.lt_irrefl _)
  have hentry : ∀ b ∈ [0], Walk dag 0 b := fun b hb => by
    rw [List.mem_singleton.mp hb]
    exact .entry
  have hreached := h.reached hentry fun b hlt => absurd hlt (Nat.lt_irrefl _)
  refine ⟨r, hr, fun b => ⟨h.le b, fun n hwalk => ?_, hreached b⟩⟩
  induction hwalk with
  | entry => exact h.visited 0 (List.mem_singleton_self 0)
  | @step n b e _ he ih =>
    by_cases hlt : r.2 b < maxDepth
    · exact (hpassed b List.not_mem_nil hlt e he).trans (Nat.succ_le_succ ih)
    · have := h.le e
      omega

end Depths

/-! ## Ancestors -/

/-- The graph of the blocks without the edges back, entered at the first one: a block comes before
those above it. -/
structure Rooted (dag : Nat → List Nat) (blocks : Nat) (reverseDag : Nat → List Nat)
    (traversingOrder : List (Nat × Bool)) : Prop where
  upward : Upward reverseDag (traversingOrder.map Prod.fst)
  root : ∀ b ∈ traversingOrder.map Prod.fst, reverseDag b = [] ↔ b = 0
  mirror : ∀ b p, p ∈ reverseDag b ↔ b ∈ dag p
  bound : ∀ b ∈ traversingOrder.map Prod.fst, b < blocks

namespace AnticipatedExpressions

variable {a : AnticipatedExpressions} {dag reverseDag : Nat → List Nat} {traversingOrder : List (Nat × Bool)}
  {blocks block₁ block₂ : Nat} {expr : Expression}

/-- The block is on every path to both. -/
def CommonDominator (a : AnticipatedExpressions) (block₁ block₂ v : Nat) : Prop :=
  OnEveryPath a.reverseDag v block₁ ∧ OnEveryPath a.reverseDag v block₂

/-- The expression is anticipated in the block. -/
def Anticipates (a : AnticipatedExpressions) (expr : Expression) (v : Nat) : Prop :=
  ∃ set, a.reverseSets v = some set ∧ (set.findExpression expr).isSome

/-- The flow of both blocks, or of the one -/
def fullFlow (block₁ block₂ : Nat) : ℚ := if block₁ = block₂ then sourceFlow else 2 * sourceFlow

section Flow

variable (hrooted : Rooted dag a.blocks a.reverseDag a.traversingOrder)
  (h₁ : block₁ ∈ a.traversingOrder.map Prod.fst) (h₂ : block₂ ∈ a.traversingOrder.map Prod.fst)

include hrooted h₁ h₂

theorem flow_eq_sum (v : Nat) :
    a.calculateFlow block₁ block₂ v = if block₁ = block₂
      then sourceFlow * share a.reverseDag v (a.traversingOrder.map Prod.fst) block₁
      else sourceFlow * share a.reverseDag v (a.traversingOrder.map Prod.fst) block₁ +
        sourceFlow * share a.reverseDag v (a.traversingOrder.map Prod.fst) block₂ := by
  have hone : ∀ b ∈ a.traversingOrder.map Prod.fst, ∀ f : Nat → ℚ,
      ((a.traversingOrder.map Prod.fst).map fun u => (if u = b then sourceFlow else 0) * f u).sum =
        sourceFlow * f b := by
    intro b hb f
    have hcount := sum_count _ hrooted.upward.nodup (m := [b]) (by simpa using hb) fun u => sourceFlow * f u
    rw [List.map_singleton, List.sum_singleton] at hcount
    rw [← hcount]
    refine congrArg List.sum (List.map_congr_left fun u _ => ?_)
    by_cases hu : u = b
    · simp [hu]
    · simp [hu, Ne.symm hu]
  have hv : v ∉ a.traversingOrder.map Prod.fst →
      Function.update (Function.update (fun _ => (0 : ℚ)) block₁ sourceFlow) block₂ sourceFlow v = 0 := by
    intro hv
    rw [Function.update_of_ne fun h : v = block₂ => hv (h ▸ h₂),
      Function.update_of_ne fun h : v = block₁ => hv (h ▸ h₁)]
  rw [calculateFlow, spread_eq hrooted.upward, ite_eq_left_iff.mpr hv, add_zero]
  split
  next heq =>
    rw [← hone block₁ h₁]
    refine congrArg List.sum (List.map_congr_left fun u _ => ?_)
    rw [← heq, Function.update_idem, Function.update_apply]
  next hne =>
    rw [← hone block₁ h₁, ← hone block₂ h₂, ← List.sum_map_add]
    refine congrArg List.sum (List.map_congr_left fun u _ => ?_)
    rw [Function.update_apply, Function.update_apply, ← add_mul]
    by_cases hu : u = block₂
    · rw [if_pos hu, if_pos hu, if_neg (hu ▸ Ne.symm hne), zero_add]
    · rw [if_neg hu, if_neg hu, add_zero]

/-- The flow is kept, and all of it arrives at the blocks that are on every path. -/
theorem flow_full_iff (v : Nat) :
    a.calculateFlow block₁ block₂ v = fullFlow block₁ block₂ ↔ a.CommonDominator block₁ block₂ v := by
  obtain ⟨⟨-, hle₁⟩, hiff₁⟩ := share_spec hrooted.upward v block₁ h₁
  obtain ⟨⟨-, hle₂⟩, hiff₂⟩ := share_spec hrooted.upward v block₂ h₂
  rw [flow_eq_sum hrooted h₁ h₂, CommonDominator, ← hiff₁, ← hiff₂, fullFlow, sourceFlow]
  split
  next heq =>
    rw [← heq, and_self]
    constructor <;> intro h <;> linarith
  next =>
    constructor
    · exact fun h => ⟨by linarith, by linarith⟩
    · rintro ⟨h, h'⟩
      linarith

end Flow

/-- What a step of a loop brings about, and every step keeps, holds after the loop. -/
theorem foldl_of_mem {α β : Type} {f : β → α → β} {P : β → Prop} {x : α} (hx : ∀ s, P (f s x))
    (hkeep : ∀ s y, P s → P (f s y)) {l : List α} (h : x ∈ l) (s : β) : P (l.foldl f s) := by
  obtain ⟨l₁, l₂, rfl⟩ := List.append_of_mem h
  rw [List.foldl_append, List.foldl_cons]
  exact List.foldlRecOn l₂ f (hx _) fun s hs y _ => hkeep s y hs

/-- The sets go up all edges. -/
theorem isSome_reverseSets {process : Nat → Bool → AvailableExpressionSet → AvailableExpressionSet}
    {unionSets : AvailableExpressionSet → AvailableExpressionSet → AvailableExpressionSet} {block : Nat × Bool}
    {p : Nat} (hblock : block ∈ a.traversingOrder) (hp : p ∈ a.reverseDag block.1) :
    ((a.calculateAnticipatedExpressions process unionSets).reverseSets p).isSome := by
  have hpass : ∀ curSet sets edge, (sets p).isSome → ((passSet unionSets curSet sets edge) p).isSome := by
    intro curSet sets edge h
    rw [passSet, Function.update_apply]
    split
    · rfl
    · exact h
  refine foldl_of_mem (P := fun sets : Nat → Option AvailableExpressionSet => (sets p).isSome)
    (fun sets => ?_) (fun sets b h => ?_) hblock _
  · refine foldl_of_mem (P := fun sets : Nat → Option AvailableExpressionSet => (sets p).isSome)
      (fun sets => ?_) (fun sets e h => hpass _ sets e h) hp _
    rw [passSet, Function.update_self]
    rfl
  · exact List.foldlRecOn (motive := fun sets : Nat → Option AvailableExpressionSet => (sets p).isSome) _ _ h
      fun sets hs e _ => hpass _ sets e hs

/-- `r` is one of the deepest of these blocks, if there is one. -/
def Deepest (depth : Nat → Nat) (P : Nat → Prop) (r : Option Nat) : Prop :=
  (∀ c, r = some c → P c) ∧ ∀ v, P v → ∃ c, r = some c ∧ depth v ≤ depth c

/-- The block has the whole flow of two blocks, and the expression is anticipated in it. -/
def Suits (a : AnticipatedExpressions) (flow : Nat → ℚ) (expr : Expression) (v : Nat) : Prop :=
  2 * sourceFlow = flow v ∧ a.Anticipates expr v

theorem tryBlock_spec {P : Nat → Prop} {flow : Nat → ℚ} {b : Nat} {candidate : Option Nat}
    (hset : 2 * sourceFlow = flow b → (a.reverseSets b).isSome) (h : Deepest a.depth P candidate) :
    ∃ r, a.tryBlock flow expr candidate b = some r ∧
      Deepest a.depth (fun v => P v ∨ v = b ∧ a.Suits flow expr v) r := by
  -- a block that is not tried, or in which nothing is found, does not suit or is not deeper
  have hkeep : (a.Suits flow expr b → ∃ c, candidate = some c ∧ a.depth b ≤ a.depth c) →
      Deepest a.depth (fun v => P v ∨ v = b ∧ a.Suits flow expr v) candidate := fun hb =>
    ⟨fun c hc => .inl (h.1 c hc), fun v hv => hv.elim (h.2 v) fun ⟨heq, hsuits⟩ => heq ▸ hb (heq ▸ hsuits)⟩
  unfold tryBlock
  split
  next htried =>
    simp only [Bool.and_eq_true, decide_eq_true_eq] at htried
    obtain ⟨hdeeper, hflow⟩ := htried
    obtain ⟨set, hset⟩ := Option.isSome_iff_exists.mp (hset hflow)
    rw [hset, Option.bind_eq_bind, Option.bind_some]
    refine ⟨_, rfl, ?_⟩
    split
    next hfound =>
      refine ⟨fun c hc => .inr ?_, fun v hv => ⟨b, rfl, ?_⟩⟩
      · obtain rfl := Option.some.inj hc
        exact ⟨rfl, hflow, set, hset, hfound⟩
      · obtain hv | ⟨rfl, -⟩ := hv
        · obtain ⟨c, rfl, hle⟩ := h.2 v hv
          exact hle.trans (Nat.le_of_lt (by simpa using hdeeper))
        · exact le_rfl
    next hfound =>
      refine hkeep fun ⟨_, set', hset', hfound'⟩ => absurd ?_ hfound
      rwa [Option.some.inj (hset.symm.trans hset')]
  next htried =>
    refine ⟨candidate, rfl, hkeep fun ⟨hflow, _⟩ => ?_⟩
    cases candidate with
    | none => exact absurd (by simp [hflow]) htried
    | some c => exact ⟨c, rfl, Nat.le_of_not_lt fun hlt => htried (by simp [hlt, hflow])⟩

/-- The loop keeps the deepest block. -/
theorem tryBlocks_spec {flow : Nat → ℚ} (hsets : ∀ b, 2 * sourceFlow = flow b → (a.reverseSets b).isSome)
    {P : Nat → Prop} {candidate : Option Nat} (l : List Nat) (h : Deepest a.depth P candidate) :
    ∃ r, l.foldlM (a.tryBlock flow expr) candidate = some r ∧
      Deepest a.depth (fun v => P v ∨ v ∈ l ∧ a.Suits flow expr v) r := by
  induction l generalizing candidate P with
  | nil => exact ⟨candidate, rfl, by simpa using h⟩
  | cons b l ih =>
    obtain ⟨next, hnext, h⟩ := tryBlock_spec (hsets b) h
    obtain ⟨r, hr, h⟩ := ih h
    refine ⟨r, by rw [List.foldlM_cons, hnext, Option.bind_eq_bind, Option.bind_some, hr], ?_⟩
    simpa only [or_assoc, ← or_and_right, ← List.mem_cons] using h

theorem findAncestor_spec (hrooted : Rooted dag a.blocks a.reverseDag a.traversingOrder)
    (h₁ : block₁ ∈ a.traversingOrder.map Prod.fst) (h₂ : block₂ ∈ a.traversingOrder.map Prod.fst)
    (hne : block₁ ≠ block₂)
    (hsets : ∀ block ∈ a.traversingOrder, ∀ p ∈ a.reverseDag block.1, (a.reverseSets p).isSome) :
    ∃ r, a.findAncestor block₁ block₂ expr = some r ∧
      Deepest a.depth (fun v => a.CommonDominator block₁ block₂ v ∧ a.Anticipates expr v) r := by
  have hflow : ∀ v, 2 * sourceFlow = a.calculateFlow block₁ block₂ v ↔
      a.CommonDominator block₁ block₂ v := fun v => by
    rw [← flow_full_iff hrooted h₁ h₂, fullFlow, if_neg hne, eq_comm]
  have hset : ∀ b, 2 * sourceFlow = a.calculateFlow block₁ block₂ b → (a.reverseSets b).isSome := by
    intro b hb
    by_contra hnone
    have hkept : ∀ u ∈ a.traversingOrder.map Prod.fst, b ∉ a.reverseDag u := by
      intro u hu hbu
      obtain ⟨block, hblock, rfl⟩ := List.mem_map.mp hu
      exact hnone (hsets block hblock b hbu)
    rw [calculateFlow, spread_of_no_parent hkept, Function.update_apply, Function.update_apply] at hb
    revert hb
    unfold sourceFlow
    split
    · norm_num
    · split <;> norm_num
  have hmem : ∀ v, a.CommonDominator block₁ block₂ v → v ∈ List.range a.blocks := by
    intro v hv
    refine List.mem_range.mpr (hrooted.bound v ?_)
    by_contra hnot
    have hone := (share_spec hrooted.upward v block₁ h₁).2.mpr hv.1
    rw [share_eq_zero hnot] at hone
    exact zero_ne_one hone
  obtain ⟨r, hr, h⟩ := @tryBlocks_spec a expr _ hset (fun _ => False) none (List.range a.blocks) ⟨nofun, nofun⟩
  refine ⟨r, by rw [findAncestor, if_neg hne, hr], fun c hc => ?_, fun v ⟨hv, hfound⟩ => ?_⟩
  · obtain ⟨-, hc, hfound⟩ := (h.1 c hc).resolve_left id
    exact ⟨(hflow c).mp hc, hfound⟩
  · exact h.2 v (.inr ⟨hmem v hv, (hflow v).mpr hv, hfound⟩)

/-- All flow arrives exactly at the common dominators. Of those in which the expression is anticipated,
the ancestor is one of the greatest depth; it is the block itself where both are the same. -/
theorem findAncestor_deepest (hrooted : Rooted dag blocks reverseDag traversingOrder)
    (process : Nat → Bool → AvailableExpressionSet → AvailableExpressionSet)
    (unionSets : AvailableExpressionSet → AvailableExpressionSet → AvailableExpressionSet)
    (h₁ : block₁ ∈ traversingOrder.map Prod.fst) (h₂ : block₂ ∈ traversingOrder.map Prod.fst)
    (expr : Expression) :
    ∃ new, Settles (AnticipatedExpressions.new dag blocks reverseDag traversingOrder) new ∧
      Shortest dag new.depth ∧
      let a := new.calculateAnticipatedExpressions process unionSets
      (∀ v, a.calculateFlow block₁ block₂ v = fullFlow block₁ block₂ ↔ a.CommonDominator block₁ block₂ v) ∧
      ∃ r, a.findAncestor block₁ block₂ expr = some r ∧ if block₁ = block₂ then r = some block₁
        else Deepest a.depth (fun v => a.CommonDominator block₁ block₂ v ∧ a.Anticipates expr v) r := by
  obtain ⟨r, hr, hshortest⟩ := blocksDepth_shortest dag
  refine ⟨⟨blocks, fun _ => none, reverseDag, traversingOrder, r.2⟩, hr.bind (settles_const _), hshortest,
    fun v => flow_full_iff hrooted h₁ h₂ v, ?_⟩
  split
  next heq => exact ⟨some block₁, if_pos heq, rfl⟩
  next hne =>
    let a : AnticipatedExpressions := ⟨blocks, fun _ => none, reverseDag, traversingOrder, r.2⟩
    exact @findAncestor_spec (a.calculateAnticipatedExpressions process unionSets) dag block₁ block₂ expr
      hrooted h₁ h₂ hne fun block hblock p hp => isSome_reverseSets hblock hp

end AnticipatedExpressions

namespace Sample

/-- The second block branches to the last two. -/
def fork : Nat → List Nat
  | 0 => [1]
  | 1 => [2, 3]
  | _ => []

def forkReversed : Nat → List Nat
  | 1 => [0]
  | 2 => [1]
  | 3 => [1]
  | _ => []

def forkOrder : List (Nat × Bool) := [(3, false), (2, false), (1, false), (0, false)]

theorem fork_rooted : Rooted fork 4 forkReversed forkOrder where
  upward := .cons (by decide) (by decide) (.cons (by decide) (by decide) (.cons (by decide) (by decide)
    (.cons (by decide) (by decide) .nil)))
  root := by decide
  mirror b p := by
    constructor <;> intro h
    · unfold forkReversed at h
      split at h <;> simp_all [fork]
    · unfold fork at h
      split at h
      · rw [List.mem_singleton.mp h]
        exact List.mem_singleton_self 0
      · obtain rfl | h := List.mem_cons.mp h
        · exact List.mem_singleton_self 1
        · rw [List.mem_singleton.mp h]
          exact List.mem_singleton_self 1
      · exact absurd h List.not_mem_nil
  bound := by decide

/-- The first argument goes up from the last two blocks. -/
def argumentSets : AvailableExpressionSet :=
  ⟨∅, (∅ : IndexMap ExpressionType NodeId).insert (.functionArg 0) 1⟩

theorem fork_ancestor : ∃ new, Settles (AnticipatedExpressions.new fork 4 forkReversed forkOrder) new ∧
    Shortest fork new.depth ∧
    let a := new.calculateAnticipatedExpressions (fun _ _ _ => argumentSets) fun set _ => set
    (∀ v, a.calculateFlow 2 3 v = AnticipatedExpressions.fullFlow 2 3 ↔ a.CommonDominator 2 3 v) ∧
    ∃ r, a.findAncestor 2 3 (.functionArg .bool 0) = some r ∧ if 2 = 3 then r = some 2 else
      AnticipatedExpressions.Deepest a.depth
        (fun v => a.CommonDominator 2 3 v ∧ a.Anticipates (.functionArg .bool 0) v) r :=
  AnticipatedExpressions.findAncestor_deepest fork_rooted (fun _ _ _ => argumentSets) (fun set _ => set)
    (by decide) (by decide) (.functionArg .bool 0)

/-- The second block is on all paths to the last two, but where nothing is anticipated no block is found. -/
theorem fork_nothing_anticipated : Rooted fork 4 forkReversed forkOrder ∧
    OnEveryPath forkReversed 1 2 ∧ OnEveryPath forkReversed 1 3 ∧
    (AnticipatedExpressions.new fork 4 forkReversed forkOrder 5).map (fun new =>
      (new.calculateAnticipatedExpressions (fun _ _ _ => ⟨∅, ∅⟩) fun set _ => set).findAncestor 2 3
        (.functionArg .bool 0)) = some (some none) := by
  have hstep : ∀ b, 1 ≠ b → forkReversed b = [1] → OnEveryPath forkReversed 1 b := fun b hb h => by
    rw [onEveryPath_step (h ▸ List.cons_ne_nil _ _) hb, h, List.forall_mem_singleton]
    exact onEveryPath_self 1
  exact ⟨fork_rooted, hstep 2 (by decide) rfl, hstep 3 (by decide) rfl, by decide +kernel⟩

end Sample

end Solang.Codegen.Subexpressions
