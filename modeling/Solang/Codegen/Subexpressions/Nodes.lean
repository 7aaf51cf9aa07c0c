import Solang.Codegen.Subexpressions.AvailableExpressions

/-!
# Nodes of the available expressions

What stays true of a set through its history. A node keeps its key, a number is not used again,
and a node that is found was there, under the same key, ever since its number was taken.
-/

namespace Solang.Codegen.Subexpressions

namespace ExpressionType

def operands : ExpressionType → List NodeId
  | binaryOperation left right _ => [left, right]
  | unaryOperation operand _ => [operand]
  | _ => []

end ExpressionType

namespace AvailableExpressionSet

abbrev node? (s : AvailableExpressionSet) (id : NodeId) : Option BasicExpression :=
  s.expressionMemory.lookup id

abbrev id? (s : AvailableExpressionSet) (key : ExpressionType) : Option NodeId := s.exprMap.lookup key

/-- A key leads to a node that has this key. -/
def Keyed (s : AvailableExpressionSet) : Prop :=
  ∀ ⦃key id⦄, s.id? key = some id → ∃ node, s.node? id = some node ∧ node.exprType = key

theorem Keyed.inj {s : AvailableExpressionSet} (hs : s.Keyed) {key key' : ExpressionType} {id : NodeId}
    (h : s.id? key = some id) (h' : s.id? key' = some id) : key = key' := by
  rcases hs h with ⟨node, hnode, rfl⟩
  rcases hs h' with ⟨node', hnode', rfl⟩
  rw [hnode, Option.some_inj] at hnode'
  rw [hnode']

end AvailableExpressionSet

/-- The operators of which one node stands for both orders of the operands -/
def Operator.IsCommutative (operator : Operator) : Prop :=
  ∃ op, binaryOperator op = some operator ∧ isCommutative op = true

structure State.Consistent (s : State) : Prop where
  keyed : s.set.Keyed
  number_lt : ∀ {id node}, s.set.node? id = some node → id < s.globalIdCounter
  operand_lt : ∀ {key id}, s.set.id? key = some id → ∀ p ∈ key.operands, p < id
  twins : ∀ {left right operator id id'}, operator.IsCommutative →
    s.set.id? (.binaryOperation left right operator) = some id →
    s.set.id? (.binaryOperation right left operator) = some id' → id = id'
  child_lt : ∀ {p node c}, s.set.node? p = some node → c ∈ node.children → c < s.globalIdCounter
  child_operand : ∀ {p node c child}, s.set.node? p = some node → c ∈ node.children →
    s.set.node? c = some child → p ∈ child.exprType.operands

theorem State.Consistent.id_lt {s : State} (hs : s.Consistent) {key : ExpressionType} {id : NodeId}
    (h : s.set.id? key = some id) : id < s.globalIdCounter := by
  rcases hs.keyed h with ⟨node, hnode, -⟩
  exact hs.number_lt hnode

/-! ## Expressions that are found -/

section Find

variable {s : AvailableExpressionSet}

theorem find_unary_iff {op : UnaryOp} {x : Expression} {n : NodeId} :
    s.findExpression (.unary op x) = some n ↔ ∃ operator id, unaryOperator op = some operator ∧
      s.findExpression x = some id ∧ s.id? (.unaryOperation id operator) = some n := by
  rw [AvailableExpressionSet.findExpression]
  simp only [Option.bind_eq_bind, Option.bind_eq_some_iff]
  constructor
  · rintro ⟨operator, hop, id, hx, hn⟩
    exact ⟨operator, id, hop, hx, hn⟩
  · rintro ⟨operator, id, hop, hx, hn⟩
    exact ⟨operator, hop, id, hx, hn⟩

theorem isCommutative_operator {op : BinaryOp} {operator : Operator}
    (hop : binaryOperator op = some operator) (hc : isCommutative op = true) : operator.IsCommutative :=
  ⟨op, hop, hc⟩

theorem find_binary_iff {t : State} (ht : t.Consistent) {op : BinaryOp} {l r : Expression} {n : NodeId} :
    t.set.findExpression (.binary op l r) = some n ↔ ∃ operator leftId rightId,
      binaryOperator op = some operator ∧ t.set.findExpression l = some leftId ∧
      t.set.findExpression r = some rightId ∧
      (t.set.id? (.binaryOperation leftId rightId operator) = some n ∨
        isCommutative op = true ∧ t.set.id? (.binaryOperation rightId leftId operator) = some n) := by
  rw [AvailableExpressionSet.findExpression]
  simp only [Option.bind_eq_bind, Option.bind_eq_some_iff]
  constructor
  · rintro ⟨operator, hop, leftId, hl, rightId, hr, hn⟩
    refine ⟨operator, leftId, rightId, hop, hl, hr, ?_⟩
    rcases Option.or_eq_some_iff.mp hn with hn | ⟨-, hn⟩
    · exact Or.inl hn
    · by_cases hc : isCommutative op = true
      · exact Or.inr ⟨hc, by rwa [if_pos hc] at hn⟩
      · rw [if_neg hc] at hn
        cases hn
  · rintro ⟨operator, leftId, rightId, hop, hl, hr, hn⟩
    refine ⟨operator, hop, leftId, hl, rightId, hr, Option.or_eq_some_iff.mpr ?_⟩
    rcases hn with hn | ⟨hc, hn⟩
    · exact Or.inl hn
    · rcases hid : t.set.id? (.binaryOperation leftId rightId operator) with _ | id
      · exact Or.inr ⟨hid, by rwa [if_pos hc]⟩
      · exact Or.inl (hid.trans (congrArg some (ht.twins (isCommutative_operator hop hc) hid hn)))

/-- An expression without operands is found under its own key. -/
theorem find_leaf_eq {e : Expression} (hu : ∀ op x, e ≠ .unary op x) (hb : ∀ op l r, e ≠ .binary op l r) :
    s.findExpression e = (leafType e).bind s.id? := by
  cases e with
  | unary op x => exact absurd rfl (hu op x)
  | binary op l r => exact absurd rfl (hb op l r)
  | _ => rfl

theorem find_leaf {e : Expression} {key : ExpressionType} (he : leafType e = some key) :
    s.findExpression e = s.id? key := by
  rw [find_leaf_eq, he, Option.bind_some]
  · rintro op x rfl
    cases he
  · rintro op l r rfl
    cases he

end Find

/-! ## Sets that lose nodes -/

/-- The nodes are those from before, with some of their children. -/
def Thins (m m' : IndexMap NodeId BasicExpression) : Prop :=
  ∀ ⦃id node'⦄, m'.lookup id = some node' → ∃ node, m.lookup id = some node ∧
    node'.exprType = node.exprType ∧ node'.children ⊆ node.children

theorem Thins.rfl {m : IndexMap NodeId BasicExpression} : Thins m m :=
  fun _ _ h => ⟨_, h, Eq.refl _, List.Subset.refl _⟩

theorem Thins.trans {m m' m'' : IndexMap NodeId BasicExpression} (h : Thins m m') (h' : Thins m' m'') :
    Thins m m'' := by
  intro id node'' hnode''
  rcases h' hnode'' with ⟨node', hnode', htype', hchildren'⟩
  rcases h hnode' with ⟨node, hnode, htype, hchildren⟩
  exact ⟨node, hnode, htype'.trans htype, List.Subset.trans hchildren' hchildren⟩

theorem thins_modify (m : IndexMap NodeId BasicExpression) (k : NodeId) (f : List NodeId → List NodeId)
    (hf : ∀ l, f l ⊆ l) : Thins m (m.modify k fun b => { b with children := f b.children }) := by
  intro id node' h
  rw [IndexMap.lookup_modify] at h
  split at h
  · rcases Option.map_eq_some_iff.mp h with ⟨node, hnode, rfl⟩
    exact ⟨node, hnode, Eq.refl _, hf _⟩
  · exact ⟨node', h, Eq.refl _, List.Subset.refl _⟩

theorem modify_isNone (m : IndexMap NodeId BasicExpression) (k id : NodeId)
    (f : BasicExpression → BasicExpression) :
    (m.modify k f).lookup id = none ↔ m.lookup id = none := by
  rw [IndexMap.lookup_modify]
  split <;> simp

/-- The set has lost keys and nodes, and no key has lost its node. -/
structure Shrinks (s s' : AvailableExpressionSet) : Prop where
  key : ∀ {key id}, s'.id? key = some id → s.id? key = some id
  thins : Thins s.expressionMemory s'.expressionMemory
  keyed : s.Keyed → s'.Keyed

namespace Shrinks

variable {s s' s'' : AvailableExpressionSet}

theorem rfl : Shrinks s s := ⟨fun h => h, Thins.rfl, fun h => h⟩

theorem trans (h : Shrinks s s') (h' : Shrinks s' s'') : Shrinks s s'' :=
  ⟨fun hid => h.key (h'.key hid), h.thins.trans h'.thins, fun hk => h'.keyed (h.keyed hk)⟩

theorem foldl {α : Type} {f : AvailableExpressionSet → α → AvailableExpressionSet}
    (hf : ∀ s a, Shrinks s (f s a)) (l : List α) (s : AvailableExpressionSet) :
    Shrinks s (l.foldl f s) := by
  induction l generalizing s with
  | nil => exact rfl
  | cons a l ih => exact (hf s a).trans (ih (f s a))

theorem consistent {s : State} {set' : AvailableExpressionSet} (h : Shrinks s.set set')
    (hs : s.Consistent) : ({ s with set := set' } : State).Consistent where
  keyed := h.keyed hs.keyed
  number_lt hnode := by
    rcases h.thins hnode with ⟨node, hnode, -⟩
    exact hs.number_lt hnode
  operand_lt hid := hs.operand_lt (h.key hid)
  twins hc hid hid' := hs.twins hc (h.key hid) (h.key hid')
  child_lt hnode hc := by
    rcases h.thins hnode with ⟨node, hnode, -, hsub⟩
    exact hs.child_lt hnode (hsub hc)
  child_operand hnode hc hchild := by
    rcases h.thins hnode with ⟨node, hnode, -, hsub⟩
    rcases h.thins hchild with ⟨child, hchild, htype, -⟩
    rw [htype]
    exact hs.child_operand hnode (hsub hc) hchild

end Shrinks

section Kill

variable {s : AvailableExpressionSet}

theorem removeChild_shrinks (p c : NodeId) : Shrinks s (s.removeChild p c) where
  key h := h
  thins := thins_modify _ _ (fun l => l.erase c) fun l => List.erase_subset
  keyed hs := by
    intro key id hid
    rcases hs hid with ⟨node, hnode, htype⟩
    rcases hnode' : (s.removeChild p c).node? id with _ | node'
    · exact absurd (hnode.symm.trans ((modify_isNone _ _ _ _).mp hnode')) nofun
    · rcases thins_modify _ p (fun l => l.erase c) (fun l => List.erase_subset) hnode' with
        ⟨node₀, hnode₀, htype', -⟩
      have hsame : node = node₀ := Option.some_inj.mp (hnode.symm.trans hnode₀)
      exact ⟨node', Eq.refl _, by rw [htype', ← hsame, htype]⟩

theorem removeNode_shrinks {s₀ : AvailableExpressionSet} {id : NodeId} {node : BasicExpression}
    (h : Shrinks s₀ s) (hnode : s₀.node? id = some node) : Shrinks s₀ (s.removeNode id node.exprType) := by
  have hkey : ∀ {key id'}, (s.removeNode id node.exprType).id? key = some id' →
      key ≠ node.exprType ∧ s.id? key = some id' := by
    intro key id' hid
    rw [AvailableExpressionSet.id?, AvailableExpressionSet.removeNode, IndexMap.lookup_erase] at hid
    split at hid
    · cases hid
    · exact ⟨‹_›, hid⟩
  refine ⟨fun hid => h.key (hkey hid).2, h.thins.trans ?_, fun hs => ?_⟩
  · intro id' node' hid
    rw [AvailableExpressionSet.removeNode, IndexMap.lookup_erase] at hid
    split at hid
    · cases hid
    · exact Thins.rfl hid
  · intro key id' hid
    rcases hkey hid with ⟨hne, hid⟩
    rcases h.keyed hs hid with ⟨node', hnode', htype⟩
    refine ⟨node', ?_, htype⟩
    rw [AvailableExpressionSet.node?, AvailableExpressionSet.removeNode, IndexMap.lookup_erase, if_neg]
    · exact hnode'
    · rintro rfl
      rcases h.thins hnode' with ⟨node₀, hnode₀, htype', -⟩
      have hsame : node = node₀ := Option.some_inj.mp (hnode.symm.trans hnode₀)
      exact hne (by rw [← htype, htype', hsame])

theorem killChild_shrinks (fuel : Nat) (parentId id : NodeId) (s : AvailableExpressionSet) :
    Shrinks s (s.killChild fuel parentId id) := by
  induction fuel generalizing parentId id s with
  | zero => exact Shrinks.rfl
  | succ fuel ih =>
    rw [AvailableExpressionSet.killChild]
    rcases hnode : s.expressionMemory.lookup id with _ | node
    · exact Shrinks.rfl
    · refine removeNode_shrinks ((Shrinks.foldl (fun s c => ih id c s) node.children s).trans ?_) hnode
      split
      · exact removeChild_shrinks _ _
      · exact Shrinks.rfl

/-- What `kill` does to a set that has the variable -/
theorem kill_eq {varNo : Nat} {varId : NodeId} {node : BasicExpression} (fuel : Nat)
    (hid : s.id? (.variable varNo) = some varId) (hnode : s.node? varId = some node) :
    s.kill fuel varNo =
      (node.children.foldl (fun s child => s.killChild fuel varId child) s).removeNode varId
        (.variable varNo) := by
  unfold AvailableExpressionSet.kill
  split
  · exact absurd (hid.symm.trans ‹_›) (Option.some_ne_none _)
  · cases hid.symm.trans ‹_›
    split
    · exact absurd (hnode.symm.trans ‹_›) (Option.some_ne_none _)
    · cases hnode.symm.trans ‹_›
      rfl

theorem kill_eq_self {varNo : Nat} (fuel : Nat) (hid : s.id? (.variable varNo) = none) :
    s.kill fuel varNo = s := by
  unfold AvailableExpressionSet.kill
  split
  · rfl
  · exact absurd (hid.symm.trans ‹_›) (Option.some_ne_none _).symm

theorem kill_shrinks (hs : s.Keyed) (fuel varNo : Nat) : Shrinks s (s.kill fuel varNo) := by
  rcases hid : s.id? (.variable varNo) with _ | varId
  · rw [kill_eq_self fuel hid]
    exact Shrinks.rfl
  · rcases hs hid with ⟨node, hnode, htype⟩
    rw [kill_eq fuel hid hnode, ← htype]
    exact removeNode_shrinks (Shrinks.foldl (fun s c => killChild_shrinks fuel varId c s) _ s) hnode

theorem id_kill (hs : s.Keyed) (fuel varNo : Nat) : (s.kill fuel varNo).id? (.variable varNo) = none := by
  rcases hid : s.id? (.variable varNo) with _ | varId
  · rw [kill_eq_self fuel hid, hid]
  · rcases hs hid with ⟨node, hnode, -⟩
    rw [kill_eq fuel hid hnode]
    exact (IndexMap.lookup_erase _ _ _).trans (if_pos rfl)

end Kill

/-! ## Joins -/

section Intersect

variable {f : IndexMap NodeId BasicExpression → NodeId → IndexMap NodeId BasicExpression}

theorem thins_foldl (hf : ∀ m k, Thins m (f m k)) (l : List NodeId)
    (m : IndexMap NodeId BasicExpression) :
    Thins m (l.foldl f m) := by
  induction l generalizing m with
  | nil => exact Thins.rfl
  | cons k l ih => exact (hf m k).trans (ih (f m k))

theorem isNone_foldl (hf : ∀ m k id, (f m k).lookup id = none ↔ m.lookup id = none)
    (l : List NodeId) (m : IndexMap NodeId BasicExpression) (id : NodeId) :
    (l.foldl f m).lookup id = none ↔ m.lookup id = none := by
  induction l generalizing m with
  | nil => exact Iff.rfl
  | cons k l ih => exact (ih (f m k)).trans (hf m k id)

theorem thins_retain (p : NodeId → BasicExpression → Bool) (m : IndexMap NodeId BasicExpression) :
    Thins m (m.retain p) := by
  intro id node h
  rw [IndexMap.lookup_retain, Option.filter_eq_some_iff] at h
  exact Thins.rfl h.1

/-- A node keeps the children that it has in both sets. -/
theorem intersect_shrinks (s set2 : AvailableExpressionSet) : Shrinks s (s.intersectSets set2) := by
  have hkey : ∀ ⦃key id⦄, (s.intersectSets set2).id? key = some id → s.id? key = some id := by
    intro key id hid
    have := (IndexMap.lookup_retain (fun key value =>
      AvailableExpressionSet.checkIntersection key value set2) s.exprMap key).symm.trans hid
    exact (Option.filter_eq_some_iff.mp this).1
  have hthins : Thins s.expressionMemory (s.intersectSets set2).expressionMemory := by
    refine ((thins_foldl (fun m k => ?_) _ _).trans (thins_retain _ _)).trans (thins_foldl (fun m k => ?_) _ _)
    · exact thins_modify m k (fun _ => []) fun _ => List.nil_subset _
    · split
      · exact thins_modify m k (fun l => l.filter _) fun _ => List.filter_sublist.subset
      · exact Thins.rfl
  refine ⟨fun h => hkey h, hthins, fun hs => ?_⟩
  intro key id hid
  rcases hs (hkey hid) with ⟨node, hnode, htype⟩
  have hsome : (s.intersectSets set2).node? id ≠ none := by
    intro hnone
    have hnone := (isNone_foldl (fun m k id => by split <;> simp [modify_isNone]) _ _ _).mp hnone
    rw [IndexMap.lookup_retain, Option.filter_eq_none_iff] at hnone
    rcases hold : (List.foldl (fun m id => IndexMap.modify id (fun b => { b with children := [] }) m)
        s.expressionMemory (((s.intersectSets set2).exprMap.entries.map Sigma.snd).filter fun id =>
          (set2.expressionMemory.lookup id).isNone)).lookup id with _ | node'
    · rw [isNone_foldl fun m k id => modify_isNone m k id _] at hold
      exact absurd (hnode.symm.trans hold) (Option.some_ne_none _)
    · -- the key is kept, so the node is in the other set as well or is one to maintain
      have hmem := List.mem_map_of_mem (f := Sigma.snd) (IndexMap.mem_entries_iff.mpr hid)
      have hkept := hnone node' hold
      rcases hset2 : set2.expressionMemory.lookup id with _ | node2
      · refine hkept ?_
        rw [hset2, Option.isSome_none, Bool.false_or, List.contains_iff_mem]
        exact List.mem_filter.mpr ⟨hmem, by rw [hset2]; rfl⟩
      · exact hkept (by rw [hset2]; rfl)
  rcases Option.ne_none_iff_exists'.mp hsome with ⟨node', hnode'⟩
  rcases hthins hnode' with ⟨node₀, hnode₀, htype', -⟩
  have hsame : node = node₀ := Option.some_inj.mp (hnode.symm.trans hnode₀)
  exact ⟨node', hnode', by rw [htype', ← hsame, htype]⟩

end Intersect

/-! ## New nodes -/

section Add

variable {j : NodeId} {node' : BasicExpression}

/-- What has been added as a child of `operands` -/
theorem addChild_lookup (id : NodeId) (operands : List NodeId) (m : IndexMap NodeId BasicExpression)
    (h : (operands.foldl (fun memory operand => memory.modify operand fun b =>
      { b with children := b.children.insert id }) m).lookup j = some node') :
    ∃ node, m.lookup j = some node ∧ node'.exprType = node.exprType ∧
      ∀ c ∈ node'.children, c ∈ node.children ∨ c = id ∧ j ∈ operands := by
  induction operands generalizing m with
  | nil => exact ⟨node', h, rfl, fun c hc => Or.inl hc⟩
  | cons p operands ih =>
    rcases ih _ h with ⟨node₁, hnode₁, htype, hchildren⟩
    rw [IndexMap.lookup_modify] at hnode₁
    split at hnode₁
    · rename_i hj
      rcases Option.map_eq_some_iff.mp hnode₁ with ⟨node, hnode, rfl⟩
      refine ⟨node, hnode, htype, fun c hc => ?_⟩
      rcases hchildren c hc with hc | ⟨rfl, hin⟩
      · rcases List.mem_insert_iff.mp hc with rfl | hc
        · exact Or.inr ⟨rfl, hj ▸ List.mem_cons_self⟩
        · exact Or.inl hc
      · exact Or.inr ⟨rfl, List.mem_cons_of_mem _ hin⟩
    · refine ⟨node₁, hnode₁, htype, fun c hc => ?_⟩
      rcases hchildren c hc with hc | ⟨rfl, hin⟩
      · exact Or.inl hc
      · exact Or.inr ⟨rfl, List.mem_cons_of_mem _ hin⟩

variable {s : State} {key : ExpressionType}

theorem id_addNode (key key' : ExpressionType) (operands : List NodeId) :
    (s.addNode key operands).2.set.id? key' = if key' = key then some s.globalIdCounter else s.set.id? key' :=
  IndexMap.lookup_insert _ _ _ _

theorem node_addNode {operands : List NodeId}
    (h : (s.addNode key operands).2.set.node? j = some node') :
    (j = s.globalIdCounter ∧ node'.exprType = key ∧
        ∀ c ∈ node'.children, c = s.globalIdCounter ∧ j ∈ operands) ∨
      (j ≠ s.globalIdCounter ∧ ∃ node, s.set.node? j = some node ∧ node'.exprType = node.exprType ∧
        ∀ c ∈ node'.children, c ∈ node.children ∨ c = s.globalIdCounter ∧ j ∈ operands) := by
  rcases addChild_lookup s.globalIdCounter operands _ h with ⟨node, hnode, htype, hchildren⟩
  rw [IndexMap.lookup_insert] at hnode
  split at hnode
  · cases hnode
    refine Or.inl ⟨‹_›, htype, fun c hc => ?_⟩
    rcases hchildren c hc with hc | hc
    · cases hc
    · exact hc
  · exact Or.inr ⟨‹_›, node, hnode, htype, hchildren⟩

theorem node_addNode_ne_none {operands : List NodeId}
    (h : j = s.globalIdCounter ∨ s.set.node? j ≠ none) :
    (s.addNode key operands).2.set.node? j ≠ none := by
  intro hnone
  have hnone := (isNone_foldl (fun m k id => modify_isNone m k id _) operands _ j).mp hnone
  rw [IndexMap.lookup_insert] at hnone
  split at hnone
  · cases hnone
  · exact (h.resolve_left ‹_›) hnone

/-- A key that is new, for operands that have their numbers -/
structure IsNew (s : State) (key : ExpressionType) : Prop where
  operand_lt : ∀ p ∈ key.operands, p < s.globalIdCounter
  free : s.set.id? key = none
  twin : ∀ {left right operator}, operator.IsCommutative → key = .binaryOperation left right operator →
    s.set.id? (.binaryOperation right left operator) = none

theorem addNode_consistent (hs : s.Consistent) (hnew : IsNew s key) :
    (s.addNode key key.operands).2.Consistent where
  keyed := by
    intro key' id hid
    have hsome : (s.addNode key key.operands).2.set.node? id ≠ none ∧
        (id = s.globalIdCounter ∧ key' = key ∨
          ∃ node, s.set.node? id = some node ∧ node.exprType = key') := by
      rw [id_addNode] at hid
      split at hid
      · cases hid
        exact ⟨node_addNode_ne_none (Or.inl rfl), Or.inl ⟨rfl, ‹_›⟩⟩
      · rcases hs.keyed hid with ⟨node, hnode, htype⟩
        exact ⟨node_addNode_ne_none (Or.inr (by rw [hnode]; exact Option.some_ne_none _)),
          Or.inr ⟨node, hnode, htype⟩⟩
    rcases Option.ne_none_iff_exists'.mp hsome.1 with ⟨node', hnode'⟩
    refine ⟨node', hnode', ?_⟩
    rcases node_addNode hnode', hsome.2 with
      ⟨⟨rfl, htype, -⟩ | ⟨hne, node, hnode, htype, -⟩, ⟨heq, rfl⟩ | ⟨node₀, hnode₀, rfl⟩⟩
    · exact htype
    · exact absurd (hs.number_lt hnode₀) (Nat.lt_irrefl _)
    · exact absurd heq hne
    · rw [htype, Option.some_inj.mp (hnode.symm.trans hnode₀)]
  number_lt h := by
    rcases node_addNode h with ⟨rfl, -⟩ | ⟨-, node, hnode, -⟩
    · exact Nat.lt_succ_self _
    · exact Nat.lt_succ_of_lt (hs.number_lt hnode)
  operand_lt h p hp := by
    rw [id_addNode] at h
    split at h
    · rename_i heq
      cases h
      exact hnew.operand_lt p (heq ▸ hp)
    · exact hs.operand_lt h p hp
  twins hc h h' := by
    rw [id_addNode] at h h'
    split at h <;> split at h'
    · exact Option.some_inj.mp (h.symm.trans h')
    · rename_i heq _
      rw [hnew.twin hc heq.symm] at h'
      cases h'
    · rename_i _ heq
      rw [hnew.twin hc heq.symm] at h
      cases h
    · exact hs.twins hc h h'
  child_lt h hc := by
    rcases node_addNode h with ⟨-, -, hchildren⟩ | ⟨-, node, hnode, -, hchildren⟩
    · rw [(hchildren _ hc).1]
      exact Nat.lt_succ_self _
    · rcases hchildren _ hc with hc | ⟨rfl, -⟩
      · exact Nat.lt_succ_of_lt (hs.child_lt hnode hc)
      · exact Nat.lt_succ_self _
  child_operand := by
    intro p node' c child' hp hc hchild'
    rcases node_addNode hchild' with ⟨rfl, htype, -⟩ | ⟨hne, child, hchild, htype, -⟩
    · -- the new node is a child of its operands only
      rw [htype]
      rcases node_addNode hp with ⟨-, -, hchildren⟩ | ⟨-, node, hnode, -, hchildren⟩
      · exact (hchildren _ hc).2
      · rcases hchildren _ hc with hc | ⟨-, hin⟩
        · exact absurd (hs.child_lt hnode hc) (Nat.lt_irrefl _)
        · exact hin
    · rw [htype]
      rcases node_addNode hp with ⟨-, -, hchildren⟩ | ⟨-, node, hnode, -, hchildren⟩
      · exact absurd (hchildren _ hc).1 hne
      · rcases hchildren _ hc with hc | ⟨heq, -⟩
        · exact hs.child_operand hnode hc hchild
        · exact absurd heq hne

end Add

end Solang.Codegen.Subexpressions
