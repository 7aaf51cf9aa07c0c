import Solang.Codegen.StrengthReduce.ExpressionValues
import Solang.Codegen.Subexpressions.Nodes

/-!
# The numbering through a history

The expressions that get a number, what `gen_expression` does to a set, and what a whole history
does: a number that is found was there under the same keys since it was taken, and none of the
variables of the expression was killed in between.
-/

namespace Solang.Codegen.Subexpressions

/-- An operator stands for expressions that differ in their type only. -/
def ofBinaryOperator (ty : Ty) : Operator → Option BinaryOp
  | .add => some (.add ty false)
  | .overflowingAdd => some (.add ty true)
  | .subtract => some (.subtract ty false)
  | .overflowingSubtract => some (.subtract ty true)
  | .multiply => some (.multiply ty false)
  | .overflowingMultiply => some (.multiply ty true)
  | .signedDivide => some (.signedDivide ty)
  | .unsignedDivide => some (.unsignedDivide ty)
  | .signedModulo => some (.signedModulo ty)
  | .unsignedModulo => some (.unsignedModulo ty)
  | .power => some (.power ty false)
  | .overflowingPower => some (.power ty true)
  | .bitwiseOr => some (.bitwiseOr ty)
  | .bitwiseAnd => some (.bitwiseAnd ty)
  | .bitwiseXor => some (.bitwiseXor ty)
  | .shiftLeft => some (.shiftLeft ty)
  | .signedShiftRight => some (.shiftRight ty true)
  | .unsignedShiftRight => some (.shiftRight ty false)
  | .signedMore => some (.more true)
  | .unsignedMore => some (.more false)
  | .signedLess => some (.less true)
  | .unsignedLess => some (.less false)
  | .signedMoreEqual => some (.moreEqual true)
  | .unsignedMoreEqual => some (.moreEqual false)
  | .signedLessEqual => some (.lessEqual true)
  | .unsignedLessEqual => some (.lessEqual false)
  | .equal => some .equal
  | .notEqual => some .notEqual
  | .stringCompare => some .stringCompare
  | .advancePointer => some .advancePointer
  | _ => none

variable {op : BinaryOp} {operator : Operator} {e l r : Expression} {key : ExpressionType}

theorem ofBinaryOperator_eq (h : binaryOperator op = some operator) :
    ofBinaryOperator op.ty operator = some op := by
  cases op with
  | add ty b | subtract ty b | multiply ty b | power ty b | shiftRight ty b | more b | less b | moreEqual b
  | lessEqual b => cases b <;> cases h <;> rfl
  | subscript ty arrayTy => cases h
  | _ => cases h; rfl

theorem isCommutative_of_operator {op' : BinaryOp} (h : binaryOperator op = some operator)
    (h' : binaryOperator op' = some operator) (hc : isCommutative op' = true) :
    isCommutative op = true := by
  have hty : ∀ ty ty', (ofBinaryOperator ty operator).map isCommutative =
      (ofBinaryOperator ty' operator).map isCommutative := by
    intro ty ty'
    cases operator <;> rfl
  have := hty op.ty op'.ty
  rw [ofBinaryOperator_eq h, ofBinaryOperator_eq h', Option.map_some, Option.map_some, Option.some_inj] at this
  rw [this, hc]

/-- The expressions that get a node -/
def tracked : Expression → Bool
  | .binary op left right => (binaryOperator op).isSome && tracked left && tracked right
  | .unary op expr => (unaryOperator op).isSome && tracked expr
  | e => (leafType e).isSome

/-- The expressions that `gen_expression` is called for -/
def visited : Expression → List Expression
  | .binary op left right =>
    .binary op left right ::
      if (binaryOperator op).isSome && !skipsOperands op left right then
        visited left ++ if tracked left then visited right else []
      else []
  | .unary op expr => .unary op expr :: if (unaryOperator op).isSome then visited expr else []
  | e => [e]

def variablesOf : Expression → List Nat
  | .variable _ varNo => [varNo]
  | .binary _ left right => variablesOf left ++ variablesOf right
  | .unary _ expr => variablesOf expr
  | _ => []

/-- Neither of the shapes that have operands -/
def IsLeaf (e : Expression) : Prop := (∀ op x, e ≠ .unary op x) ∧ ∀ op l r, e ≠ .binary op l r

/-- Induction over the operands -/
@[elab_as_elim]
theorem operandInduction {motive : Expression → Prop}
    (binary : ∀ op l r, motive l → motive r → motive (.binary op l r))
    (unary : ∀ op x, motive x → motive (.unary op x))
    (leaf : ∀ e, IsLeaf e → motive e) : ∀ e, motive e
  | .binary op l r =>
    binary op l r (operandInduction binary unary leaf l) (operandInduction binary unary leaf r)
  | .unary op x => unary op x (operandInduction binary unary leaf x)
  | .numberLiteral .. | .boolLiteral .. | .bytesLiteral .. | .rationalNumberLiteral .. | .functionArg ..
  | .variable .. | .internalFunctionCfg .. | .returnData | .undefined .. | .poison | .compileTime ..
  | .nary .. => leaf _ ⟨nofun, nofun⟩

theorem IsLeaf.tracked {e : Expression} (he : IsLeaf e) : tracked e = (leafType e).isSome := by
  cases e with
  | unary op x => exact absurd rfl (he.1 op x)
  | binary op l r => exact absurd rfl (he.2 op l r)
  | _ => rfl

theorem IsLeaf.visited {e : Expression} (he : IsLeaf e) : visited e = [e] := by
  cases e with
  | unary op x => exact absurd rfl (he.1 op x)
  | binary op l r => exact absurd rfl (he.2 op l r)
  | _ => rfl

theorem variablesOf_leaf (h : leafType e = some key) :
    ∀ v, v ∈ variablesOf e ↔ key = .variable v := by
  intro v
  cases e <;> cases h <;> simp [variablesOf, eq_comm]

theorem operands_of_leaf (h : leafType e = some key) :
    key.operands = [] := by
  cases e <;> cases h <;> rfl

theorem mem_visited_self (e : Expression) : e ∈ visited e := by
  cases e <;> simp [visited]

theorem not_skips_of_tracked (hl : tracked l = true) (hr : tracked r = true) :
    skipsOperands op l r = false := by
  have hc : ∀ e, tracked e = true → isCompileTime e = false := by
    intro e he
    cases e with
    | compileTime bytes => cases he
    | _ => rfl
  simp [skipsOperands, hc l hl, hc r hr]

theorem visited_binary (h : tracked (.binary op l r) = true) :
    visited (.binary op l r) = .binary op l r :: (visited l ++ visited r) := by
  simp only [tracked, Bool.and_eq_true] at h
  rw [visited, not_skips_of_tracked h.1.2 h.2, h.1.1, h.1.2]
  rfl

theorem visited_unary {op : UnaryOp} {x : Expression} (h : tracked (.unary op x) = true) :
    visited (.unary op x) = .unary op x :: visited x := by
  simp only [tracked, Bool.and_eq_true] at h
  rw [visited, h.1]
  rfl

/-! ## What is found -/

section Found

variable {s s' : State}

variable {e : Expression} {n : NodeId}

theorem tracked_of_find (hs : s.Consistent) (he : s.set.findExpression e = some n) :
    tracked e = true := by
  induction e using operandInduction generalizing n with
  | binary op l r ihl ihr =>
    rcases (find_binary_iff hs).mp he with ⟨operator, lid, rid, hop, hl, hr, -⟩
    simp [tracked, hop, ihl hl, ihr hr]
  | unary op x ih =>
    rcases find_unary_iff.mp he with ⟨operator, id, hop, hx, -⟩
    simp [tracked, hop, ih hx]
  | leaf e hleaf =>
    rw [find_leaf_eq hleaf.1 hleaf.2] at he
    rcases Option.bind_eq_some_iff.mp he with ⟨key, hkey, -⟩
    rw [hleaf.tracked, hkey]
    rfl

/-- With an expression all its parts are found. -/
theorem find_visited (hs : s.Consistent) (he : s.set.findExpression e = some n) :
    ∀ x ∈ visited e, ∃ id, s.set.findExpression x = some id := by
  have ht := tracked_of_find hs he
  induction e using operandInduction generalizing n with
  | binary op l r ihl ihr =>
    rcases (find_binary_iff hs).mp he with ⟨operator, lid, rid, hop, hl, hr, -⟩
    rw [visited_binary ht]
    intro x hx
    rcases List.mem_cons.mp hx with rfl | hx
    · exact ⟨n, he⟩
    · rcases List.mem_append.mp hx with hx | hx
      · exact ihl hl (tracked_of_find hs hl) x hx
      · exact ihr hr (tracked_of_find hs hr) x hx
  | unary op x ih =>
    rcases find_unary_iff.mp he with ⟨operator, id, hop, hx, -⟩
    rw [visited_unary ht]
    intro y hy
    rcases List.mem_cons.mp hy with rfl | hy
    · exact ⟨n, he⟩
    · exact ih hx (tracked_of_find hs hx) y hy
  | leaf e hleaf =>
    intro x hx
    rw [hleaf.visited, List.mem_singleton] at hx
    exact ⟨n, hx ▸ he⟩

/-- No key that is there is lost. -/
def Keeps (s s' : State) : Prop := ∀ ⦃key id⦄, s.set.id? key = some id → s'.set.id? key = some id

theorem find_of_keeps (hs : s.Consistent) (hs' : s'.Consistent) (hk : Keeps s s')
    (he : s.set.findExpression e = some n) : s'.set.findExpression e = some n := by
  induction e using operandInduction generalizing n with
  | binary op l r ihl ihr =>
    rcases (find_binary_iff hs).mp he with ⟨operator, lid, rid, hop, hl, hr, hn⟩
    refine (find_binary_iff hs').mpr ⟨operator, lid, rid, hop, ihl hl, ihr hr, ?_⟩
    rcases hn with hn | ⟨hc, hn⟩
    · exact Or.inl (hk hn)
    · exact Or.inr ⟨hc, hk hn⟩
  | unary op x ih =>
    rcases find_unary_iff.mp he with ⟨operator, id, hop, hx, hn⟩
    exact find_unary_iff.mpr ⟨operator, id, hop, ih hx, hk hn⟩
  | leaf e hleaf =>
    rw [find_leaf_eq hleaf.1 hleaf.2] at he
    rcases Option.bind_eq_some_iff.mp he with ⟨key, hkey, hn⟩
    exact (find_leaf hkey).trans (hk hn)

/-- The keys of numbers that were taken before were there before. -/
structure Later (s s' : State) : Prop where
  counter_le : s.globalIdCounter ≤ s'.globalIdCounter
  old : ∀ {key id}, s'.set.id? key = some id → id < s.globalIdCounter → s.set.id? key = some id

theorem Later.rfl : Later s s := ⟨Nat.le_refl _, fun h _ => h⟩

theorem Later.trans {s'' : State} (h : Later s s') (h' : Later s' s'') : Later s s'' :=
  ⟨Nat.le_trans h.counter_le h'.counter_le, fun hid hlt =>
    h.old (h'.old hid (Nat.lt_of_lt_of_le hlt h.counter_le)) hlt⟩

/-- An expression that is found under an old number was found before. -/
theorem find_of_later (hs : s.Consistent) (hs' : s'.Consistent) (hlater : Later s s')
    (he : s'.set.findExpression e = some n) (hn : n < s.globalIdCounter) :
    s.set.findExpression e = some n := by
  induction e using operandInduction generalizing n with
  | binary op l r ihl ihr =>
    rcases (find_binary_iff hs').mp he with ⟨operator, lid, rid, hop, hl, hr, hkey⟩
    have hlt : lid < n ∧ rid < n := by
      rcases hkey with hkey | ⟨-, hkey⟩
      · have := hs'.operand_lt hkey
        exact ⟨this lid (by simp [ExpressionType.operands]), this rid (by simp [ExpressionType.operands])⟩
      · have := hs'.operand_lt hkey
        exact ⟨this lid (by simp [ExpressionType.operands]), this rid (by simp [ExpressionType.operands])⟩
    refine (find_binary_iff hs).mpr ⟨operator, lid, rid, hop, ihl hl (Nat.lt_trans hlt.1 hn),
      ihr hr (Nat.lt_trans hlt.2 hn), ?_⟩
    rcases hkey with hkey | ⟨hc, hkey⟩
    · exact Or.inl (hlater.old hkey hn)
    · exact Or.inr ⟨hc, hlater.old hkey hn⟩
  | unary op x ih =>
    rcases find_unary_iff.mp he with ⟨operator, id, hop, hx, hkey⟩
    have hlt : id < n := hs'.operand_lt hkey id (by simp [ExpressionType.operands])
    exact find_unary_iff.mpr ⟨operator, id, hop, ih hx (Nat.lt_trans hlt hn), hlater.old hkey hn⟩
  | leaf e hleaf =>
    rw [find_leaf_eq hleaf.1 hleaf.2] at he
    rcases Option.bind_eq_some_iff.mp he with ⟨key, hkey, hid⟩
    exact (find_leaf hkey).trans (hlater.old hid hn)

end Found

/-! ## `gen_expression` -/

/-- What `gen_expression` does: the parts of the expression are found afterwards, and nothing else
is new. -/
structure Generates (s : State) (e : Expression) (r : Option NodeId) (s' : State) : Prop where
  consistent : s'.Consistent
  later : Later s s'
  keeps : Keeps s s'
  found : ∀ {n}, r = some n → s'.set.findExpression e = some n
  last : s.set.findExpression e = none → ∀ {n}, r = some n → s'.globalIdCounter = n + 1
  same : s.set.findExpression e ≠ none → s' = s
  origin : ∀ {key id}, s'.set.id? key = some id →
    s.set.id? key = some id ∨ ∃ x ∈ visited e, s'.set.findExpression x = some id
  parts : ∀ x ∈ visited e, tracked x = true → ∃ id, s'.set.findExpression x = some id
  total : tracked e = true → r ≠ none

section Gen

variable {s s' : State} {e : Expression}

variable {n : NodeId} {s₁ : State} {key : ExpressionType}

theorem genExpression_of_find (h : s.set.findExpression e = some n) :
    genExpression e s = (some n, s) := by
  rw [genExpression.eq_def, h]

theorem generates_found (hs : s.Consistent) (h : s.set.findExpression e = some n) :
    Generates s e (some n) s where
  consistent := hs
  later := Later.rfl
  keeps _ _ h := h
  found hn := hn ▸ h
  last hnone := by rw [h] at hnone; cases hnone
  same _ := rfl
  origin h := Or.inl h
  parts x hx _ := find_visited hs h x hx
  total _ := Option.some_ne_none n

/-- What has been done when the parts of an expression that are visited have their nodes -/
structure Prepares (s : State) (e : Expression) (s' : State) : Prop where
  consistent : s'.Consistent
  later : Later s s'
  keeps : Keeps s s'
  origin : ∀ {key id}, s'.set.id? key = some id →
    s.set.id? key = some id ∨ ∃ x ∈ visited e, s'.set.findExpression x = some id
  parts : ∀ x ∈ visited e, x = e ∨ (tracked x = true → ∃ id, s'.set.findExpression x = some id)

theorem prepares_rfl (hs : s.Consistent) (hv : visited e = [e]) : Prepares s e s where
  consistent := hs
  later := Later.rfl
  keeps _ _ h := h
  origin h := Or.inl h
  parts x hx := Or.inl (by rwa [hv, List.mem_singleton] at hx)

variable {x l r : Expression}

/-- An operand, with the parts that are visited after those before it -/
theorem Generates.prepares {r : Option NodeId} (hx : Generates s x r s₁)
    (hv : visited e = e :: visited x) : Prepares s e s₁ where
  consistent := hx.consistent
  later := hx.later
  keeps := hx.keeps
  origin h := by
    rcases hx.origin h with h | ⟨y, hy, hid⟩
    · exact Or.inl h
    · exact Or.inr ⟨y, hv ▸ List.mem_cons_of_mem _ hy, hid⟩
  parts y hy := by
    rw [hv] at hy
    rcases List.mem_cons.mp hy with hy | hy
    · exact Or.inl hy
    · exact Or.inr (hx.parts y hy)

theorem Generates.prepares_both {leftId rightId : Option NodeId} {s₂ : State}
    (hl : Generates s l leftId s₁) (hr : Generates s₁ r rightId s₂)
    (hv : visited e = e :: (visited l ++ visited r)) : Prepares s e s₂ where
  consistent := hr.consistent
  later := hl.later.trans hr.later
  keeps _ _ h := hr.keeps (hl.keeps h)
  origin h := by
    rcases hr.origin h with h | ⟨y, hy, hid⟩
    · rcases hl.origin h with h | ⟨y, hy, hid⟩
      · exact Or.inl h
      · exact Or.inr ⟨y, hv ▸ List.mem_cons_of_mem _ (List.mem_append_left _ hy),
          find_of_keeps hl.consistent hr.consistent hr.keeps hid⟩
    · exact Or.inr ⟨y, hv ▸ List.mem_cons_of_mem _ (List.mem_append_right _ hy), hid⟩
  parts y hy := by
    rw [hv] at hy
    rcases List.mem_cons.mp hy with hy | hy
    · exact Or.inl hy
    · refine Or.inr fun ht => ?_
      rcases List.mem_append.mp hy with hy | hy
      · rcases hl.parts y hy ht with ⟨id, hid⟩
        exact ⟨id, find_of_keeps hl.consistent hr.consistent hr.keeps hid⟩
      · exact hr.parts y hy ht

/-- An expression that gets no node -/
theorem Prepares.stop (h : Prepares s e s₁) (hnone : s.set.findExpression e = none)
    (he : tracked e = false) : Generates s e none s₁ where
  consistent := h.consistent
  later := h.later
  keeps := h.keeps
  found hn := nomatch hn
  last _ _ hn := nomatch hn
  same h := absurd hnone h
  origin := h.origin
  parts x hx ht := by
    rcases h.parts x hx with rfl | hfind
    · rw [he] at ht
      cases ht
    · exact hfind ht
  total ht := by rw [he] at ht; cases ht

theorem addNode_later (operands : List NodeId) :
    Later s (s.addNode key operands).2 where
  counter_le := Nat.le_succ _
  old hid hlt := by
    rw [id_addNode] at hid
    split at hid
    · cases hid
      exact absurd hlt (Nat.lt_irrefl _)
    · exact hid

theorem addNode_keeps (hnew : IsNew s key) (operands : List NodeId) :
    Keeps s (s.addNode key operands).2 := by
  intro key' id hid
  rw [id_addNode, if_neg]
  · exact hid
  · rintro rfl
    rw [hnew.free] at hid
    cases hid

/-- The node of an expression, once its operands have theirs -/
theorem Prepares.addNode {s₁ : State} (h : Prepares s e s₁) (key : ExpressionType)
    (hnone : s.set.findExpression e = none) (hnew : IsNew s₁ key)
    (hfound : ∀ {s₂ : State}, s₂.Consistent → Keeps s₁ s₂ → s₂.set.id? key = some s₁.globalIdCounter →
      s₂.set.findExpression e = some s₁.globalIdCounter) :
    Generates s e (some s₁.globalIdCounter) (s₁.addNode key key.operands).2 := by
  have hs₂ := addNode_consistent h.consistent hnew
  have hkeeps₂ := addNode_keeps hnew key.operands
  have hself : (s₁.addNode key key.operands).2.set.findExpression e = some s₁.globalIdCounter :=
    hfound hs₂ hkeeps₂ (by rw [id_addNode, if_pos rfl])
  constructor
  case consistent => exact hs₂
  case later => exact h.later.trans (addNode_later _)
  case keeps => exact fun _ _ hid => hkeeps₂ (h.keeps hid)
  case found => exact fun hn => hn ▸ hself
  case last => exact fun _ _ hn => by rw [← Option.some_inj.mp hn]; rfl
  case same => exact fun h => absurd hnone h
  case origin =>
    intro key' id hid
    rw [id_addNode] at hid
    split at hid
    · cases hid
      exact Or.inr ⟨e, mem_visited_self e, hself⟩
    · rcases h.origin hid with hid | ⟨x, hx, hid⟩
      · exact Or.inl hid
      · exact Or.inr ⟨x, hx, find_of_keeps h.consistent hs₂ hkeeps₂ hid⟩
  case parts =>
    intro x hx ht
    rcases h.parts x hx with rfl | hfind
    · exact ⟨_, hself⟩
    · rcases hfind ht with ⟨id, hid⟩
      exact ⟨id, find_of_keeps h.consistent hs₂ hkeeps₂ hid⟩
  case total => exact fun _ => Option.some_ne_none _

/-- No key has an operand that is the last node. -/
theorem no_key_of_last (hs : s.Consistent) {p : NodeId} (hp : p ∈ key.operands)
    (hlast : s.globalIdCounter = p + 1) : s.set.id? key = none := by
  rcases hid : s.set.id? key with _ | n
  · rfl
  · have hlt : p + 1 < s.globalIdCounter :=
      Nat.lt_of_le_of_lt (Nat.succ_le_of_lt (hs.operand_lt hid p hp)) (hs.id_lt hid)
    exact absurd (hlast ▸ hlt) (Nat.lt_irrefl _)

theorem id_lt_of_find (hs : s.Consistent) (h : s.set.findExpression e = some n) :
    n < s.globalIdCounter := by
  cases e using operandInduction with
  | binary op l r _ _ =>
    rcases (find_binary_iff hs).mp h with ⟨operator, lid, rid, -, -, -, hn | ⟨-, hn⟩⟩
    · exact hs.id_lt hn
    · exact hs.id_lt hn
  | unary op x _ =>
    rcases find_unary_iff.mp h with ⟨operator, id, -, -, hn⟩
    exact hs.id_lt hn
  | leaf e hleaf =>
    rw [find_leaf_eq hleaf.1 hleaf.2] at h
    rcases Option.bind_eq_some_iff.mp h with ⟨key, -, hn⟩
    exact hs.id_lt hn

theorem gen_leaf (hs : s.Consistent) (hnone : s.set.findExpression e = none) (he : IsLeaf e) :
    Generates s e (genExpression e s).1 (genExpression e s).2 := by
  have hgen : genExpression e s = (leafType e).elim (none, s) fun exprType => s.addNode exprType [] := by
    rw [genExpression.eq_def, hnone]
    cases e with
    | unary op x => exact absurd rfl (he.1 op x)
    | binary op l r => exact absurd rfl (he.2 op l r)
    | _ => rfl
  rw [hgen]
  rcases hkey : leafType e with _ | key
  · exact (prepares_rfl hs he.visited).stop hnone (by rw [he.tracked, hkey]; rfl)
  · have hops := operands_of_leaf hkey
    have hnew : IsNew s key := by
      refine ⟨by simp [hops], by rw [← find_leaf hkey, hnone], fun _ heq => ?_⟩
      rw [heq] at hops
      cases hops
    have := (prepares_rfl hs he.visited).addNode key hnone hnew fun _ _ hid => (find_leaf hkey).trans hid
    rwa [hops] at this

theorem gen_unary {op : UnaryOp} (hs : s.Consistent)
    (ih : Generates s x (genExpression x s).1 (genExpression x s).2)
    (hnone : s.set.findExpression (.unary op x) = none) :
    Generates s (.unary op x) (genExpression (.unary op x) s).1 (genExpression (.unary op x) s).2 := by
  rw [genExpression.eq_def, hnone]
  simp only
  rcases hop : unaryOperator op with _ | operator
  · exact (prepares_rfl hs (by simp [visited, hop])).stop hnone (by simp [tracked, hop])
  · have hprep := ih.prepares (e := .unary op x) (by simp [visited, hop])
    rcases hx : genExpression x s with ⟨_ | id, s₁⟩
    · have hx : tracked x = false := Bool.eq_false_iff.mpr fun ht => ih.total ht (by rw [hx])
      rw [‹genExpression x s = _›] at hprep
      exact hprep.stop hnone (by rw [tracked, hx, Bool.and_false])
    · rw [hx] at ih hprep
      have hid := ih.found rfl
      refine hprep.addNode (.unaryOperation id operator) hnone ⟨fun p hp => ?_, ?_, nofun⟩ ?_
      · rw [ExpressionType.operands, List.mem_singleton] at hp
        rw [hp]
        exact id_lt_of_find ih.consistent hid
      · rcases hold : s.set.findExpression x with _ | id'
        · exact no_key_of_last ih.consistent (p := id) (by simp [ExpressionType.operands]) (ih.last hold rfl)
        · have hsame : s₁ = s := ih.same (by rw [hold]; exact Option.some_ne_none _)
          by_contra hkey
          rcases Option.ne_none_iff_exists'.mp hkey with ⟨n, hn⟩
          rw [hsame] at hid hn
          rw [find_unary_iff.mpr ⟨operator, id, hop, hid, hn⟩] at hnone
          cases hnone
      · intro s₂ hs₂ hkeeps hkey
        exact find_unary_iff.mpr ⟨operator, id, hop, find_of_keeps ih.consistent hs₂ hkeeps hid, hkey⟩

theorem gen_binary {op : BinaryOp} (hs : s.Consistent)
    (ihl : Generates s l (genExpression l s).1 (genExpression l s).2)
    (ihr : ∀ s₁ : State, s₁.Consistent → Generates s₁ r (genExpression r s₁).1 (genExpression r s₁).2)
    (hnone : s.set.findExpression (.binary op l r) = none) :
    Generates s (.binary op l r) (genExpression (.binary op l r) s).1 (genExpression (.binary op l r) s).2 := by
  rw [genExpression.eq_def, hnone]
  simp only
  rcases hop : binaryOperator op with _ | operator
  · exact (prepares_rfl hs (by simp [visited, hop])).stop hnone (by simp [tracked, hop])
  rcases hskip : skipsOperands op l r with _ | _
  swap
  · refine (prepares_rfl hs (by simp [visited, hskip])).stop hnone ?_
    by_contra ht
    simp only [tracked, Bool.not_eq_false, Bool.and_eq_true] at ht
    rw [not_skips_of_tracked ht.1.2 ht.2] at hskip
    cases hskip
  have hv : visited (.binary op l r) =
      .binary op l r :: (visited l ++ if tracked l then visited r else []) := by
    simp [visited, hop, hskip]
  rcases hgl : genExpression l s with ⟨_ | leftId, s₁⟩
  · have hl : tracked l = false := Bool.eq_false_iff.mpr fun ht => ihl.total ht (by rw [hgl])
    rw [hgl] at ihl
    refine (ihl.prepares ?_).stop hnone (by rw [tracked, hl, Bool.and_false, Bool.false_and])
    rw [hv, hl, if_neg Bool.false_ne_true, List.append_nil]
  rw [hgl] at ihl
  have hl := ihl.found rfl
  have ihr := ihr s₁ ihl.consistent
  have hprep := ihl.prepares_both (e := .binary op l r) ihr (by rw [hv, tracked_of_find ihl.consistent hl]; rfl)
  rcases hgr : genExpression r s₁ with ⟨_ | rightId, s₂⟩
  · have hr : tracked r = false := Bool.eq_false_iff.mpr fun ht => ihr.total ht (by rw [hgr])
    simp only [hgr] at hprep ⊢
    exact hprep.stop hnone (by rw [tracked, hr, Bool.and_false])
  rw [hgr] at ihr hprep
  simp only [hgr]
  have hr := ihr.found rfl
  have hl₂ := find_of_keeps ihl.consistent ihr.consistent ihr.keeps hl
  -- a new operand is the last node, and otherwise the key was looked for
  have hfree : ∀ key : ExpressionType, leftId ∈ key.operands → rightId ∈ key.operands →
      (s.set.findExpression l = some leftId → s.set.findExpression r = some rightId → s.set.id? key = none) →
      s₂.set.id? key = none := by
    intro key hkl hkr hold
    rcases hr₁ : s₁.set.findExpression r with _ | id
    · exact no_key_of_last ihr.consistent hkr (ihr.last hr₁ rfl)
    · have hsame₂ : s₂ = s₁ := ihr.same (by rw [hr₁]; exact Option.some_ne_none _)
      rcases hl₀ : s.set.findExpression l with _ | id
      · exact no_key_of_last ihr.consistent hkl (hsame₂ ▸ ihl.last hl₀ rfl)
      · have hsame₁ : s₁ = s := ihl.same (by rw [hl₀]; exact Option.some_ne_none _)
        rw [hsame₂, hsame₁]
        exact hold (hsame₁ ▸ hl) (hsame₁ ▸ hsame₂ ▸ hr)
  refine hprep.addNode (.binaryOperation leftId rightId operator) hnone ⟨fun p hp => ?_, ?_, ?_⟩ ?_
  · simp only [ExpressionType.operands, List.mem_cons, List.not_mem_nil, or_false] at hp
    rcases hp with rfl | rfl
    · exact id_lt_of_find ihr.consistent hl₂
    · exact id_lt_of_find ihr.consistent hr
  · refine hfree _ (by simp [ExpressionType.operands]) (by simp [ExpressionType.operands]) fun hl₀ hr₀ => ?_
    by_contra hkey
    rcases Option.ne_none_iff_exists'.mp hkey with ⟨n, hn⟩
    rw [(find_binary_iff hs).mpr ⟨operator, leftId, rightId, hop, hl₀, hr₀, Or.inl hn⟩] at hnone
    cases hnone
  · rintro left right operator' ⟨op', hop', hc'⟩ heq
    cases heq
    refine hfree _ (by simp [ExpressionType.operands]) (by simp [ExpressionType.operands]) fun hl₀ hr₀ => ?_
    by_contra hkey
    rcases Option.ne_none_iff_exists'.mp hkey with ⟨n, hn⟩
    have hc : isCommutative op = true := isCommutative_of_operator hop hop' hc'
    rw [(find_binary_iff hs).mpr ⟨operator, leftId, rightId, hop, hl₀, hr₀, Or.inr ⟨hc, hn⟩⟩] at hnone
    cases hnone
  · intro s₃ hs₃ hkeeps hkey
    exact (find_binary_iff hs₃).mpr ⟨operator, leftId, rightId, hop,
      find_of_keeps ihr.consistent hs₃ hkeeps hl₂, find_of_keeps ihr.consistent hs₃ hkeeps hr, Or.inl hkey⟩

theorem genExpression_generates (e : Expression) (hs : s.Consistent) :
    Generates s e (genExpression e s).1 (genExpression e s).2 := by
  induction e using operandInduction generalizing s with
  | binary op l r ihl ihr =>
    rcases hfind : s.set.findExpression (.binary op l r) with _ | n
    · exact gen_binary hs (ihl hs) (fun s₁ hs₁ => ihr hs₁) hfind
    · rw [genExpression_of_find hfind]
      exact generates_found hs hfind
  | unary op x ih =>
    rcases hfind : s.set.findExpression (.unary op x) with _ | n
    · exact gen_unary hs (ih hs) hfind
    · rw [genExpression_of_find hfind]
      exact generates_found hs hfind
  | leaf e he =>
    rcases hfind : s.set.findExpression e with _ | n
    · exact gen_leaf hs hfind he
    · rw [genExpression_of_find hfind]
      exact generates_found hs hfind

end Gen

/-! ## `kill` -/

section Kill

/-- The nodes that are killed with the node `root` -/
inductive Descends (s : AvailableExpressionSet) (root : NodeId) : NodeId → Prop
  | root : Descends s root root
  | child {p c : NodeId} {node : BasicExpression} : Descends s root p → s.node? p = some node →
    c ∈ node.children → Descends s root c

variable {s₀ s : AvailableExpressionSet} {root : NodeId}

/-- The keys that are lost are those of descendants. -/
def LosesDescendants (s₀ : AvailableExpressionSet) (root : NodeId) (s s' : AvailableExpressionSet) : Prop :=
  ∀ ⦃key⦄, s.id? key ≠ none → s'.id? key = none →
    ∃ c node, Descends s₀ root c ∧ s₀.node? c = some node ∧ node.exprType = key

theorem LosesDescendants.trans {s' s'' : AvailableExpressionSet} (h : LosesDescendants s₀ root s s')
    (h' : LosesDescendants s₀ root s' s'') : LosesDescendants s₀ root s s'' := by
  intro key hkey hnone
  by_cases hmid : s'.id? key = none
  · exact h hkey hmid
  · exact h' hmid hnone

theorem LosesDescendants.foldl {f : AvailableExpressionSet → NodeId → AvailableExpressionSet}
    (hshrinks : ∀ s c, Shrinks s (f s c)) (children : List NodeId)
    (hf : ∀ c ∈ children, ∀ s, Shrinks s₀ s → LosesDescendants s₀ root s (f s c)) (hs : Shrinks s₀ s) :
    LosesDescendants s₀ root s (children.foldl f s) := by
  induction children generalizing s with
  | nil => exact fun _ hkey hnone => absurd hnone hkey
  | cons c children ih =>
    exact (hf c List.mem_cons_self s hs).trans
      (ih (fun c hc => hf c (List.mem_cons_of_mem _ hc)) (hs.trans (hshrinks s c)))

variable {id n : NodeId} {t : State} {e : Expression}

theorem removeNode_loses {node : BasicExpression} {exprType : ExpressionType}
    (hid : Descends s₀ root id) (hnode : s₀.node? id = some node) (htype : exprType = node.exprType) :
    LosesDescendants s₀ root s (s.removeNode id exprType) := by
  intro key hkey hnone
  refine ⟨id, node, hid, hnode, ?_⟩
  rw [← htype]
  by_contra hne
  have hnone := (IndexMap.lookup_erase _ _ _).symm.trans hnone
  rw [if_neg (Ne.symm hne)] at hnone
  exact hkey hnone

theorem killChild_loses (fuel : Nat) {parentId : NodeId} (hs : Shrinks s₀ s)
    (hid : Descends s₀ root id) : LosesDescendants s₀ root s (s.killChild fuel parentId id) := by
  induction fuel generalizing parentId id s with
  | zero => exact fun _ hkey hnone => absurd hnone hkey
  | succ fuel ih =>
    rw [AvailableExpressionSet.killChild]
    rcases hnode : s.expressionMemory.lookup id with _ | node
    · exact fun _ hkey hnone => absurd hnone hkey
    · rcases hs.thins hnode with ⟨node₀, hnode₀, htype, hsub⟩
      have hchildren := LosesDescendants.foldl (fun s c => killChild_shrinks fuel id c s) node.children
        (fun c hc s hs => ih hs (hid.child hnode₀ (hsub hc))) hs
      refine hchildren.trans (LosesDescendants.trans ?_ (removeNode_loses hid hnode₀ htype))
      intro key hkey hnone
      refine absurd (Eq.trans ?_ hnone) hkey
      split <;> rfl

variable {varNo fuel : Nat}

theorem kill_loses {varNode : BasicExpression} (hid : s.id? (.variable varNo) = some root)
    (hnode : s.node? root = some varNode) (htype : varNode.exprType = .variable varNo) :
    LosesDescendants s root s (s.kill fuel varNo) := by
  rw [kill_eq fuel hid hnode]
  refine LosesDescendants.trans ?_ (removeNode_loses .root hnode htype.symm)
  exact LosesDescendants.foldl (fun s c => killChild_shrinks fuel root c s) _
    (fun c hc s hs => killChild_loses fuel hs (.child .root hnode hc)) Shrinks.rfl

/-- A key of which no operand descends from the variable stays, and its node is no descendant. -/
theorem id_kill_of_operands (ht : t.Consistent) (hid : t.set.id? (.variable varNo) = some root)
    {key : ExpressionType} (hkey : t.set.id? key = some n) (hne : key ≠ .variable varNo)
    (hops : ∀ p ∈ key.operands, ¬ Descends t.set root p) :
    ¬ Descends t.set root n ∧ (t.set.kill fuel varNo).id? key = some n := by
  rcases ht.keyed hid with ⟨varNode, hvarNode, hvarType⟩
  have hnot : ∀ {c node}, Descends t.set root c → t.set.node? c = some node → node.exprType ≠ key := by
    intro c node hc hnode htype
    cases hc with
    | root =>
      rw [Option.some_inj.mp (hvarNode.symm.trans hnode)] at hvarType
      exact hne (htype.symm.trans hvarType)
    | child hp hpnode hin => exact hops _ (htype ▸ ht.child_operand hpnode hin hnode) hp
  constructor
  · intro hd
    rcases ht.keyed hkey with ⟨node, hnode, htype⟩
    exact hnot hd hnode htype
  · rcases hkept : (t.set.kill fuel varNo).id? key with _ | n'
    · rcases kill_loses hid hvarNode hvarType (by rw [hkey]; exact Option.some_ne_none _) hkept with
        ⟨c, node, hc, hnode, htype⟩
      exact absurd htype (hnot hc hnode)
    · rw [← hkey, (kill_shrinks ht.keyed fuel varNo).key hkept]

theorem find_kill_descends (ht : t.Consistent)
    (ht' : ({ t with set := t.set.kill fuel varNo } : State).Consistent)
    (hid : t.set.id? (.variable varNo) = some root) (he : t.set.findExpression e = some n)
    (hv : varNo ∉ variablesOf e) :
    ¬ Descends t.set root n ∧ (t.set.kill fuel varNo).findExpression e = some n := by
  induction e using operandInduction generalizing n with
  | binary op l r ihl ihr =>
    rw [variablesOf, List.mem_append, not_or] at hv
    rcases (find_binary_iff ht).mp he with ⟨operator, lid, rid, hop, hl, hr, hn⟩
    rcases ihl hl hv.1 with ⟨hdl, hl'⟩
    rcases ihr hr hv.2 with ⟨hdr, hr'⟩
    rcases hn with hn | ⟨hc, hn⟩
    · rcases id_kill_of_operands ht hid hn nofun (by simp [ExpressionType.operands, hdl, hdr]) with ⟨hd, hn'⟩
      exact ⟨hd, (find_binary_iff ht').mpr ⟨operator, lid, rid, hop, hl', hr', Or.inl hn'⟩⟩
    · rcases id_kill_of_operands ht hid hn nofun (by simp [ExpressionType.operands, hdl, hdr]) with ⟨hd, hn'⟩
      exact ⟨hd, (find_binary_iff ht').mpr ⟨operator, lid, rid, hop, hl', hr', Or.inr ⟨hc, hn'⟩⟩⟩
  | unary op x ih =>
    rcases find_unary_iff.mp he with ⟨operator, id, hop, hx, hn⟩
    rcases ih hx hv with ⟨hdx, hx'⟩
    rcases id_kill_of_operands ht hid hn nofun (by simp [ExpressionType.operands, hdx]) with ⟨hd, hn'⟩
    exact ⟨hd, find_unary_iff.mpr ⟨operator, id, hop, hx', hn'⟩⟩
  | leaf e hleaf =>
    rw [find_leaf_eq hleaf.1 hleaf.2] at he
    rcases Option.bind_eq_some_iff.mp he with ⟨key, hkey, hn⟩
    have hne : key ≠ .variable varNo := fun heq => hv ((variablesOf_leaf hkey varNo).mpr heq)
    rcases id_kill_of_operands ht hid hn hne (by simp [operands_of_leaf hkey]) with ⟨hd, hn'⟩
    exact ⟨hd, (find_leaf hkey).trans hn'⟩

/-- An expression without the variable keeps its node. -/
theorem find_kill (ht : t.Consistent) (he : t.set.findExpression e = some n)
    (hv : varNo ∉ variablesOf e) :
    (t.set.kill fuel varNo).findExpression e = some n := by
  rcases hid : t.set.id? (.variable varNo) with _ | varId
  · rw [kill_eq_self fuel hid]
    exact he
  · have ht' := (kill_shrinks ht.keyed fuel varNo).consistent ht
    exact (find_kill_descends ht ht' hid he hv).2

end Kill

/-! ## Histories -/

section Histories

theorem run_append (pre mid : List Action) : run (pre ++ mid) = mid.foldl step (run pre) := List.foldl_append

theorem run_concat (acts : List Action) (a : Action) : run (acts ++ [a]) = step (run acts) a := by
  rw [run_append]
  rfl

variable {s : State} {e : Expression} {n : NodeId}

theorem step_consistent (hs : s.Consistent) (a : Action) : (step s a).Consistent := by
  cases a with
  | gen e => exact (genExpression_generates e hs).consistent
  | find e => exact hs
  | kill varNo => exact (kill_shrinks hs.keyed _ varNo).consistent hs
  | intersect set2 => exact (intersect_shrinks s.set set2).consistent hs
  | elsewhere nodes =>
    exact { hs with
      number_lt := fun h => Nat.lt_of_lt_of_le (hs.number_lt h) (Nat.le_add_right _ _)
      child_lt := fun h hc => Nat.lt_of_lt_of_le (hs.child_lt h hc) (Nat.le_add_right _ _) }

theorem step_later (hs : s.Consistent) (a : Action) : Later s (step s a) := by
  cases a with
  | gen e => exact (genExpression_generates e hs).later
  | find e => exact Later.rfl
  | kill varNo => exact ⟨Nat.le_refl _, fun h _ => (kill_shrinks hs.keyed _ varNo).key h⟩
  | intersect set2 => exact ⟨Nat.le_refl _, fun h _ => (intersect_shrinks s.set set2).key h⟩
  | elsewhere nodes => exact ⟨Nat.le_add_right _ _, fun h _ => h⟩

theorem init_consistent : (⟨⟨∅, ∅⟩, 0⟩ : State).Consistent where
  keyed := fun _ _ h => nomatch h
  number_lt h := nomatch h
  operand_lt h := nomatch h
  twins _ h := nomatch h
  child_lt h := nomatch h
  child_operand h := nomatch h

theorem run_consistent (acts : List Action) : (run acts).Consistent := by
  induction acts using List.reverseRecOn with
  | nil => exact init_consistent
  | append_singleton acts a ih =>
    rw [run_concat]
    exact step_consistent ih a

theorem run_later (pre mid : List Action) : Later (run pre) (run (pre ++ mid)) := by
  induction mid using List.reverseRecOn with
  | nil =>
    rw [List.append_nil]
    exact Later.rfl
  | append_singleton mid a ih =>
    rw [← List.append_assoc, run_concat]
    exact ih.trans (step_later (run_consistent _) a)

theorem find_variable (hs : s.Consistent) {varNo : Nat} (he : s.set.findExpression e = some n)
    (hv : varNo ∈ variablesOf e) :
    ∃ id, s.set.id? (.variable varNo) = some id := by
  induction e using operandInduction generalizing n with
  | binary op l r ihl ihr =>
    rcases (find_binary_iff hs).mp he with ⟨operator, lid, rid, -, hl, hr, -⟩
    rcases List.mem_append.mp hv with hv | hv
    · exact ihl hl hv
    · exact ihr hr hv
  | unary op x ih =>
    rcases find_unary_iff.mp he with ⟨operator, id, -, hx, -⟩
    exact ih hx hv
  | leaf e hleaf =>
    rw [find_leaf_eq hleaf.1 hleaf.2] at he
    rcases Option.bind_eq_some_iff.mp he with ⟨key, hkey, hn⟩
    exact ⟨n, (variablesOf_leaf hkey varNo).mp hv ▸ hn⟩

/-- None of its variables has been killed since the node of an expression was made. -/
theorem not_killed {pre mid : List Action} {varNo : Nat}
    (he : (run (pre ++ mid)).set.findExpression e = some n) (hn : n < (run pre).globalIdCounter)
    (hv : varNo ∈ variablesOf e) : .kill varNo ∉ mid := by
  intro hkill
  rcases List.append_of_mem hkill with ⟨mid₁, mid₂, rfl⟩
  have hsplit : pre ++ (mid₁ ++ .kill varNo :: mid₂) = (pre ++ mid₁) ++ [.kill varNo] ++ mid₂ := by simp
  rw [hsplit] at he
  have hlt : n < (run ((pre ++ mid₁) ++ [.kill varNo])).globalIdCounter := by
    rw [List.append_assoc]
    exact Nat.lt_of_lt_of_le hn (run_later pre _).counter_le
  have hfind := find_of_later (run_consistent _) (run_consistent _) (run_later _ mid₂) he hlt
  rcases find_variable (run_consistent _) hfind hv with ⟨id, hid⟩
  rw [run_concat] at hid
  exact absurd ((id_kill (run_consistent _).keyed _ varNo).symm.trans hid) (Option.some_ne_none _).symm

/-- Every node was made for an expression. -/
theorem origin_of_id {acts : List Action} {key : ExpressionType}
    (h : (run acts).set.id? key = some n) :
    ∃ pre e mid x, acts = pre ++ [.gen e] ++ mid ∧ x ∈ visited e ∧
      (run (pre ++ [.gen e])).set.findExpression x = some n := by
  induction acts using List.reverseRecOn with
  | nil => cases h
  | append_singleton acts a ih =>
    have hs := run_consistent acts
    have hold : (run acts).set.id? key = some n → ∃ pre e mid x, acts ++ [a] = pre ++ [.gen e] ++ mid ∧
        x ∈ visited e ∧ (run (pre ++ [.gen e])).set.findExpression x = some n := by
      intro h
      rcases ih h with ⟨pre, e, mid, x, rfl, hx, hfind⟩
      exact ⟨pre, e, mid ++ [a], x, by simp, hx, hfind⟩
    rw [run_concat] at h
    cases a with
    | gen e =>
      rcases (genExpression_generates e hs).origin h with h | ⟨x, hx, hfind⟩
      · exact hold h
      · exact ⟨acts, e, [], x, by simp, hx, by rw [run_concat]; exact hfind⟩
    | find e => exact hold h
    | kill varNo => exact hold ((kill_shrinks hs.keyed _ varNo).key h)
    | intersect set2 => exact hold ((intersect_shrinks _ set2).key h)
    | elsewhere nodes => exact hold h

/-- An expression keeps its node while none of its variables is killed and nothing is joined. -/
theorem find_run {pre mid : List Action} (he : (run pre).set.findExpression e = some n)
    (hkill : ∀ varNo ∈ variablesOf e, .kill varNo ∉ mid) (hjoin : ∀ set2, .intersect set2 ∉ mid) :
    (run (pre ++ mid)).set.findExpression e = some n := by
  induction mid using List.reverseRecOn with
  | nil => rwa [List.append_nil]
  | append_singleton mid a ih =>
    have hfind := ih (fun v hv h => hkill v hv (List.mem_append_left _ h))
      fun set2 h => hjoin set2 (List.mem_append_left _ h)
    have hs := run_consistent (pre ++ mid)
    rw [← List.append_assoc, run_concat]
    cases a with
    | gen e' =>
      have hgen := genExpression_generates e' hs
      exact find_of_keeps hs hgen.consistent hgen.keeps hfind
    | find e' => exact hfind
    | kill varNo => exact find_kill hs hfind fun hv => hkill varNo hv (by simp)
    | intersect set2 => exact absurd (by simp) (hjoin set2)
    | elsewhere nodes => exact hfind

end Histories

end Solang.Codegen.Subexpressions
