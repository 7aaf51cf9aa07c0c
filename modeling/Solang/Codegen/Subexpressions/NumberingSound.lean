import Solang.Codegen.Subexpressions.Numbering

/-!
# Soundness of the numbering

Two expressions with the same node differ in the order of the operands of commutative operators,
and in the types that the keys do not have: those of literals, of operators, and those of a cast
of bytes. They have the same value when these are the same.
-/

namespace Solang.Codegen.Subexpressions

/-- A meaning of the operators, on any values -/
structure Meaning where
  V : Type
  literal (ty : Ty) (value : ConstantType) : V
  unary (op : UnaryOp) (operand : V) : Option V
  binary (op : BinaryOp) (left right : V) : Option V
  /-- That of the expressions that get no node -/
  other (e : Expression) : Option V
  comm : ∀ op left right, isCommutative op = true → binary op left right = binary op right left

structure Env (V : Type) where
  vars : Nat → V
  args : Nat → V

def eval (M : Meaning) (env : Env M.V) : Expression → Option M.V
  | .numberLiteral ty value => some (M.literal ty (.number value))
  | .boolLiteral value => some (M.literal .bool (.bool value))
  | .bytesLiteral ty value => some (M.literal ty (.bytes value))
  | .variable _ varNo => some (env.vars varNo)
  | .functionArg _ argNo => some (env.args argNo)
  | .unary op expr => do
    let operand ← eval M env expr
    M.unary op operand
  | .binary op left right => do
    let left ← eval M env left
    let right ← eval M env right
    M.binary op left right
  | e => M.other e

/-- The expression has been visited by the last action. -/
def VisitedLast (acts : List Action) (e : Expression) : Prop :=
  ∃ e₀, (acts.getLast? = some (.gen e₀) ∨ acts.getLast? = some (.find e₀)) ∧ e ∈ visited e₀

def GeneratedLast (acts : List Action) (e : Expression) : Prop :=
  ∃ e₀, acts.getLast? = some (.gen e₀) ∧ e ∈ visited e₀

/-- The expression is mapped to this node by the last action. -/
def MappedLast (acts : List Action) (e : Expression) (n : NodeId) : Prop :=
  VisitedLast acts e ∧ (run acts).set.findExpression e = some n

/-- Only the variables that are killed have another value afterwards. -/
structure Becomes {V : Type} (acts : List Action) (env env' : Env V) : Prop where
  vars : ∀ varNo, .kill varNo ∉ acts → env'.vars varNo = env.vars varNo
  args : env'.args = env.args

/-- Two expressions that are mapped to one node, one of them after the actions `mid`, have the same
type and the same value. -/
def NumbersSoundly (acts : List Action) : Prop :=
  ∀ pre mid e e' n, pre ++ mid <+: acts → MappedLast pre e n → MappedLast (pre ++ mid) e' n →
    e.ty = e'.ty ∧ ∀ (M : Meaning) (env env' : Env M.V), Becomes mid env env' →
      eval M env e = eval M env' e'

/-- Equal up to the order of the operands of commutative operators, and up to types that an
operator or a literal has in itself -/
inductive Similar : Expression → Expression → Prop
  | leaf {e e' : Expression} {key : ExpressionType} : leafType e = some key → leafType e' = some key →
    Similar e e'
  | unary {op op' : UnaryOp} {operator : Operator} {x x' : Expression} :
    unaryOperator op = some operator → unaryOperator op' = some operator → Similar x x' →
    Similar (.unary op x) (.unary op' x')
  | binary {op op' : BinaryOp} {operator : Operator} {l l' r r' : Expression} :
    binaryOperator op = some operator → binaryOperator op' = some operator → Similar l l' → Similar r r' →
    Similar (.binary op l r) (.binary op' l' r')
  | swapped {op op' : BinaryOp} {operator : Operator} {l l' r r' : Expression} :
    binaryOperator op = some operator → binaryOperator op' = some operator → isCommutative op = true →
    Similar l r' → Similar r l' → Similar (.binary op l r) (.binary op' l' r')

/-- The type that a cast of bytes is from -/
def castSource : Expression → Option Ty
  | .unary (.bytesCast _ source) _ => some source
  | _ => none

def SameTypes (e e' : Expression) : Prop := e.ty = e'.ty ∧ castSource e = castSource e'

/-- Similar expressions, none of whose variables is killed in between, have the same types. -/
def TypesAgree (acts : List Action) : Prop :=
  ∀ pre mid e e', pre ++ mid <+: acts → GeneratedLast pre e → VisitedLast (pre ++ mid) e' →
    Similar e e' → (∀ varNo ∈ variablesOf e, .kill varNo ∉ mid) → SameTypes e e'

/-! ## Similar expressions -/

section Similar

variable {e e' : Expression}

theorem Similar.tracked (h : Similar e e') : tracked e = true ∧ tracked e' = true := by
  induction h with
  | @leaf e e' key h h' =>
    constructor
    · cases e <;> first | (cases h; done) | rfl
    · cases e' <;> first | (cases h'; done) | rfl
  | unary h h' _ ih => simp [Subexpressions.tracked, h, h', ih]
  | binary h h' _ _ ihl ihr
  | swapped h h' _ _ _ ihl ihr => simp [Subexpressions.tracked, h, h', ihl, ihr]

theorem Similar.variablesOf (h : Similar e e') : ∀ v, v ∈ variablesOf e ↔ v ∈ variablesOf e' := by
  induction h with
  | leaf h h' => exact fun v => (variablesOf_leaf h v).trans (variablesOf_leaf h' v).symm
  | unary h h' _ ih => exact ih
  | binary h h' _ _ ihl ihr =>
    intro v
    simp only [Subexpressions.variablesOf, List.mem_append, ihl v, ihr v]
  | swapped h h' _ _ _ ihl ihr =>
    intro v
    simp only [Subexpressions.variablesOf, List.mem_append, ihl v, ihr v]
    exact Or.comm

/-- An operator stands for expressions that differ in their types only. -/
def ofUnaryOperator (ty source : Ty) : Operator → Option UnaryOp
  | .zeroExt ty => some (.zeroExt ty)
  | .signExt ty => some (.signExt ty)
  | .trunc ty => some (.trunc ty)
  | .cast ty => some (.cast ty)
  | .bytesCast => some (.bytesCast ty source)
  | .not => some .not
  | .bitwiseNot => some (.bitwiseNot ty)
  | .negate => some (.negate ty false)
  | .overflowingNegate => some (.negate ty true)
  | _ => none

theorem ofUnaryOperator_eq {op : UnaryOp} {operator : Operator} {x : Expression}
    (h : unaryOperator op = some operator) :
    ofUnaryOperator op.ty ((castSource (.unary op x)).getD .void) operator = some op := by
  cases op with
  | negate ty b => cases b <;> cases h <;> rfl
  | getRef | load | structMember | storageArrayLength | vectorData | allocDynamicBytes => cases h
  | _ => cases h; rfl

theorem unary_eq_of_sameTypes {op op' : UnaryOp} {operator : Operator} {x x' : Expression}
    (h : unaryOperator op = some operator) (h' : unaryOperator op' = some operator)
    (ht : SameTypes (.unary op x) (.unary op' x')) : op = op' := by
  have := ofUnaryOperator_eq (x := x) h
  rw [show op.ty = op'.ty from ht.1, ht.2, ofUnaryOperator_eq h', Option.some_inj] at this
  exact this.symm

theorem binary_eq_of_sameTypes {op op' : BinaryOp} {operator : Operator} {l l' r r' : Expression}
    (h : binaryOperator op = some operator) (h' : binaryOperator op' = some operator)
    (ht : SameTypes (.binary op l r) (.binary op' l' r')) : op = op' := by
  have := ofBinaryOperator_eq h
  rw [show op.ty = op'.ty from ht.1, ofBinaryOperator_eq h', Option.some_inj] at this
  exact this.symm

theorem eval_leaf_eq {key : ExpressionType} (h : leafType e = some key) (h' : leafType e' = some key)
    (ht : e.ty = e'.ty) (M : Meaning) (env : Env M.V) : eval M env e = eval M env e' := by
  cases e <;> cases h <;> cases e' <;> cases h' <;> simp_all [eval, Expression.ty]

/-- Similar expressions have the same value, if this is so of the types of all their parts. -/
theorem Similar.eval_eq (h : Similar e e')
    (ht : ∀ x ∈ visited e, ∀ x' ∈ visited e', Similar x x' → SameTypes x x') (M : Meaning) (env : Env M.V) :
    eval M env e = eval M env e' := by
  induction h with
  | leaf h h' => exact eval_leaf_eq h h' (ht _ (mem_visited_self _) _ (mem_visited_self _) (.leaf h h')).1 M env
  | unary h h' hx ih =>
    have hall := Similar.unary h h' hx
    cases unary_eq_of_sameTypes h h' (ht _ (mem_visited_self _) _ (mem_visited_self _) hall)
    rw [visited_unary hall.tracked.1, visited_unary hall.tracked.2] at ht
    rw [eval, eval, ih fun x hx x' hx' => ht x (List.mem_cons_of_mem _ hx) x' (List.mem_cons_of_mem _ hx')]
  | @binary op op' operator l l' r r' h h' hl hr ihl ihr =>
    have hall := Similar.binary h h' hl hr
    cases binary_eq_of_sameTypes h h' (ht _ (mem_visited_self _) _ (mem_visited_self _) hall)
    rw [visited_binary hall.tracked.1, visited_binary hall.tracked.2] at ht
    have hparts : ∀ x ∈ visited l ++ visited r, ∀ x' ∈ visited l' ++ visited r', Similar x x' → SameTypes x x' :=
      fun x hx x' hx' => ht x (List.mem_cons_of_mem _ hx) x' (List.mem_cons_of_mem _ hx')
    rw [eval, eval,
      ihl fun x hx x' hx' => hparts x (List.mem_append_left _ hx) x' (List.mem_append_left _ hx'),
      ihr fun x hx x' hx' => hparts x (List.mem_append_right _ hx) x' (List.mem_append_right _ hx')]
  | @swapped op op' operator l l' r r' h h' hc hl hr ihl ihr =>
    have hall := Similar.swapped h h' hc hl hr
    cases binary_eq_of_sameTypes h h' (ht _ (mem_visited_self _) _ (mem_visited_self _) hall)
    rw [visited_binary hall.tracked.1, visited_binary hall.tracked.2] at ht
    have hparts : ∀ x ∈ visited l ++ visited r, ∀ x' ∈ visited l' ++ visited r', Similar x x' → SameTypes x x' :=
      fun x hx x' hx' => ht x (List.mem_cons_of_mem _ hx) x' (List.mem_cons_of_mem _ hx')
    rw [eval, eval,
      ihl fun x hx x' hx' => hparts x (List.mem_append_left _ hx) x' (List.mem_append_right _ hx'),
      ihr fun x hx x' hx' => hparts x (List.mem_append_right _ hx) x' (List.mem_append_left _ hx')]
    rcases eval M env r' with _ | a
    · rcases eval M env l' with _ | b <;> rfl
    · rcases eval M env l' with _ | b
      · rfl
      · exact M.comm op a b hc

end Similar

/-! ## Nodes and similar expressions -/

section Nodes

variable {s : State} {e e' : Expression} {n : NodeId}

/-- The key under which an expression is found -/
inductive FoundUnder (s : State) : Expression → ExpressionType → Prop
  | leaf {e : Expression} {key : ExpressionType} : leafType e = some key → FoundUnder s e key
  | unary {op : UnaryOp} {operator : Operator} {x : Expression} {id : NodeId} :
    unaryOperator op = some operator → s.set.findExpression x = some id →
    FoundUnder s (.unary op x) (.unaryOperation id operator)
  | binary {op : BinaryOp} {operator : Operator} {l r : Expression} {leftId rightId : NodeId} :
    binaryOperator op = some operator → s.set.findExpression l = some leftId →
    s.set.findExpression r = some rightId →
    FoundUnder s (.binary op l r) (.binaryOperation leftId rightId operator)
  | swapped {op : BinaryOp} {operator : Operator} {l r : Expression} {leftId rightId : NodeId} :
    binaryOperator op = some operator → isCommutative op = true → s.set.findExpression l = some leftId →
    s.set.findExpression r = some rightId →
    FoundUnder s (.binary op l r) (.binaryOperation rightId leftId operator)

theorem find_iff_key (hs : s.Consistent) :
    s.set.findExpression e = some n ↔ ∃ key, FoundUnder s e key ∧ s.set.id? key = some n := by
  constructor
  · intro he
    cases e using operandInduction with
    | binary op l r _ _ =>
      rcases (find_binary_iff hs).mp he with ⟨operator, lid, rid, hop, hl, hr, hn | ⟨hc, hn⟩⟩
      · exact ⟨_, .binary hop hl hr, hn⟩
      · exact ⟨_, .swapped hop hc hl hr, hn⟩
    | unary op x _ =>
      rcases find_unary_iff.mp he with ⟨operator, id, hop, hx, hn⟩
      exact ⟨_, .unary hop hx, hn⟩
    | leaf e hleaf =>
      rw [find_leaf_eq hleaf.1 hleaf.2] at he
      rcases Option.bind_eq_some_iff.mp he with ⟨key, hkey, hn⟩
      exact ⟨key, .leaf hkey, hn⟩
  · rintro ⟨key, hkey, hn⟩
    cases hkey with
    | leaf hkey => exact (find_leaf hkey).trans hn
    | unary hop hx => exact find_unary_iff.mpr ⟨_, _, hop, hx, hn⟩
    | binary hop hl hr => exact (find_binary_iff hs).mpr ⟨_, _, _, hop, hl, hr, Or.inl hn⟩
    | swapped hop hc hl hr => exact (find_binary_iff hs).mpr ⟨_, _, _, hop, hl, hr, Or.inr ⟨hc, hn⟩⟩

/-- Expressions with the same node are similar. -/
theorem similar_of_find (hs : s.Consistent) (he : s.set.findExpression e = some n)
    (he' : s.set.findExpression e' = some n) : Similar e e' := by
  induction e using operandInduction generalizing e' n with
  | binary op l r ihl ihr =>
    rcases (find_iff_key hs).mp he with ⟨key, hkey, hn⟩
    rcases (find_iff_key hs).mp he' with ⟨key', hkey', hn'⟩
    cases hs.keyed.inj hn hn'
    cases hkey with
    | leaf h => cases h
    | binary hop hl hr =>
      cases hkey' with
      | leaf h => exact absurd (operands_of_leaf h) nofun
      | binary hop' hl' hr' => exact .binary hop hop' (ihl hl hl') (ihr hr hr')
      | swapped hop' hc' hl' hr' =>
        exact .swapped hop hop' (isCommutative_of_operator hop hop' hc') (ihl hl hr') (ihr hr hl')
    | swapped hop hc hl hr =>
      cases hkey' with
      | leaf h => exact absurd (operands_of_leaf h) nofun
      | binary hop' hl' hr' => exact .swapped hop hop' hc (ihl hl hr') (ihr hr hl')
      | swapped hop' hc' hl' hr' => exact .binary hop hop' (ihl hl hl') (ihr hr hr')
  | unary op x ih =>
    rcases (find_iff_key hs).mp he with ⟨key, hkey, hn⟩
    rcases (find_iff_key hs).mp he' with ⟨key', hkey', hn'⟩
    cases hs.keyed.inj hn hn'
    cases hkey with
    | leaf h => cases h
    | unary hop hx =>
      cases hkey' with
      | leaf h => exact absurd (operands_of_leaf h) nofun
      | unary hop' hx' => exact .unary hop hop' (ih hx hx')
  | leaf e hleaf =>
    rcases (find_iff_key hs).mp he with ⟨key, hkey, hn⟩
    rcases (find_iff_key hs).mp he' with ⟨key', hkey', hn'⟩
    cases hs.keyed.inj hn hn'
    cases hkey with
    | unary => exact absurd rfl (hleaf.1 _ _)
    | binary | swapped => exact absurd rfl (hleaf.2 _ _ _)
    | leaf h =>
      cases hkey' with
      | leaf h' => exact .leaf h h'
      | unary | binary | swapped => exact absurd (operands_of_leaf h) nofun

/-- Similar expressions have the same node. -/
theorem find_of_similar (hs : s.Consistent) (h : Similar e e') (he : s.set.findExpression e = some n) :
    s.set.findExpression e' = some n := by
  induction h generalizing n with
  | leaf h h' => rwa [find_leaf h', ← find_leaf h]
  | unary hop hop' _ ih =>
    rcases find_unary_iff.mp he with ⟨operator, id, hop₀, hx, hn⟩
    cases hop.symm.trans hop₀
    exact find_unary_iff.mpr ⟨_, id, hop', ih hx, hn⟩
  | binary hop hop' _ _ ihl ihr =>
    rcases (find_binary_iff hs).mp he with ⟨operator, lid, rid, hop₀, hl, hr, hn⟩
    cases hop.symm.trans hop₀
    refine (find_binary_iff hs).mpr ⟨_, lid, rid, hop', ihl hl, ihr hr, ?_⟩
    exact hn.imp_right fun ⟨hc, hn⟩ => ⟨isCommutative_of_operator hop' hop hc, hn⟩
  | swapped hop hop' hc _ _ ihl ihr =>
    rcases (find_binary_iff hs).mp he with ⟨operator, lid, rid, hop₀, hl, hr, hn⟩
    cases hop.symm.trans hop₀
    refine (find_binary_iff hs).mpr ⟨_, rid, lid, hop', ihr hr, ihl hl, ?_⟩
    rcases hn with hn | ⟨-, hn⟩
    · exact Or.inr ⟨isCommutative_of_operator hop' hop hc, hn⟩
    · exact Or.inl hn

end Nodes

/-! ## The parts of what is visited -/

section Parts

variable {e x : Expression} {acts : List Action}

theorem visited_trans {y : Expression} (hx : x ∈ visited e) (hy : y ∈ visited x) : y ∈ visited e := by
  induction e using operandInduction with
  | binary op l r ihl ihr =>
    rw [visited] at hx ⊢
    rcases List.mem_cons.mp hx with rfl | hx
    · rwa [visited] at hy
    · refine List.mem_cons_of_mem _ ?_
      split at hx
      · rename_i hlooks
        rw [if_pos hlooks]
        rcases List.mem_append.mp hx with hx | hx
        · exact List.mem_append_left _ (ihl hx)
        · refine List.mem_append_right _ ?_
          split at hx
          · rename_i hl
            rw [if_pos hl]
            exact ihr hx
          · cases hx
      · cases hx
  | unary op x' ih =>
    rw [visited] at hx ⊢
    rcases List.mem_cons.mp hx with rfl | hx
    · rwa [visited] at hy
    · refine List.mem_cons_of_mem _ ?_
      split at hx
      · rename_i hlooks
        rw [if_pos hlooks]
        exact ih hx
      · cases hx
  | leaf e hleaf =>
    rw [hleaf.visited, List.mem_singleton] at hx
    exact hx ▸ hy

theorem variablesOf_visited (hx : x ∈ visited e) : variablesOf x ⊆ variablesOf e := by
  induction e using operandInduction with
  | binary op l r ihl ihr =>
    rw [visited] at hx
    rcases List.mem_cons.mp hx with rfl | hx
    · exact List.Subset.refl _
    · split at hx
      · rcases List.mem_append.mp hx with hx | hx
        · exact List.Subset.trans (ihl hx) (List.subset_append_left _ _)
        · split at hx
          · exact List.Subset.trans (ihr hx) (List.subset_append_right _ _)
          · cases hx
      · cases hx
  | unary op x' ih =>
    rw [visited] at hx
    rcases List.mem_cons.mp hx with rfl | hx
    · exact List.Subset.refl _
    · split at hx
      · exact ih hx
      · cases hx
  | leaf e hleaf =>
    rw [hleaf.visited, List.mem_singleton] at hx
    exact hx ▸ List.Subset.refl _

theorem VisitedLast.part (h : VisitedLast acts e) (hx : x ∈ visited e) : VisitedLast acts x := by
  rcases h with ⟨e₀, hlast, he⟩
  exact ⟨e₀, hlast, visited_trans he hx⟩

theorem GeneratedLast.part (h : GeneratedLast acts e) (hx : x ∈ visited e) : GeneratedLast acts x := by
  rcases h with ⟨e₀, hlast, he⟩
  exact ⟨e₀, hlast, visited_trans he hx⟩

theorem eval_congr {M : Meaning} {env env' : Env M.V} (he : tracked e = true)
    (hvars : ∀ v ∈ variablesOf e, env'.vars v = env.vars v) (hargs : env'.args = env.args) :
    eval M env e = eval M env' e := by
  induction e using operandInduction with
  | binary op l r ihl ihr =>
    simp only [tracked, Bool.and_eq_true] at he
    rw [eval, eval, ihl he.1.2 fun v hv => hvars v (List.mem_append_left _ hv),
      ihr he.2 fun v hv => hvars v (List.mem_append_right _ hv)]
  | unary op x ih =>
    simp only [tracked, Bool.and_eq_true] at he
    rw [eval, eval, ih he.2 hvars]
  | leaf e hleaf =>
    cases e with
    | functionArg ty a => rw [eval, eval, hargs]
    | unary op x => exact absurd rfl (hleaf.1 _ _)
    | binary op l r => exact absurd rfl (hleaf.2 _ _ _)
    | numberLiteral | boolLiteral | bytesLiteral => rfl
    | «variable» ty v => rw [eval, eval, hvars v (by simp [variablesOf])]
    | _ => cases he

end Parts

/-! ## The numbering -/

section Sound

variable {acts : List Action}

/-- An expression with the node of one that was generated before has its type, and its value. -/
theorem sameTypes_of_generated (ht : TypesAgree acts) {pre mid : List Action} {e e' : Expression}
    {n : NodeId} (hacts : pre ++ mid <+: acts) (he : GeneratedLast pre e)
    (hfind : (run pre).set.findExpression e = some n) (he' : MappedLast (pre ++ mid) e' n) :
    Similar e e' ∧ ∀ x ∈ visited e, ∀ x' ∈ visited e', Similar x x' → SameTypes x x' := by
  have hlt := id_lt_of_find (run_consistent pre) hfind
  have hback := find_of_later (run_consistent pre) (run_consistent _) (run_later pre mid) he'.2 hlt
  have hsim := similar_of_find (run_consistent pre) hfind hback
  refine ⟨hsim, fun x hx x' hx' hxx => ?_⟩
  refine ht pre mid x x' hacts (he.part hx) (he'.1.part hx') hxx fun v hv => ?_
  exact not_killed he'.2 hlt ((hsim.variablesOf v).mp (variablesOf_visited hx hv))

theorem sound_of_typesAgree (ht : TypesAgree acts) : NumbersSoundly acts := by
  intro pre mid e e' n hacts he he'
  rcases (find_iff_key (run_consistent pre)).mp he.2 with ⟨key, -, hid⟩
  rcases origin_of_id hid with ⟨pre₀, e₀, mid₀, x, rfl, hx, hfind⟩
  have hgen : GeneratedLast (pre₀ ++ [.gen e₀]) x := ⟨e₀, by simp, hx⟩
  have hassoc : pre₀ ++ [.gen e₀] ++ mid₀ ++ mid = pre₀ ++ [.gen e₀] ++ (mid₀ ++ mid) := List.append_assoc ..
  rcases sameTypes_of_generated ht ((List.prefix_append _ _).trans hacts) hgen hfind he with ⟨hsim, htypes⟩
  rcases sameTypes_of_generated ht (hassoc ▸ hacts) hgen hfind (hassoc ▸ he') with ⟨hsim', htypes'⟩
  constructor
  · exact ((htypes _ (mem_visited_self _) _ (mem_visited_self _) hsim).1).symm.trans
      (htypes' _ (mem_visited_self _) _ (mem_visited_self _) hsim').1
  · intro M env env' hbecomes
    have hlt := id_lt_of_find (run_consistent _) he.2
    have hvars : ∀ v ∈ variablesOf x, env'.vars v = env.vars v := fun v hv =>
      hbecomes.vars v (not_killed he'.2 hlt ((hsim'.variablesOf v).mp hv))
    calc eval M env e = eval M env x := (hsim.eval_eq htypes M env).symm
      _ = eval M env' x := eval_congr hsim.tracked.1 hvars hbecomes.args
      _ = eval M env' e' := hsim'.eval_eq htypes' M env'

/-- The meaning by which the value of a cast of bytes is the type that it is from -/
def sources : Meaning where
  V := Option Ty
  literal _ _ := none
  unary op _ := some (castSource (.unary op .poison))
  binary _ _ _ := some none
  other _ := some none
  comm _ _ _ _ := rfl

theorem eval_sources_isSome (env : Env sources.V) (e : Expression) : ∃ v, eval sources env e = some v := by
  induction e using operandInduction with
  | binary op l r ihl ihr =>
    rcases ihl with ⟨a, ha⟩
    rcases ihr with ⟨b, hb⟩
    exact ⟨none, by rw [eval, ha, hb]; rfl⟩
  | unary op x ih =>
    rcases ih with ⟨a, ha⟩
    exact ⟨castSource (.unary op .poison), by rw [eval, ha]; rfl⟩
  | leaf e hleaf =>
    cases e with
    | unary op x => exact absurd rfl (hleaf.1 _ _)
    | binary op l r => exact absurd rfl (hleaf.2 _ _ _)
    | _ => exact ⟨_, rfl⟩

theorem eval_sources_unary (env : Env sources.V) (op : UnaryOp) (x : Expression) :
    eval sources env (.unary op x) = some (castSource (.unary op x)) := by
  rcases eval_sources_isSome env x with ⟨a, ha⟩
  rw [eval, ha]
  cases op <;> rfl

theorem castSource_of_eval {e e' : Expression} (h : Similar e e')
    (heval : ∀ env, eval sources env e = eval sources env e') : castSource e = castSource e' := by
  cases h with
  | unary hop hop' hx =>
    have := heval ⟨fun _ => none, fun _ => none⟩
    rw [eval_sources_unary, eval_sources_unary] at this
    exact Option.some_inj.mp this
  | leaf h h' => cases e <;> cases h <;> cases e' <;> cases h' <;> rfl
  | binary | swapped => rfl

theorem typesAgree_of_sound (hjoin : ∀ set2, .intersect set2 ∉ acts) (hsound : NumbersSoundly acts) :
    TypesAgree acts := by
  intro pre mid e e' hacts he he' hsim hkill
  have hmem : ∀ a ∈ pre ++ mid, a ∈ acts := fun a ha => hacts.subset ha
  have hfind : ∃ n, (run pre).set.findExpression e = some n := by
    rcases he with ⟨e₀, hlast, hx⟩
    rcases List.getLast?_eq_some_iff.mp hlast with ⟨pre₀, rfl⟩
    rw [run_concat]
    exact (genExpression_generates e₀ (run_consistent pre₀)).parts e hx hsim.tracked.1
  rcases hfind with ⟨n, hfind⟩
  have hlater := find_run hfind hkill fun set2 h => hjoin set2 (hmem _ (List.mem_append_right _ h))
  have hvisited : VisitedLast pre e := he.imp fun e₀ h => ⟨Or.inl h.1, h.2⟩
  rcases hsound pre mid e e' n hacts ⟨hvisited, hfind⟩
    ⟨he', find_of_similar (run_consistent _) hsim hlater⟩ with ⟨hty, heval⟩
  exact ⟨hty, castSource_of_eval hsim fun env => heval sources env env ⟨fun _ _ => rfl, rfl⟩⟩

/-- Expressions are numbered soundly if similar ones have the same types, and if no sets are joined
only then. -/
theorem numbers_soundly_iff (acts : List Action) :
    (TypesAgree acts → NumbersSoundly acts) ∧
      ((∀ set2, .intersect set2 ∉ acts) → (NumbersSoundly acts ↔ TypesAgree acts)) :=
  ⟨sound_of_typesAgree, fun hjoin => ⟨typesAgree_of_sound hjoin, sound_of_typesAgree⟩⟩

end Sound

namespace Sample

def buffer : Expression := .variable .dynamicBytes 0

def first (bytes : Nat) : Expression := .unary (.bytesCast (.bytes bytes) .dynamicBytes) buffer

example : (run [.gen (first 4), .kill 0, .gen (first 8)]).set.findExpression (first 8) = some 3 := by decide

/-- The first four and the first eight bytes of a buffer are one expression. -/
theorem casts_have_one_node : ¬ ∀ acts, NumbersSoundly acts := by
  intro hall
  have h := hall [.gen (first 4), .gen (first 8)] [.gen (first 4)] [.gen (first 8)] (first 4) (first 8) 1
    (List.prefix_refl _) ⟨⟨first 4, by simp, mem_visited_self _⟩, by decide⟩
    ⟨⟨first 8, by simp, mem_visited_self _⟩, by decide⟩
  exact absurd h.1 (by decide)

end Sample

end Solang.Codegen.Subexpressions
