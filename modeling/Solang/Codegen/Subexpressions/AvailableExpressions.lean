import Solang.Codegen.ReachingFacts

/-!
# Available expressions

`codegen/subexpression_elimination`: a set of available expressions is a graph with a node for
each expression, which the set finds by a key: the operator and the numbers of the operands, or
what is in a leaf. Only what says which expressions get the same node is modelled; the variables
and blocks that the nodes also carry are not.
-/

namespace Solang.Codegen

namespace IndexMap

variable {κ ν : Type} [DecidableEq κ]

/-- `retain` -/
def retain (p : κ → ν → Bool) (m : IndexMap κ ν) : IndexMap κ ν where
  entries := m.entries.filter fun e => p e.1 e.2
  nodupKeys := m.nodupKeys.sublist List.filter_sublist

/-- `get_mut`, and a change of the value if there is one -/
def modify (k : κ) (f : ν → ν) (m : IndexMap κ ν) : IndexMap κ ν :=
  match m.lookup k with
  | some v => m.insert k (f v)
  | none => m

theorem lookup_retain (p : κ → ν → Bool) (m : IndexMap κ ν) (k : κ) :
    (m.retain p).lookup k = (m.lookup k).filter (p k) := by
  ext v
  rw [← mem_entries_iff, Option.filter_eq_some_iff, ← mem_entries_iff]
  exact List.mem_filter

theorem lookup_modify (k j : κ) (f : ν → ν) (m : IndexMap κ ν) :
    (m.modify k f).lookup j = if j = k then (m.lookup j).map f else m.lookup j := by
  unfold modify
  by_cases hj : j = k
  · subst hj
    rcases h : m.lookup j with _ | v
    · simp [h]
    · simp
  · rcases h : m.lookup k with _ | v
    · simp [hj]
    · simp [hj]

end IndexMap

namespace Subexpressions

/-- `operator::Operator` -/
inductive Operator where
  | add
  | overflowingAdd
  | subtract
  | overflowingSubtract
  | multiply
  | overflowingMultiply
  | signedDivide
  | unsignedDivide
  | modulo
  | signedModulo
  | unsignedModulo
  | power
  | overflowingPower
  | bitwiseOr
  | bitwiseAnd
  | bitwiseXor
  | shiftLeft
  | signedShiftRight
  | unsignedShiftRight
  | signedMore
  | unsignedMore
  | signedLess
  | unsignedLess
  | signedMoreEqual
  | unsignedMoreEqual
  | signedLessEqual
  | unsignedLessEqual
  | equal
  | notEqual
  | stringConcat
  | stringCompare
  | advancePointer
  | not
  | zeroExt (ty : Ty)
  | signExt (ty : Ty)
  | trunc (ty : Ty)
  | cast (ty : Ty)
  | bytesCast
  | negate
  | overflowingNegate
  | bitwiseNot
  deriving DecidableEq

/-- `get_ave_operator`, for the expressions of `get_unary_operand` -/
def unaryOperator : UnaryOp → Option Operator
  | .zeroExt ty => some (.zeroExt ty)
  | .signExt ty => some (.signExt ty)
  | .trunc ty => some (.trunc ty)
  | .cast ty => some (.cast ty)
  | .bytesCast _ _ => some .bytesCast
  | .not => some .not
  | .bitwiseNot _ => some .bitwiseNot
  | .negate _ overflowing => some (if overflowing then .overflowingNegate else .negate)
  | .getRef _ | .load _ | .structMember _ _ | .storageArrayLength _ _ | .vectorData
  | .allocDynamicBytes _ _ => none

/-- `get_ave_operator`, for the expressions of `get_commutative_operands` and
`get_non_commutative_operands` and for `StringCompare` -/
def binaryOperator : BinaryOp → Option Operator
  | .add _ overflowing => some (if overflowing then .overflowingAdd else .add)
  | .subtract _ overflowing => some (if overflowing then .overflowingSubtract else .subtract)
  | .multiply _ overflowing => some (if overflowing then .overflowingMultiply else .multiply)
  | .signedDivide _ => some .signedDivide
  | .unsignedDivide _ => some .unsignedDivide
  | .signedModulo _ => some .signedModulo
  | .unsignedModulo _ => some .unsignedModulo
  | .power _ overflowing => some (if overflowing then .overflowingPower else .power)
  | .bitwiseOr _ => some .bitwiseOr
  | .bitwiseAnd _ => some .bitwiseAnd
  | .bitwiseXor _ => some .bitwiseXor
  | .shiftLeft _ => some .shiftLeft
  | .shiftRight _ signed => some (if signed then .signedShiftRight else .unsignedShiftRight)
  | .more signed => some (if signed then .signedMore else .unsignedMore)
  | .less signed => some (if signed then .signedLess else .unsignedLess)
  | .moreEqual signed => some (if signed then .signedMoreEqual else .unsignedMoreEqual)
  | .lessEqual signed => some (if signed then .signedLessEqual else .unsignedLessEqual)
  | .equal => some .equal
  | .notEqual => some .notEqual
  | .stringCompare => some .stringCompare
  | .advancePointer => some .advancePointer
  | .subscript _ _ => none

/-- The expressions that `find_commutative` and `process_commutative` are for -/
def isCommutative : BinaryOp → Bool
  | .add _ _ | .multiply _ _ | .bitwiseOr _ | .bitwiseAnd _ | .bitwiseXor _ | .equal | .notEqual
  | .stringCompare => true
  | _ => false

abbrev NodeId := Nat

inductive ConstantType where
  | bool (value : Bool)
  | bytes (value : List UInt8)
  | number (value : Int)
  deriving DecidableEq

inductive ExpressionType where
  | binaryOperation (left right : NodeId) (operator : Operator)
  | unaryOperation (operand : NodeId) (operator : Operator)
  | variable (varNo : Nat)
  | functionArg (argNo : Nat)
  | literal (value : ConstantType)
  deriving DecidableEq

structure BasicExpression where
  exprType : ExpressionType
  children : List NodeId

structure AvailableExpressionSet where
  expressionMemory : IndexMap NodeId BasicExpression
  exprMap : IndexMap ExpressionType NodeId

/-- A set, and the counter that all sets have in common -/
structure State where
  set : AvailableExpressionSet
  globalIdCounter : NodeId

/-- The key of a leaf; `get_constant_expression_type` for the literals -/
def leafType : Expression → Option ExpressionType
  | .numberLiteral _ value => some (.literal (.number value))
  | .boolLiteral value => some (.literal (.bool value))
  | .bytesLiteral _ value => some (.literal (.bytes value))
  | .variable _ varNo => some (.variable varNo)
  | .functionArg _ argNo => some (.functionArg argNo)
  | _ => none

namespace AvailableExpressionSet

/-- `find_expression`. A string that is compared at compile time is not found. -/
def findExpression (s : AvailableExpressionSet) : Expression → Option NodeId
  | .binary op left right => do
    let operator ← binaryOperator op
    let leftId ← s.findExpression left
    let rightId ← s.findExpression right
    (s.exprMap.lookup (.binaryOperation leftId rightId operator)).or
      (if isCommutative op then s.exprMap.lookup (.binaryOperation rightId leftId operator) else none)
  | .unary op expr => do
    let operator ← unaryOperator op
    let id ← s.findExpression expr
    s.exprMap.lookup (.unaryOperation id operator)
  | e => (leafType e).bind s.exprMap.lookup

end AvailableExpressionSet

/-- `add_literal_node`, `add_variable_node`, `add_binary_node` and `add_unary_node`: the operands
are in memory, and get the node as a child. -/
def State.addNode (exprType : ExpressionType) (operands : List NodeId) (s : State) :
    Option NodeId × State :=
  let id := s.globalIdCounter
  let memory := s.set.expressionMemory.insert id ⟨exprType, []⟩
  let addChild (memory : IndexMap NodeId BasicExpression) (operand : NodeId) :=
    memory.modify operand fun b => { b with children := b.children.insert id }
  (some id,
    { set :=
        { expressionMemory := operands.foldl addChild memory
          exprMap := s.set.exprMap.insert exprType id }
      globalIdCounter := id + 1 })

def isCompileTime : Expression → Bool
  | .compileTime _ => true
  | _ => false

/-- The operands of `StringCompare` that are strings of the program are not looked at. -/
def skipsOperands (op : BinaryOp) (left right : Expression) : Bool :=
  op = .stringCompare && (isCompileTime left || isCompileTime right)

/-- `gen_expression` -/
def genExpression (e : Expression) (s : State) : Option NodeId × State :=
  match s.set.findExpression e with
  | some id => (some id, s)
  | none =>
    match e with
    | .binary op left right =>
      match binaryOperator op, skipsOperands op left right with
      | some operator, false =>
        match genExpression left s with
        | (none, s) => (none, s)
        | (some leftId, s) =>
          match genExpression right s with
          | (none, s) => (none, s)
          | (some rightId, s) =>
            s.addNode (.binaryOperation leftId rightId operator) [leftId, rightId]
      | _, _ => (none, s)
    | .unary op expr =>
      match unaryOperator op with
      | some operator =>
        match genExpression expr s with
        | (none, s) => (none, s)
        | (some id, s) => s.addNode (.unaryOperation id operator) [id]
      | none => (none, s)
    | e =>
      match leafType e with
      | some exprType => s.addNode exprType []
      | none => (none, s)

namespace AvailableExpressionSet

def removeChild (s : AvailableExpressionSet) (parent child : NodeId) : AvailableExpressionSet :=
  { s with expressionMemory :=
      s.expressionMemory.modify parent fun b => { b with children := b.children.erase child } }

def removeNode (s : AvailableExpressionSet) (id : NodeId) (exprType : ExpressionType) :
    AvailableExpressionSet where
  expressionMemory := s.expressionMemory.erase id
  exprMap := s.exprMap.erase exprType

/-- `kill_child` and `kill_recursive`, after which the node leaves the memory. A child has a
greater number than its operands, so that the counter bounds the depth. An operand that is being
killed as well keeps the child in the source. -/
def killChild : Nat → NodeId → NodeId → AvailableExpressionSet → AvailableExpressionSet
  | 0, _, _, s => s
  | fuel + 1, parentId, id, s =>
    match s.expressionMemory.lookup id with
    | none => s
    | some node =>
      let s := node.children.foldl (fun s child => killChild fuel id child s) s
      let s := match node.exprType with
        | .binaryOperation left right _ => s.removeChild (if left = parentId then right else left) id
        | _ => s
      s.removeNode id node.exprType

/-- `kill` -/
def kill (fuel varNo : Nat) (s : AvailableExpressionSet) : AvailableExpressionSet :=
  match s.exprMap.lookup (.variable varNo) with
  | none => s
  | some varId =>
    match s.expressionMemory.lookup varId with
    | none => s
    | some node =>
      (node.children.foldl (fun s child => killChild fuel varId child s) s).removeNode varId
        (.variable varNo)

/-- `check_intersection` -/
def checkIntersection (key : ExpressionType) (value : NodeId) (set2 : AvailableExpressionSet) : Bool :=
  match set2.exprMap.lookup key with
  | none => false
  | some value2 =>
    match key with
    | .variable _ => value = value2
    | _ => true

/-- `intersect_sets` -/
def intersectSets (s set2 : AvailableExpressionSet) : AvailableExpressionSet :=
  let exprMap := s.exprMap.retain fun key value => checkIntersection key value set2
  let toMaintain := (exprMap.entries.map Sigma.snd).filter fun id =>
    (set2.expressionMemory.lookup id).isNone
  let clear (memory : IndexMap NodeId BasicExpression) (id : NodeId) :=
    memory.modify id fun b => { b with children := [] }
  let memory := toMaintain.foldl clear s.expressionMemory
  let memory := memory.retain fun id _ =>
    (set2.expressionMemory.lookup id).isSome || toMaintain.contains id
  let keepChildren (memory : IndexMap NodeId BasicExpression) (id : NodeId) :=
    match set2.expressionMemory.lookup id with
    | some node => memory.modify id fun b =>
        { b with children := b.children.filter fun child =>
            node.children.contains child || toMaintain.contains child }
    | none => memory
  { expressionMemory := memory.keys.foldl keepChildren memory
    exprMap := exprMap }

end AvailableExpressionSet

/-! ## Histories -/

/-- What happens to the set on the way through the blocks: an instruction makes its expressions
available and kills the variables that it assigns, a block has a set for each edge into it, and
the other blocks take numbers for their nodes. -/
inductive Action where
  | gen (e : Expression)
  | find (e : Expression)
  | kill (varNo : Nat)
  | intersect (set2 : AvailableExpressionSet)
  | elsewhere (nodes : Nat)

def step (s : State) : Action → State
  | .gen e => (genExpression e s).2
  | .find _ => s
  | .kill varNo => { s with set := s.set.kill s.globalIdCounter varNo }
  | .intersect set2 => { s with set := s.set.intersectSets set2 }
  | .elsewhere nodes => { s with globalIdCounter := s.globalIdCounter + nodes }

/-- The set after these actions; the first block has an empty one. -/
def run (acts : List Action) : State := acts.foldl step ⟨⟨∅, ∅⟩, 0⟩

end Subexpressions

end Solang.Codegen
