import Mathlib

/-!
# Types and structs

The types of `sema/ast.rs` and the structs of a namespace, with `memory_size_of`. The functions are
`none` where the source panics, or when the fuel runs out.
-/

namespace Solang.Sema.Structs

inductive ArrayLength where
  | fixed (n : Nat)
  | dynamic
  | anyFixed
  deriving DecidableEq, Repr

inductive StructType where
  | userDefined (no : Nat)
  | accountInfo
  | accountMeta
  | externalFunction
  | solParameters
  deriving DecidableEq, Repr

/-- The dimensions of an array are given innermost first. -/
inductive Ty where
  | address (payable : Bool)
  | bool
  | int (bits : Nat)
  | uint (bits : Nat)
  | rational
  | bytes (n : Nat)
  | dynamicBytes
  | string
  | array (elem : Ty) (dims : List ArrayLength)
  | enum (no : Nat)
  | struct (ty : StructType)
  | mapping (key value : Ty)
  | contract (no : Nat)
  | ref (ty : Ty)
  | storageRef (immutable : Bool) (ty : Ty)
  | internalFunction
  | externalFunction
  | userType (no : Nat)
  | value
  | void
  | unreachable
  | slice (ty : Ty)
  | unresolved
  | bufferPointer
  | functionSelector
  deriving Repr

/-- The types that a user type can stand for: `type_decl` lets no others through. -/
inductive Elementary where
  | address (payable : Bool)
  | bool
  | int (bits : Nat)
  | uint (bits : Nat)
  | bytes (n : Nat)
  | unresolved
  deriving DecidableEq, Repr

def Elementary.ty : Elementary → Ty
  | address payable => .address payable
  | bool => .bool
  | int bits => .int bits
  | uint bits => .uint bits
  | bytes n => .bytes n
  | unresolved => .unresolved

inductive Target where
  | solana
  | polkadot
  | evm
  | soroban
  deriving DecidableEq, Repr

/-- In bits -/
def Target.ptrSize : Target → Nat
  | solana => 64
  | _ => 32

def Target.selectorLength : Target → Nat
  | solana => 8
  | _ => 4

structure Field where
  ty : Ty
  infiniteSize : Bool := false
  recursive : Bool := false
  deriving Repr

structure StructDecl where
  fields : List Field
  offsets : List Nat := []
  storageOffsets : List Nat := []
  deriving Repr

structure Namespace where
  target : Target
  addressLength : Nat
  valueLength : Nat
  structs : List StructDecl
  userTypes : List Elementary
  deriving Repr

def Namespace.pointerSize (ns : Namespace) : Nat := ns.target.ptrSize / 8

/-! ## Builtin structs -/

def accountInfo : StructDecl where
  fields := [⟨.ref (.address false), false, false⟩, ⟨.ref (.uint 64), false, false⟩,
    ⟨.slice (.bytes 1), false, false⟩, ⟨.ref (.address false), false, false⟩, ⟨.uint 64, false, false⟩,
    ⟨.bool, false, false⟩, ⟨.bool, false, false⟩, ⟨.bool, false, false⟩]

def accountMeta : StructDecl where
  fields := [⟨.ref (.address false), false, false⟩, ⟨.bool, false, false⟩, ⟨.bool, false, false⟩]

def externalFunctionStruct : StructDecl where
  fields := [⟨.functionSelector, false, false⟩, ⟨.address false, false, false⟩]

def StructType.definition (ns : Namespace) : StructType → Option StructDecl
  | userDefined no => ns.structs[no]?
  | accountInfo => some Structs.accountInfo
  | accountMeta => some Structs.accountMeta
  | externalFunction => some externalFunctionStruct
  | solParameters => none

/-! ## Size in memory -/

/-- The first time that a struct is met, its definition is looked at. -/
def guardedRecursion {β : Type} (ty : Ty) (structsVisited : List Nat) (bail : β)
    (f : List Nat → Option (β × List Nat)) : Option (β × List Nat) :=
  match ty with
  | .struct (.userDefined n) => if n ∈ structsVisited then some (bail, structsVisited) else f (n :: structsVisited)
  | _ => f structsVisited

/-- A dynamic dimension counts as this many. -/
def ArrayLength.count (dynamic : Nat) : ArrayLength → Option Nat
  | fixed n => some n
  | .dynamic => some dynamic
  | anyFixed => none

/-- The product of the dimensions -/
def product (dynamic : Nat) (dims : List ArrayLength) : Option Nat :=
  (dims.mapM (ArrayLength.count dynamic)).map List.prod

variable (ns : Namespace)

def memorySizeOfInternal : Nat → Ty → List Nat → Option (Nat × List Nat)
  | 0, _, _ => none
  | fuel + 1, ty, structsVisited => guardedRecursion ty structsVisited 0 fun structsVisited =>
    match ty with
    | .enum _ | .bool => some (1, structsVisited)
    | .contract _ | .address _ => some (ns.addressLength, structsVisited)
    | .bytes n => some (n, structsVisited)
    | .value => some (ns.valueLength, structsVisited)
    | .uint n | .int n => some (n / 8, structsVisited)
    | .array elem dims =>
      if dims.head? = some .dynamic then some (ns.pointerSize, structsVisited)
      else do
        let (size, structsVisited) ← memorySizeOfInternal fuel elem structsVisited
        return (size * (← product ns.pointerSize dims), structsVisited)
    | .struct strTy => do
      let decl ← strTy.definition ns
      decl.fields.foldlM (fun (sum, structsVisited) field => do
        let (size, structsVisited) ← memorySizeOfInternal fuel field.ty structsVisited
        return (sum + size, structsVisited)) (0, structsVisited)
    | .string | .dynamicBytes | .slice _ | .internalFunction | .ref _ | .storageRef _ _ =>
      some (ns.pointerSize, structsVisited)
    | .externalFunction => do
      let (address, structsVisited) ← memorySizeOfInternal fuel (.address false) structsVisited
      let (selector, structsVisited) ← memorySizeOfInternal fuel (.uint 32) structsVisited
      return (address + selector, structsVisited)
    | .unresolved | .mapping _ _ => some (0, structsVisited)
    | .userType no => do
      let decl ← ns.userTypes[no]?
      memorySizeOfInternal fuel decl.ty structsVisited
    | .functionSelector => some (ns.target.selectorLength, structsVisited)
    | .rational | .void | .unreachable | .bufferPointer => none

def memorySizeOf (fuel : Nat) (ty : Ty) : Option Nat := (memorySizeOfInternal ns fuel ty []).map (·.1)

/-! ## Accepted types -/

/-- What `resolve_type` lets through, and what structs and variables are declared with -/
def Ty.Accepted : Ty → Prop
  | .array elem dims => elem.Accepted ∧ dims ≠ [] ∧ ∀ d ∈ dims, d = .dynamic ∨ ∃ n > 0, d = .fixed n
  | .struct (.userDefined no) => no < ns.structs.length
  | .struct .solParameters => False
  | .mapping key val => key.Accepted ∧ val.Accepted
  | .ref ty | .storageRef _ ty | .slice ty => ty.Accepted
  | .userType no => no < ns.userTypes.length
  | .rational | .void | .unreachable | .bufferPointer => False
  | _ => True

/-- The fields of structs are accepted types. -/
def Namespace.Accepted : Prop := ∀ decl ∈ ns.structs, ∀ field ∈ decl.fields, field.ty.Accepted ns

end Solang.Sema.Structs

/-!
## Recursive structs

`find_struct_recursion`: the structs are the nodes of a graph, with an edge for every struct that a field
can reach. The graph library is a parameter, as is the order in which a hash set of edges is taken.
-/

namespace Solang.Sema.Structs

/-- The weight of an edge is the number of the field. -/
structure Edge where
  source : Nat
  target : Nat
  weight : Nat
  deriving DecidableEq, Repr

/-- `node_count` of a graph made by `from_edges`: there are nodes up to the largest that has an edge. -/
def nodeCount (graph : List Edge) : Nat := (graph.map fun edge => max edge.source edge.target + 1).foldl max 0

/-- The graph library -/
structure Petgraph where
  tarjanScc : List Edge → List (List Nat)
  /-- From a node, to a node, with a least and a greatest number of nodes between -/
  allSimplePaths : List Edge → Nat → Nat → Nat → Option Nat → List (List Nat)

/-- A user type stands for an elementary type. -/
def Ty.userStructNo : Ty → List Nat
  | .struct (.userDefined n) => [n]
  | .mapping key val => key.userStructNo ++ val.userStructNo
  | .array ty _ | .ref ty | .slice ty | .storageRef _ ty => ty.userStructNo
  | _ => []

variable (ns : Namespace)

def Namespace.field? (structNo fieldNo : Nat) : Option Field :=
  ns.structs[structNo]?.bind fun decl => decl.fields[fieldNo]?

def Namespace.modifyField (structNo fieldNo : Nat) (f : Field → Field) : Namespace :=
  { ns with structs := ns.structs.modify structNo fun decl =>
      { decl with fields := decl.fields.modify fieldNo f } }

/-- A field whose edge is infinite -/
def Ty.hard : Ty → Bool
  | .array _ dims => .dynamic ∉ dims
  | .struct (.userDefined _) => true
  | _ => false

def edgesConnecting (graph : List Edge) (a b : Nat) : List Edge :=
  graph.filter fun edge => edge.source = a && edge.target = b

/-- `windows(2)` -/
def windows (nodes : List Nat) : List (Nat × Nat) := nodes.zip nodes.tail

/-- The edges between two nodes that are infinite -/
def hardEdges (graph : List Edge) (w : Nat × Nat) : List Edge :=
  (edgesConnecting graph w.1 w.2).filter fun edge => (ns.field? edge.source edge.weight).any (·.ty.hard)

def checkInfiniteStructSize (graph : List Edge) (nodes : List Nat) : Namespace :=
  let infiniteSize := (windows nodes).all fun w => !(hardEdges ns graph w).isEmpty
  let offenders := (windows nodes).flatMap (hardEdges ns graph)
  if infiniteSize then
    offenders.foldl (fun ns edge => ns.modifyField edge.source edge.weight ({ · with infiniteSize := true })) ns
  else ns

def Namespace.anyInfinite (structNo : Nat) : Bool :=
  (ns.structs[structNo]?).any fun decl => decl.fields.any (·.infiniteSize)

/-- The body of the inner loop of `check_recursive_struct_field` -/
def markRecursive (edge : Edge) : Namespace :=
  let ns := ns.modifyField edge.source edge.weight ({ · with recursive := true })
  if ns.anyInfinite edge.target then ns.modifyField edge.source edge.weight ({ · with infiniteSize := true }) else ns

variable (lib : Petgraph)

def checkRecursiveStructField (node : Nat) (graph : List Edge) : Namespace :=
  (List.range ns.structs.length).foldl (fun ns n =>
    (lib.allSimplePaths graph n node 0 none).foldl (fun ns path =>
      (windows path).foldl (fun ns w => (edgesConnecting graph w.1 w.2).foldl markRecursive ns) ns) ns) ns

/-- `none` when the fuel runs out -/
def collectStructEdges : Nat → Nat → List Edge → Option (List Edge)
  | 0, _, _ => none
  | fuel + 1, no, edges =>
    ((ns.structs[no]?.map StructDecl.fields).getD []).zipIdx.foldlM (fun edges (field, fieldNo) =>
      field.ty.userStructNo.foldlM (fun edges reaching =>
        let edge := ⟨no, reaching, fieldNo⟩
        if edge ∈ edges then some edges else collectStructEdges fuel reaching (edge :: edges)) edges) edges

/-- The first cycle that is found through a node -/
def firstCycle (graph : List Edge) (n : Nat) : Option (List Nat) :=
  (lib.allSimplePaths graph n n 0 (some (nodeCount graph))).head?

def checkNode (graph : List Edge) (n : Nat) : Namespace :=
  match firstCycle lib graph n with
  | some cycle => checkRecursiveStructField (checkInfiniteStructSize ns graph cycle) lib n graph
  | none => ns

/-- The nodes in the order in which they are looked at -/
def nodeOrder (graph : List Edge) : List Nat := (lib.tarjanScc graph).flatten.destutter (· ≠ ·)

/-- An error about a struct, with notes about its fields -/
structure InfiniteSize where
  structNo : Nat
  message : String
  notes : List String
  deriving DecidableEq, Repr

/-- The names of the structs and of their fields -/
structure Names where
  id : Nat → String
  field : Nat → Nat → String

def infiniteSizeError (names : Names) (n : Nat) : Option InfiniteSize :=
  let fields := ((ns.structs[n]?.map StructDecl.fields).getD []).zipIdx.filter (·.1.infiniteSize)
  let notes := fields.map fun (_, fieldNo) => "recursive field '" ++ names.field n fieldNo ++ "'"
  if notes.isEmpty then none else some ⟨n, "struct '" ++ names.id n ++ "' has infinite size", notes⟩

def infiniteSizeErrors (names : Names) : List InfiniteSize :=
  (List.range ns.structs.length).filterMap (infiniteSizeError ns names)

/-- `order` is the order in which the hash set of edges is taken. -/
def structGraph (order : List Edge → List Edge) (fuel : Nat) : Option (List Edge) :=
  ((List.range ns.structs.length).foldlM (fun edges n => collectStructEdges ns fuel n edges) []).map order

/-- The flags that the check leaves -/
def checkNodes (graph : List Edge) : Namespace :=
  (nodeOrder lib graph).foldl (fun ns n => checkNode ns lib graph n) ns

/-- The flags that the check leaves, with the errors -/
def findStructRecursion (order : List Edge → List Edge) (names : Names) (fuel : Nat) :
    Option (Namespace × List InfiniteSize) := do
  let graph ← structGraph ns order fuel
  let ns := checkNodes ns lib graph
  return (ns, infiniteSizeErrors ns names)

end Solang.Sema.Structs
