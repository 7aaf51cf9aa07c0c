import Solang.Sema.Inheritance
import Solang.Sema.Selectors

/-!
# Names in the metadata

Overloaded functions are mangled in the metadata: `mangle_function_names` marks them, and
`check_mangled_function_names` and `unique_constructor_names` report names that clash. The names are
those of the constructors and the messages in `gen_project` of `abi/polkadot.rs`.
-/

namespace Solang.Sema

/-! ## Mangled names -/

/-- `str::replace` of a character -/
def replaceChar (c : Char) (r : String) (t : List Char) : List Char :=
  t.flatMap fun ch => if ch = c then r.toList else [ch]

/-- `str::replace` of `[]` -/
def replaceBrackets : List Char → List Char
  | '[' :: ']' :: t => "Array".toList ++ replaceBrackets t
  | ch :: t => ch :: replaceBrackets t
  | [] => []

def mangle (signature : String) : String :=
  let t := replaceChar '(' "_" signature.toList
  let t := replaceChar ')' "" t
  let t := replaceChar ',' "_" t
  let t := replaceBrackets t
  let t := replaceChar '[' "Array" t
  String.ofList (replaceChar ']' "" t)

/-- `Function::new`; the parameters are given by their types in signatures. -/
def Function.new (id : String) (contractNo : Option Nat) (ty : FunctionTy) (visibility : Visibility)
    (params : List String) : Function :=
  let signature :=
    match ty with
    | .fallback => "@fallback"
    | .receive => "@receive"
    | _ => id ++ "(" ++ ",".intercalate params ++ ")"
  { id := id
    ty := ty
    contractNo := contractNo
    visibility := visibility
    signature := signature
    mangledName := mangle signature
    mangledNameContracts := []
    selector := none
    isVirtual := false
    isOverride := none
    hasBody := false }

/-- The constructor of a contract without one -/
def Function.defaultConstructor (contractNo : Nat) : Function :=
  { Function.new "" (some contractNo) .constructor .pub [] with hasBody := true }

variable {n m : Nat}

/-- A function is marked as mangled in a contract. -/
def Declaration.mark (f : Declaration) (contractNo : Nat) : Declaration :=
  { f with
    mangledNameContracts :=
      if contractNo ∈ f.mangledNameContracts then f.mangledNameContracts
      else f.mangledNameContracts ++ [contractNo] }

/-- The functions, and the last one of each name that was seen -/
structure MangleState (m : Nat) where
  repeatedNames : String → Option (Fin m)
  functions : Fin m → Declaration

def MangleState.mark (st : MangleState m) (contractNo : Nat) (no : Fin m) : MangleState m :=
  { st with functions := Function.update st.functions no ((st.functions no).mark contractNo) }

/-- The loop of `mangle_function_names` -/
def mangleFunction (contractNo : Nat) (st : MangleState m) (no : Fin m) : MangleState m :=
  let function := st.functions no
  let notCallable := !function.isPublic && (function.ty != .function || function.ty != .constructor)
  if function.isOverride.isSome || notCallable then st
  else
    let st' := { st with repeatedNames := Function.update st.repeatedNames function.id (some no) }
    match st.repeatedNames function.id with
    | none => st'
    | some oldNo => (st'.mark contractNo oldNo).mark contractNo no

/-- `mangle_function_names` -/
def mangleFunctionNames (contractNo : Nat) (allFunctions : List (Fin m)) (functions : Fin m → Declaration) :
    Fin m → Declaration :=
  (allFunctions.foldl (mangleFunction contractNo) ⟨fun _ => none, functions⟩).functions

/-! ## Checks -/

/-- `polkadot_requires_public_functions`, behind these errors -/
def polkadotRequiresPublicFunctions (errors : List String) (contract : Contract n)
    (allFunctions : List (Fin m)) (functions : Fin m → Declaration) : List String :=
  if errors.isEmpty && contract.isConcrete &&
      !allFunctions.any fun no =>
        match (functions no).ty with
        | .function => (functions no).isPublic
        | .fallback | .receive => true
        | _ => false then
    ["contracts without public storage or functions are not allowed on Polkadot. Consider declaring this contract abstract: 'abstract contract "
      ++ contract.id ++ "'"]
  else []

/-- The loop of `unique_constructor_names`; `names` has the last function of each mangled name. -/
def uniqueNames (functions : Fin m → Declaration) (names : String → Option (Fin m)) : List (Fin m) → List String
  | [] => []
  | no :: rest =>
    let func := functions no
    if !func.isPublic then uniqueNames functions names rest
    else
      (if (names func.mangledName).isSome then ["Non unique function or constructor name '" ++ func.id ++ "'"]
        else []) ++
      uniqueNames functions (Function.update names func.mangledName (some no)) rest

/-- `unique_constructor_names`, behind these errors -/
def uniqueConstructorNames (errors : List String) (contractFunctions : List (Fin m))
    (functions : Fin m → Declaration) : List String :=
  if !errors.isEmpty then [] else uniqueNames functions (fun _ => none) contractFunctions

/-- `check_mangled_function_names` -/
def checkMangledFunctionNames (allFunctions : List (Fin m)) (functions : Fin m → Declaration) : List String :=
  let publicFunctions := (allFunctions.filter fun f => (functions f).isPublic).filter fun f =>
    (functions f).ty = .function || (functions f).ty = .constructor
  publicFunctions.flatMap fun f =>
    if publicFunctions.any fun other => (functions f).mangledName = (functions other).id then
      ["mangling the symbol of overloaded function '" ++ (functions f).id ++ "' with signature '"
        ++ (functions f).signature ++ "' results in a new symbol '" ++ (functions f).mangledName
        ++ "' but this symbol already exists"]
    else []

namespace Program

variable (p : Program n m) (hash : SelectorHash) (c : Fin n) (order : List (Fin n))

/-- The functions once those of the contract are mangled -/
def mangled : Fin m → Declaration :=
  mangleFunctionNames c.val (p.checkInheritance c order).allFunctions p.functions

/-- What `verify_unique_selector` reads -/
def selectorContext : SelectorContext where
  hash := hash
  target := .polkadot
  functions no := if h : no < m then (p.mangled c order ⟨no, h⟩).toFunction else Function.defaultConstructor c.val
  contractNo := c.val
  isConcrete := (p.ns.contracts c).isConcrete
  allFunctions := (p.checkInheritance c order).allFunctions.map (·.val)

/-- The errors of the loop over the contracts in `resolve`, for one contract -/
def resolveContract : List String :=
  let st := p.checkInheritance c order
  let functions := p.mangled c order
  let errors := st.diagnostics ++ (p.selectorContext hash c order).verifyUniqueSelector
  let errors := errors ++ polkadotRequiresPublicFunctions errors (p.ns.contracts c) st.allFunctions functions
  let errors := errors ++ uniqueConstructorNames errors (p.contractFunctions c) functions
  errors ++ checkMangledFunctionNames st.allFunctions functions

/-! ## The metadata -/

/-- `function_externally_callable` -/
def externallyCallable (no : Fin m) : Bool :=
  let func := p.mangled c order no
  -- a virtual function that is overridden is not public
  if func.isVirtual && ((p.checkInheritance c order).virtualFunctions func.signature).getLast? != some no then false
  else
    match func.contractNo with
    | some base =>
      !((p.contract? base).any (·.isLibrary) || (func.isConstructor && c.val != base)) && func.isPublic &&
        func.ty != .modifier
    | none => false

/-- `constructor_spec` -/
def constructorLabel (f : Function) : String := if f.id.isEmpty then "new" else f.id

/-- `message_spec` -/
def messageLabel (f : Function) : String :=
  if f.mangledNameContracts.contains c.val then f.mangledName else f.id

def exportedConstructors : List (Fin m) :=
  (p.contractFunctions c).filter fun no => (p.mangled c order no).isConstructor && p.externallyCallable c order no

/-- A contract without constructors has a default one. -/
def hasDefaultConstructor : Bool := !(p.contractFunctions c).any fun no => (p.functions no).isConstructor

def messages : List (Fin m) :=
  ((p.checkInheritance c order).allFunctions.filter (p.externallyCallable c order)).filter fun no =>
    !(p.mangled c order no).isConstructor

/-- The labels of `gen_project` -/
def exportedNames : List String :=
  (p.exportedConstructors c order).map (fun no => constructorLabel (p.mangled c order no).toFunction) ++
    (if p.hasDefaultConstructor c then [constructorLabel (Function.defaultConstructor c.val)] else []) ++
    (p.messages c order).map fun no => messageLabel c (p.mangled c order no).toFunction

end Program

end Solang.Sema
