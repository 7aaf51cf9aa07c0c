import Solang.Sema.Contracts

/-!
# Overriding functions

`check_inheritance` builds `all_functions` and `virtual_functions` of a contract
from the functions of its linearised bases. `override_needed` has the functions
that are without an implementation or ambiguous so far, by signature.

The errors about symbols other than functions are found by a loop that does not
touch these tables; they are given (`symbolErrors`).
-/

namespace Solang.Sema

/-- What the check reads of a function besides `Function`. -/
structure Declaration extends Function where
  mutability : Mutability
  isAccessor : Bool
  params : List Codegen.Ty
  returns : List Codegen.Ty
  solanaAccounts : List (String × SolanaAccount)

/-- `m` functions in `n` contracts, as `func_decl` lets them through: a function without
body is virtual, a constructor is not, and a library has neither bases nor virtual
functions nor functions without body. -/
structure Program (n m : Nat) where
  ns : Namespace n
  functions : Fin m → Declaration
  contractFunctions : Fin n → List (Fin m)
  symbolErrors : List String
  virtual_of_no_body : ∀ no, (functions no).hasBody = false → (functions no).isVirtual = true
  constructor_not_virtual : ∀ no, (functions no).ty = .constructor →
    (functions no).isVirtual = false
  library_bases : ∀ c, (ns.contracts c).isLibrary = true → ns.bases c = []
  library_functions : ∀ c, (ns.contracts c).isLibrary = true → ∀ no ∈ contractFunctions c,
    (functions no).isVirtual = false ∧ (functions no).hasBody = true

/-! ## Compatibility with a base function -/

/-- `compatible_mutability` -/
def Mutability.compatible : Mutability → Mutability → Bool
  | payable, payable => true
  | nonpayable, nonpayable | nonpayable, payable => true
  | view, view | view, nonpayable | view, payable => true
  | pure, _ => true
  | _, _ => false

/-- `compatible_visibility` -/
def Visibility.compatible : Visibility → Visibility → Bool
  | pub, pub | pub, external | external, pub | external, external => true
  | internal, internal => true
  | priv, priv => true
  | _, _ => false

/-- The accounts of `other` that `accounts` misses, those with other flags, and whether the
rest is in the same order (`check_override_accounts_compatible`). -/
def checkOverrideAccounts (accounts other : List (String × SolanaAccount)) :
    List String × List String × Bool :=
  other.zipIdx.foldl (fun (missing, flags, ordered) ((name, account), no) =>
    match accounts.findIdx? (·.1 == name), accounts.lookup name with
    | some otherNo, some found =>
      if found.isSigner != account.isSigner || found.isWriter != account.isWriter then
        (missing, flags ++ [name], ordered)
      else (missing, flags, ordered && no == otherNo)
    | _, _ => (missing ++ [name], flags, ordered)) ([], [], true)

/-- The errors of `base_function_compatible` -/
def baseFunctionCompatible (base func : Declaration) : List String :=
  let mutability :=
    if !base.isAccessor && !func.isAccessor && !func.mutability.compatible base.mutability then
      ["mutability '" ++ func.mutability.asStr ++ "' of function '" ++ func.id
        ++ "' is not compatible with mutability '" ++ base.mutability.asStr ++ "'"]
    else []
  let visibility :=
    if !func.visibility.compatible base.visibility then
      ["visibility '" ++ func.visibility.asStr ++ "' of function '" ++ func.id
        ++ "' is not compatible with visibility '" ++ base.visibility.asStr ++ "'"]
    else []
  let selector :=
    match func.selector, base.selector with
    | some cur, some prev =>
      if cur = prev then []
      else ["selector of function '" ++ func.id ++ "' different from base selector"]
    | none, some _ => ["selector of function '" ++ func.id ++ "' must match base selector"]
    | some _, none =>
      ["base function needs same selector as selector of function '" ++ func.id ++ "'"]
    | none, none => []
  let (missing, flags, ordered) := checkOverrideAccounts base.solanaAccounts func.solanaAccounts
  let (missing', flags', ordered') := checkOverrideAccounts func.solanaAccounts base.solanaAccounts
  let correspondence :=
    if (missing ++ missing').isEmpty then []
    else ["functions must have the same declared accounts for correct overriding"]
  let annotations := (flags ++ flags').dedup.map fun name =>
    "account '" ++ name ++ "' must be declared with the same annotation for overriding"
  let order :=
    if ordered && ordered' then []
    else ["accounts must be declared in the same order for overriding"]
  mutability ++ visibility ++ selector ++ correspondence ++ annotations ++ order

/-! ## The tables -/

variable {n m : Nat}

/-- `overrideNeeded` has contracts and functions; the keys of `allFunctions` are ascending. -/
structure InheritanceState (m : Nat) where
  overrideNeeded : AList fun _ : String => List (Nat × Fin m)
  virtualFunctions : String → List (Fin m)
  allFunctions : List (Fin m)
  diagnostics : List String

namespace InheritanceState

def error (st : InheritanceState m) (message : String) : InheritanceState m :=
  { st with diagnostics := st.diagnostics ++ [message] }

def errors (st : InheritanceState m) (messages : List String) : InheritanceState m :=
  { st with diagnostics := st.diagnostics ++ messages }

def errorIf (st : InheritanceState m) (b : Bool) (message : String) : InheritanceState m :=
  if b then st.error message else st

def need (st : InheritanceState m) (signature : String) (entry : List (Nat × Fin m)) :
    InheritanceState m :=
  { st with overrideNeeded := st.overrideNeeded.insert signature entry }

def overridden (st : InheritanceState m) (signature : String) : InheritanceState m :=
  { st with overrideNeeded := st.overrideNeeded.erase signature }

def pushVirtual (st : InheritanceState m) (signature : String) (no : Fin m) :
    InheritanceState m :=
  { st with
    virtualFunctions := Function.update st.virtualFunctions signature
      (st.virtualFunctions signature ++ [no]) }

local instance lawfulBEq_fin : LawfulBEq (Fin m) := inferInstance

def insertFunction (st : InheritanceState m) (no : Fin m) : InheritanceState m :=
  { st with
    allFunctions :=
      if no ∈ st.allFunctions then st.allFunctions else st.allFunctions.orderedInsert (· ≤ ·) no }

end InheritanceState

namespace Program

variable (p : Program n m)

/-- `ns.contracts[c]` -/
def contract? (c : Nat) : Option (Contract n) :=
  if h : c < n then some (p.ns.contracts ⟨c, h⟩) else none

def contractName (c : Nat) : String := ((p.contract? c).map (·.id)).getD ""

def contractNames (cs : List Nat) : String := ",".intercalate (cs.map p.contractName)

/-- The errors about the `override` list of `cur`, which overrides the functions of `entry`. -/
def overrideListErrors (cur : Declaration) (list : List Nat) (entry : List (Nat × Fin m)) :
    List String :=
  let source := p.contractNames (entry.map (·.1))
  if list.isEmpty && entry.length > 1 then
    ["function '" ++ cur.id ++ "' should specify override list 'override(" ++ source ++ ")'"]
  else
    let needed := (entry.map (·.1)).dedup
    let missing := needed.filter fun c => !list.contains c
    let extra := list.dedup.filter fun c => !needed.contains c
    (if !missing.isEmpty && needed.length ≥ 2 then
      ["function '" ++ cur.id ++ "' missing overrides '" ++ p.contractNames missing
        ++ "', specify 'override(" ++ source ++ ")'"]
    else []) ++
    (if !extra.isEmpty then
      ["function '" ++ cur.id ++ "' includes extraneous overrides '"
        ++ p.contractNames extra ++ "', specify 'override(" ++ source ++ ")'"]
    else [])

/-- The function `no` of a contract overrides those of `entry`. -/
def checkEntry (entry : List (Nat × Fin m)) (no : Fin m) (st : InheritanceState m) :
    InheritanceState m :=
  let cur := p.functions no
  let st := st.errorIf (entry.any fun e => !(p.functions e.2).isVirtual)
    ("function '" ++ cur.id ++ "' overrides functions which are not 'virtual'")
  match cur.isOverride with
  | some list =>
    let st := st.errors (p.overrideListErrors cur list entry)
    let st := st.errors (entry.flatMap fun e => baseFunctionCompatible (p.functions e.2) cur)
    st.overridden cur.signature
  | none =>
    match entry with
    | [(base, prev)] =>
      -- only functions of an interface are implemented without `override`
      let st := st.errorIf (!(p.contract? base).any (·.isInterface))
        ("function '" ++ cur.id ++ "' should specify 'override'")
      let st := st.errors (baseFunctionCompatible (p.functions prev) cur)
      st.overridden cur.signature
    | _ =>
      st.error ("function '" ++ cur.id ++ "' should specify override list 'override("
        ++ p.contractNames (entry.map (·.1)) ++ ")'")

/-- The function `no` of the contract `base` and an earlier one of the same signature. -/
def checkPrevious (base : Fin n) (no : Fin m) (st : InheritanceState m) (prev : Fin m) :
    InheritanceState m :=
  let cur := p.functions no
  let funcPrev := p.functions prev
  if funcPrev.contractNo = some base.val then
    st.error ("function '" ++ cur.id ++ "' overrides function in same contract")
  else if funcPrev.ty ≠ cur.ty then
    st.error (cur.ty.asStr ++ " '" ++ cur.id ++ "' overrides " ++ funcPrev.ty.asStr)
  else if (funcPrev.params.zip cur.params).any fun (a, b) => a != b then
    st.error (cur.ty.asStr ++ " '" ++ cur.id ++ "' overrides " ++ funcPrev.ty.asStr
      ++ " with different argument types")
  else if (funcPrev.returns.zip cur.returns).any fun (a, b) => a != b then
    st.error (cur.ty.asStr ++ " '" ++ cur.id ++ "' overrides " ++ funcPrev.ty.asStr
      ++ " with different return types")
  else
    let st := st.errors (baseFunctionCompatible funcPrev cur)
    match cur.isOverride with
    | some list =>
      if !funcPrev.isVirtual then
        st.error ("function '" ++ cur.id ++ "' overrides function which is not virtual")
      else if !list.isEmpty && !(funcPrev.contractNo.any list.contains) then
        st.error ("function '" ++ cur.id ++ "' override list does not contain '"
          ++ p.contractName (funcPrev.contractNo.getD 0) ++ "'")
      else st
    | none =>
      if cur.hasBody then
        match st.overrideNeeded.lookup cur.signature with
        | some entry => st.need cur.signature (entry ++ [(base.val, no)])
        | none => st.need cur.signature [(funcPrev.contractNo.getD 0, prev), (base.val, no)]
      else st

/-- `virtual_functions` and `all_functions` with the function `no` -/
def addFunction (no : Fin m) (st : InheritanceState m) : InheritanceState m :=
  let cur := p.functions no
  let st :=
    if cur.isOverride.isSome || cur.isVirtual then st.pushVirtual cur.signature no else st
  st.insertFunction no

/-- The functions of this signature so far. -/
def previousDefs (signature : String) (st : InheritanceState m) : List (Fin m) :=
  st.allFunctions.filter fun no =>
    (p.functions no).ty != .constructor && (p.functions no).signature == signature

/-- The function `no` of the contract `base`, one of the bases of `contractNo`. -/
def checkFunction (contractNo : Fin n) (st : InheritanceState m) (decl : Fin n × Fin m) :
    InheritanceState m :=
  let (base, no) := decl
  let cur := p.functions no
  match st.overrideNeeded.lookup cur.signature with
  | some entry => p.addFunction no (p.checkEntry entry no st)
  | none =>
    let previous := p.previousDefs cur.signature st
    if previous.isEmpty && cur.isOverride.isSome then
      st.error ("'" ++ cur.id ++ "' does not override anything")
    else if previous.isEmpty && !cur.hasBody && (p.ns.contracts contractNo).isConcrete then
      -- a function without body needs an override
      st.need cur.signature [(base.val, no)]
    else p.addFunction no (previous.foldl (p.checkPrevious base no) st)

/-- The functions of the contracts `order`, with the contract of each. -/
def declarations (order : List (Fin n)) : List (Fin n × Fin m) :=
  order.flatMap fun base => (p.contractFunctions base).map fun no => (base, no)

/-- The error for what is left in `override_needed`. -/
def neededErrors (contractNo : Fin n) (list : List (Nat × Fin m)) : List String :=
  match list with
  | [] => []
  | (_, no) :: rest =>
    let func := p.functions no
    if func.isVirtual && !(p.ns.contracts contractNo).isConcrete then []
    else if rest.isEmpty then
      match func.ty with
      | .fallback | .receive =>
        ["contract '" ++ (p.ns.contracts contractNo).id ++ "' missing override for "
          ++ func.ty.asStr ++ " function"]
      | _ =>
        ["contract '" ++ (p.ns.contracts contractNo).id ++ "' missing override for function '"
          ++ func.id ++ "'"]
    else ["function '" ++ func.id ++ "' with this signature already defined"]

/-- `check_inheritance`; `order` are the linearised bases of the contract. -/
def checkInheritance (contractNo : Fin n) (order : List (Fin n)) : InheritanceState m :=
  let st := (p.declarations order).foldl (p.checkFunction contractNo)
    ⟨∅, fun _ => [], [], p.symbolErrors⟩
  st.errors (st.overrideNeeded.entries.flatMap fun e => p.neededErrors contractNo e.2)

end Program

end Solang.Sema
