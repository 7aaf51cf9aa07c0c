import Solang.Codegen.Encoding.Types
import Solang.Lib.PostOrder

/-!
# Base contracts

`resolve_base_contracts`, `is_base` and `contract_bases`. The namespace has `n`
contracts; a contract number is a `Fin n`. Both recursions over the bases are
unguarded in the source, so they carry fuel here and are `none` without enough
of it: that a result exists for all large fuel says that they terminate.

Resolving a name looks at the symbols only, which the pass does not change; it
is the function `resolve`.
-/

namespace Solang.Sema

open Relation PostOrder Fuel

inductive ContractTy where
  | abstract
  | contract
  | interface
  | library
  deriving DecidableEq, Repr

def ContractTy.asStr : ContractTy → String
  | abstract => "abstract contract"
  | contract => "contract"
  | interface => "interface"
  | library => "library"

structure Contract (n : Nat) where
  id : String
  ty : ContractTy
  bases : List (Fin n)

namespace Contract

variable {n : Nat}

def isLibrary (c : Contract n) : Bool := c.ty == .library

def isInterface (c : Contract n) : Bool := c.ty == .interface

def isConcrete (c : Contract n) : Bool := c.ty == .contract

end Contract

structure Namespace (n : Nat) where
  contracts : Fin n → Contract n
  diagnostics : List String

/-- A contract definition of one file with the names of its bases. -/
structure ContractDefinition (n : Nat) where
  contractNo : Fin n
  base : List String

namespace Namespace

variable {n : Nat}

def bases (ns : Namespace n) (c : Fin n) : List (Fin n) := (ns.contracts c).bases

/-- `c` has `b` as a base. -/
def Inherits (ns : Namespace n) (c b : Fin n) : Prop := b ∈ ns.bases c

/-- Is `base` a base of `derived`, or the same contract. -/
def isBase (ns : Namespace n) : Nat → Fin n → Fin n → Option Bool
  | 0, _, _ => none
  | fuel + 1, base, derived =>
    if base = derived ∨ base ∈ ns.bases derived then some true
    else (ns.bases derived).anyM fun parent => ns.isBase fuel base parent

/-- Base contracts in depth-first post-order. -/
def contractBases (ns : Namespace n) (fuel : Nat) (c : Fin n) : Option (List (Fin n)) :=
  visit (fun c => (ns.bases c).reverse) fuel c []

def error (ns : Namespace n) (message : String) : Namespace n :=
  { ns with diagnostics := ns.diagnostics ++ [message] }

def pushBase (ns : Namespace n) (c no : Fin n) : Namespace n :=
  { ns with
    contracts := Function.update ns.contracts c
      { ns.contracts c with bases := ns.bases c ++ [no] } }

/-- The base `no` of contract `c`, which does not lead back to `c`. -/
def addBase (ns : Namespace n) (c : Fin n) (name : String) (no : Fin n) : Namespace n :=
  let id := (ns.contracts c).id
  if (ns.contracts c).isInterface && !(ns.contracts no).isInterface then
    ns.error ("interface '" ++ id ++ "' cannot have " ++ (ns.contracts no).ty.asStr ++ " '" ++ name
      ++ "' as a base")
  else if (ns.contracts no).isLibrary then
    ns.error ("library '" ++ name ++ "' cannot be used as base contract for "
      ++ (ns.contracts c).ty.asStr ++ " '" ++ id ++ "'")
  else ns.pushBase c no

/-- One base of the list of contract `c`; `no` is the contract `name` stands for. -/
def resolveBase (ns : Namespace n) (fuel : Nat) (c : Fin n) (name : String) (no : Option (Fin n)) :
    Option (Namespace n) :=
  let id := (ns.contracts c).id
  if (ns.contracts c).isLibrary then
    some (ns.error ("library '" ++ id ++ "' cannot have a base contract"))
  else
    match no with
    | none => some ns
    | some no =>
      if no = c then
        some (ns.error ("contract '" ++ name ++ "' cannot have itself as a base contract"))
      else if no ∈ ns.bases c then
        some (ns.error ("contract '" ++ id ++ "' duplicate base '" ++ name ++ "'"))
      else do
        if ← ns.isBase fuel c no then
          some (ns.error ("base '" ++ name ++ "' from contract '" ++ id ++ "' is cyclic"))
        else some (ns.addBase c name no)

/-- `resolve_base_contracts` on the definitions of one file. -/
def resolveBaseContracts (resolve : String → Option (Fin n)) (fuel : Nat)
    (contracts : List (ContractDefinition n)) (ns : Namespace n) : Option (Namespace n) :=
  contracts.foldlM (fun ns contract =>
    contract.base.foldlM (fun ns name =>
      ns.resolveBase fuel contract.contractNo name (resolve name)) ns) ns

/-- The files of a namespace one after the other, each with its own symbols. -/
def resolveFiles (fuel : Nat)
    (files : List ((String → Option (Fin n)) × List (ContractDefinition n))) (ns : Namespace n) :
    Option (Namespace n) :=
  files.foldlM (fun ns file => resolveBaseContracts file.1 fuel file.2 ns) ns

/-- The contracts as they are declared, before any base is resolved. -/
def declared (contracts : Fin n → String × ContractTy) : Namespace n where
  contracts c := ⟨(contracts c).1, (contracts c).2, []⟩
  diagnostics := []

/-- On an acyclic graph `is_base` terminates and decides reachability. -/
theorem isBase_settles {ns : Namespace n} (h : Acyclic ns.Inherits) (base derived : Fin n) :
    ∃ r, (r = true ↔ ReflTransGen ns.Inherits derived base) ∧
      Settles (fun fuel => ns.isBase fuel base derived) r := by
  induction derived using h.wellFounded.induction with
  | _ derived ih =>
    by_cases hd : base = derived ∨ base ∈ ns.bases derived
    · refine ⟨true, ⟨fun _ => ?_, fun _ => rfl⟩, ?_⟩
      · obtain rfl | hd := hd
        · exact .refl
        · exact .single hd
      · refine Settles.succ (settles_const true) fun fuel => ?_
        rw [isBase, if_pos hd]
    · have hparent : ∀ p, ∃ r, p ∈ ns.bases derived → (r = true ↔ ReflTransGen ns.Inherits p base) ∧
          Settles (fun fuel => ns.isBase fuel base p) r := by
        intro p
        by_cases hp : p ∈ ns.bases derived
        · obtain ⟨r, hr⟩ := ih p hp
          exact ⟨r, fun _ => hr⟩
        · exact ⟨false, fun h => absurd h hp⟩
      choose q hq using hparent
      refine ⟨(ns.bases derived).any q, ?_, ?_⟩
      · rw [List.any_eq_true]
        refine ⟨fun ⟨p, hp, hqp⟩ => .head hp ((hq p hp).1.mp hqp), fun hreach => ?_⟩
        obtain rfl | ⟨p, hp, hpb⟩ := hreach.cases_head
        · exact absurd (.inl rfl) hd
        · exact ⟨p, hp, (hq p hp).1.mpr hpb⟩
      · refine Settles.succ (settles_anyM fun p hp => (hq p hp).2) fun fuel => ?_
        rw [isBase, if_neg hd]

theorem inherits_pushBase {ns : Namespace n} {c no x y : Fin n} (h : (ns.pushBase c no).Inherits x y) :
    ns.Inherits x y ∨ x = c ∧ y = no := by
  by_cases hx : x = c
  · subst hx
    have hy : y ∈ ns.bases x ++ [no] := by
      simpa [Inherits, pushBase, Namespace.bases] using h
    exact (List.mem_append.mp hy).imp_right fun hy => ⟨rfl, List.mem_singleton.mp hy⟩
  · refine .inl ?_
    simpa [Inherits, pushBase, Namespace.bases, hx] using h

theorem acyclic_addBase {ns : Namespace n} {c no : Fin n} {name : String} (h : Acyclic ns.Inherits)
    (hback : ¬ ReflTransGen ns.Inherits no c) : Acyclic (ns.addBase c name no).Inherits := by
  unfold addBase
  dsimp only
  split
  · exact h
  split
  · exact h
  · exact h.insert (fun x y => inherits_pushBase) hback

/-- One base is resolved in finite time and leaves the bases acyclic. -/
theorem resolveBase_settles {ns : Namespace n} (h : Acyclic ns.Inherits) (c : Fin n) (name : String)
    (no : Option (Fin n)) :
    ∃ ns', Acyclic ns'.Inherits ∧ Settles (fun fuel => ns.resolveBase fuel c name no) ns' := by
  have hkeep : ∀ message, Acyclic (ns.error message).Inherits := fun _ => h
  unfold resolveBase
  dsimp only
  split
  · exact ⟨_, hkeep _, settles_const _⟩
  split
  · exact ⟨ns, h, settles_const ns⟩
  split
  · exact ⟨_, hkeep _, settles_const _⟩
  split
  · exact ⟨_, hkeep _, settles_const _⟩
  rename_i no _ _
  obtain ⟨r, hr, hsettles⟩ := isBase_settles h c no
  cases r with
  | true => exact ⟨_, hkeep _, hsettles.bind (settles_const _)⟩
  | false =>
    -- the new base does not lead back to the contract
    have hback : ¬ ReflTransGen ns.Inherits no c := fun hreach => by simpa using hr.mpr hreach
    exact ⟨ns.addBase c name no, acyclic_addBase h hback, hsettles.bind (settles_const _)⟩

theorem resolveFiles_settles (files : List ((String → Option (Fin n)) × List (ContractDefinition n)))
    (ns : Namespace n) (h : Acyclic ns.Inherits) :
    ∃ ns', Acyclic ns'.Inherits ∧ Settles (fun fuel => resolveFiles fuel files ns) ns' := by
  refine settles_foldlM (fun file _ ns hns => ?_) ns h
  refine settles_foldlM (fun contract _ ns hns => ?_) ns hns
  exact settles_foldlM (fun name _ ns hns => resolveBase_settles hns _ name _) ns hns

theorem acyclic_declared (contracts : Fin n → String × ContractTy) :
    Acyclic (declared contracts).Inherits := by
  intro c hc
  obtain ⟨b, hb, -⟩ := TransGen.head'_iff.mp hc
  exact absurd hb List.not_mem_nil

/-- A linearisation of the bases of `c`: each once, `c` last, and bases before what
inherits from them. -/
structure Linearises (ns : Namespace n) (c : Fin n) (order : List (Fin n)) : Prop where
  nodup : order.Nodup
  last : order.getLast? = some c
  mem_iff : ∀ b, b ∈ order ↔ b = c ∨ TransGen ns.Inherits c b
  before : ∀ l x l', order = l ++ x :: l' → ∀ b, TransGen ns.Inherits x b → b ∈ l

theorem contractBases_settles {ns : Namespace n} (h : Acyclic ns.Inherits) (c : Fin n) :
    ∃ order, Linearises ns c order ∧ Settles (fun fuel => ns.contractBases fuel c) order := by
  have hrel : (fun x y => y ∈ (ns.bases x).reverse) = ns.Inherits := by
    funext x y
    exact propext List.mem_reverse
  have hwf : WellFounded fun y x => y ∈ (ns.bases x).reverse := by
    have := h.wellFounded
    rwa [← hrel] at this
  obtain ⟨order, hs, hord, hlast, hmem⟩ := visit_nil hwf c
  rw [hrel] at hmem
  refine ⟨order, ⟨hord.nodup, hlast, fun b => ?_, fun l x l' heq b hb => ?_⟩, hs⟩
  · rw [hmem, reflTransGen_iff_eq_or_transGen]
  · exact hord.before_trans heq (by rwa [hrel])

/-- Whatever bases the contracts list, resolving them terminates, keeps inheritance
acyclic, and the walks over the bases terminate with the linearisation. -/
theorem resolveFiles_linearises (contracts : Fin n → String × ContractTy)
    (files : List ((String → Option (Fin n)) × List (ContractDefinition n))) :
    ∃ ns, Settles (fun fuel => resolveFiles fuel files (declared contracts)) ns ∧
      Acyclic ns.Inherits ∧
      (∀ base derived, ∃ r, (r = true ↔ ReflTransGen ns.Inherits derived base) ∧
        Settles (fun fuel => ns.isBase fuel base derived) r) ∧
      ∀ c, ∃ order, Linearises ns c order ∧ Settles (fun fuel => ns.contractBases fuel c) order := by
  obtain ⟨ns, h, hs⟩ := resolveFiles_settles files _ (acyclic_declared contracts)
  exact ⟨ns, hs, h, isBase_settles h, contractBases_settles h⟩

end Namespace

end Solang.Sema

/-!
## Functions and their selectors

`Function` has what the passes here read of `ast::Function`. The hashes behind
the selectors are parameters (`SelectorHash`).
-/

namespace Solang.Sema

open Codegen.Encoding (Target)

inductive FunctionTy where
  | constructor
  | function
  | fallback
  | receive
  | modifier
  deriving DecidableEq, Repr

def FunctionTy.asStr : FunctionTy → String
  | constructor => "constructor"
  | function => "function"
  | fallback => "fallback"
  | receive => "receive"
  | modifier => "modifier"

inductive Visibility where
  | external
  | pub
  | internal
  | priv
  deriving DecidableEq, Repr

def Visibility.asStr : Visibility → String
  | external => "external"
  | pub => "public"
  | internal => "internal"
  | priv => "private"

inductive Mutability where
  | payable
  | nonpayable
  | view
  | pure
  deriving DecidableEq, Repr

def Mutability.asStr : Mutability → String
  | payable => "payable"
  | nonpayable => "nonpayable"
  | view => "view"
  | pure => "pure"

/-- An account of a function; its name is the key it is stored under. -/
structure SolanaAccount where
  isSigner : Bool
  isWriter : Bool
  generated : Bool
  deriving DecidableEq, Repr

/-- A function has no number of its own: it is an index into the namespace. `contractNo`
is `none` for a free function; `isOverride` has the contracts of the `override` list. -/
structure Function where
  id : String
  ty : FunctionTy
  contractNo : Option Nat
  visibility : Visibility
  signature : String
  mangledName : String
  mangledNameContracts : List Nat
  selector : Option (List UInt8)
  isVirtual : Bool
  isOverride : Option (List Nat)
  hasBody : Bool

namespace Function

def isPublic (f : Function) : Bool :=
  match f.visibility with
  | .external => true
  | .pub => true
  | _ => false

def isConstructor (f : Function) : Bool := f.ty == .constructor

end Function

/-- `keccak256` of the `tiny_keccak` crate and the discriminator of the `sha2` crate. -/
structure SelectorHash where
  keccak256 : String → List UInt8
  functionDiscriminator : String → List UInt8

/-- `Function::selector` -/
def Function.computeSelector (f : Function) (hash : SelectorHash) (target : Target)
    (contractNo : Nat) : List UInt8 :=
  match f.selector with
  | some selector => selector
  | none =>
    if target = .solana then
      match f.ty with
      | .constructor => hash.functionDiscriminator "new"
      | _ =>
        hash.functionDiscriminator
          (if f.mangledNameContracts.contains contractNo then f.mangledName else f.id)
    else (hash.keccak256 f.signature).take 4

end Solang.Sema
