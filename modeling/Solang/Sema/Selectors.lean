import Solang.Sema.Contracts

/-!
# Unique selectors

`verify_unique_selector` goes through the functions of a contract in the order
of their numbers and keeps the first function of each selector. Every other
function with that selector is compared with that first one only.
-/

namespace Solang.Sema

open Codegen.Encoding (Target)

/-- What the check reads of the namespace: the functions, the contract and its
`all_functions`, whose keys are in ascending order. -/
structure SelectorContext where
  hash : SelectorHash
  target : Target
  functions : Nat → Function
  contractNo : Nat
  isConcrete : Bool
  allFunctions : List Nat

namespace SelectorContext

def selectorOf (ctx : SelectorContext) (no : Nat) : List UInt8 :=
  (ctx.functions no).computeSelector ctx.hash ctx.target ctx.contractNo

/-- On Solana, concrete contracts have selectors of 8 bytes. -/
def lengthErrors (ctx : SelectorContext) (no : Nat) : List String :=
  let length := (ctx.selectorOf no).length
  if ctx.isConcrete && length != ctx.target.selectorLength then
    ["function '" ++ (ctx.functions no).id ++ "' selector must be "
      ++ toString ctx.target.selectorLength ++ " bytes rather than " ++ toString length ++ " bytes"]
  else []

/-- The function `no` has the selector of the earlier function `other`. -/
def sameErrors (ctx : SelectorContext) (no other : Nat) : List String :=
  let func := ctx.functions no
  let prev := ctx.functions other
  if prev.signature != func.signature && func.ty != .constructor && func.isPublic
      && prev.isPublic then
    [func.ty.asStr ++ " '" ++ func.id ++ "' selector is the same as " ++ prev.ty.asStr ++ " '"
      ++ prev.id ++ "'"]
  else []

/-- The loop of the check; `selectors` has the first function of each selector so far. -/
def verifyFrom (ctx : SelectorContext) (selectors : List (List UInt8 × Nat)) :
    List Nat → List String
  | [] => []
  | no :: rest =>
    ctx.lengthErrors no ++
      match selectors.lookup (ctx.selectorOf no) with
      | some other => ctx.sameErrors no other ++ ctx.verifyFrom selectors rest
      | none => ctx.verifyFrom ((ctx.selectorOf no, no) :: selectors) rest

def verifyUniqueSelector (ctx : SelectorContext) : List String :=
  ctx.verifyFrom [] ctx.allFunctions

/-- A function of the contract that a call from outside can name. -/
def Callable (ctx : SelectorContext) (no : Nat) : Prop :=
  no ∈ ctx.allFunctions ∧ (ctx.functions no).isPublic = true ∧ (ctx.functions no).ty ≠ .constructor

instance (ctx : SelectorContext) (no : Nat) : Decidable (ctx.Callable no) :=
  inferInstanceAs (Decidable (_ ∧ _ ∧ _))

/-- Callable functions with different signatures have different selectors. -/
def UniqueSelectors (ctx : SelectorContext) : Prop :=
  ∀ f g, ctx.Callable f → ctx.Callable g →
    (ctx.functions f).signature ≠ (ctx.functions g).signature →
    ctx.selectorOf f ≠ ctx.selectorOf g

/-- The first function with the selector `s`. -/
def firstWith (ctx : SelectorContext) (s : List UInt8) (l : List Nat) : Option Nat :=
  l.find? fun no => ctx.selectorOf no == s

/-- No function that cannot be called from outside stands first with a selector that
callable functions of different signatures share. -/
def NoneShadowed (ctx : SelectorContext) : Prop :=
  ∀ h f g, ctx.firstWith (ctx.selectorOf h) ctx.allFunctions = some h →
    (ctx.functions h).isPublic = false → ctx.Callable f → ctx.Callable g →
    ctx.selectorOf f = ctx.selectorOf h → ctx.selectorOf g = ctx.selectorOf h →
    (ctx.functions f).signature = (ctx.functions g).signature

variable {ctx : SelectorContext}

theorem sameErrors_eq_nil {no other : Nat} (h : ctx.sameErrors no other = [])
    (hno : (ctx.functions no).isPublic = true) (hty : (ctx.functions no).ty ≠ .constructor)
    (hother : (ctx.functions other).isPublic = true) :
    (ctx.functions other).signature = (ctx.functions no).signature := by
  by_contra hne
  have hty' : ((ctx.functions no).ty != .constructor) = true := by simpa using hty
  have hne' : ((ctx.functions other).signature != (ctx.functions no).signature) = true := by
    simpa using hne
  simp [sameErrors, hno, hty', hother, hne'] at h

theorem firstWith_append (s : List UInt8) (l : List Nat) (x : Nat) :
    ctx.firstWith s (l ++ [x])
      = (ctx.firstWith s l).or (if ctx.selectorOf x = s then some x else none) := by
  rw [firstWith, List.find?_append]
  by_cases hs : ctx.selectorOf x = s <;> simp [firstWith, hs]

/-- Without errors, a function is fine with the first one of its selector before it. -/
theorem sameErrors_of_verifyFrom (l : List Nat) {selectors : List (List UInt8 × Nat)}
    {seen : List Nat} (hseen : ∀ s, selectors.lookup s = ctx.firstWith s seen)
    (h : ctx.verifyFrom selectors l = []) {l₁ l₂ : List Nat} {no first : Nat}
    (heq : l = l₁ ++ no :: l₂)
    (hfirst : ctx.firstWith (ctx.selectorOf no) (seen ++ l₁) = some first) :
    ctx.sameErrors no first = [] := by
  induction l generalizing selectors seen l₁ with
  | nil => simp at heq
  | cons x l ih =>
    rw [verifyFrom, List.append_eq_nil_iff] at h
    obtain ⟨-, h⟩ := h
    have hlook := hseen (ctx.selectorOf x)
    cases l₁ with
    | nil =>
      obtain ⟨rfl, -⟩ := List.cons.inj heq
      rw [List.append_nil, ← hlook] at hfirst
      rw [hfirst] at h
      exact (List.append_eq_nil_iff.mp h).1
    | cons y l₁ =>
      obtain ⟨rfl, htail⟩ := List.cons.inj heq
      rw [List.append_cons] at hfirst
      cases hx : ctx.firstWith (ctx.selectorOf x) seen with
      | some other =>
        rw [hlook, hx] at h
        refine ih (fun s => ?_) (List.append_eq_nil_iff.mp h).2 htail hfirst
        rw [hseen, firstWith_append]
        by_cases hs : ctx.selectorOf x = s
        · rw [← hs, hx]
          rfl
        · rw [if_neg hs, Option.or_none]
      | none =>
        rw [hlook, hx] at h
        refine ih (fun s => ?_) h htail hfirst
        rw [List.lookup_cons, firstWith_append, ← hseen]
        by_cases hs : ctx.selectorOf x = s
        · rw [← hs, hlook, hx, if_pos rfl]
          simp
        · rw [if_neg hs, Option.or_none]
          have : (s == ctx.selectorOf x) = false := by simpa using fun h => hs h.symm
          rw [this]

/-- A function of the list is the first one with its selector or was compared with it. -/
theorem eq_or_sameErrors (h : ctx.verifyUniqueSelector = []) {no : Nat}
    (hno : no ∈ ctx.allFunctions) :
    ∃ first, ctx.firstWith (ctx.selectorOf no) ctx.allFunctions = some first ∧
      (no = first ∨ ctx.sameErrors no first = []) := by
  obtain ⟨l₁, l₂, heq⟩ := List.append_of_mem hno
  have hall : ctx.firstWith (ctx.selectorOf no) ctx.allFunctions
      = (ctx.firstWith (ctx.selectorOf no) l₁).or (some no) := by
    rw [heq, firstWith, List.find?_append, List.find?_cons]
    simp [firstWith]
  cases hl : ctx.firstWith (ctx.selectorOf no) l₁ with
  | none => exact ⟨no, by rw [hall, hl]; rfl, .inl rfl⟩
  | some first =>
    refine ⟨first, by rw [hall, hl]; rfl, .inr ?_⟩
    have hseen : ∀ s, List.lookup s [] = ctx.firstWith s [] := fun _ => rfl
    exact sameErrors_of_verifyFrom ctx.allFunctions hseen h heq hl

/-- The check finds every clash but those behind a function that is not callable. -/
theorem uniqueSelectors_iff (ctx : SelectorContext) (h : ctx.verifyUniqueSelector = []) :
    ctx.UniqueSelectors ↔ ctx.NoneShadowed := by
  constructor
  · intro hu _ f g _ _ hf hg hfh hgh
    by_contra hne
    exact hu f g hf hg hne (hfh.trans hgh.symm)
  · intro hn f g hf hg hne hsel
    obtain ⟨first, hfirst, hfcase⟩ := eq_or_sameErrors h hf.1
    obtain ⟨first', hfirst', hgcase⟩ := eq_or_sameErrors h hg.1
    have hsame : first' = first := by
      rw [← hsel, hfirst] at hfirst'
      exact (Option.some.inj hfirst').symm
    subst hsame
    have hself : ctx.selectorOf first' = ctx.selectorOf f := by
      simpa using List.find?_some hfirst
    cases hpub : (ctx.functions first').isPublic with
    | false =>
      refine hne (hn first' f g (hself ▸ hfirst) hpub hf hg hself.symm ?_)
      rw [hself, hsel]
    | true =>
      -- both have the signature of the first one
      have hsig : ∀ no, ctx.Callable no → (no = first' ∨ ctx.sameErrors no first' = []) →
          (ctx.functions no).signature = (ctx.functions first').signature := by
        rintro no ⟨-, hno, hty⟩ (rfl | hs)
        · rfl
        · exact (sameErrors_eq_nil hs hno hty hpub).symm
      exact hne ((hsig f hf hfcase).trans (hsig g hg hgcase).symm)

/-- A function `name()` of the contract; `selector` is the one of its annotation. -/
def sampleFunction (name : String) (visibility : Visibility) (selector : Option (List UInt8)) :
    Function where
  id := name
  ty := .function
  contractNo := some 0
  visibility := visibility
  signature := name ++ "()"
  mangledName := name
  mangledNameContracts := []
  selector := selector
  isVirtual := false
  isOverride := none
  hasBody := true

/-- `keccak256` begins with `26121ff0` on `f()`; nothing else is hashed below. -/
def sampleContext (functions : List Function) : SelectorContext where
  hash := ⟨fun _ => [0x26, 0x12, 0x1f, 0xf0], fun _ => []⟩
  target := .polkadot
  functions no := functions.getD no (sampleFunction "" .internal none)
  contractNo := 0
  isConcrete := true
  allFunctions := List.range functions.length

/-- Two public functions with the selector of `f()`. -/
def annotated : List Function :=
  [sampleFunction "a" .pub (some [0x26, 0x12, 0x1f, 0xf0]),
    sampleFunction "b" .pub (some [0x26, 0x12, 0x1f, 0xf0])]

/-- The internal function `f()` and one public function, also with the selector of `f()`. -/
def oneCallable : SelectorContext :=
  sampleContext [sampleFunction "f" .internal none, annotated[0]]

theorem uniqueSelectors_oneCallable :
    oneCallable.verifyUniqueSelector = [] ∧ oneCallable.UniqueSelectors := by
  have hone : ∀ no ∈ oneCallable.allFunctions, oneCallable.Callable no → no = 1 := by decide
  refine ⟨by decide, (uniqueSelectors_iff oneCallable (by decide)).mpr ?_⟩
  intro h f g _ _ hf hg _ _
  rw [hone f hf.1 hf, hone g hg.1 hg]

/-- The check reports the clash of `a()` and `b()`, but not when the internal function
`f()` comes first. -/
theorem not_uniqueSelectors_shadowed :
    (sampleContext annotated).verifyUniqueSelector ≠ [] ∧
    (sampleContext (sampleFunction "f" .internal none :: annotated)).verifyUniqueSelector = [] ∧
    ¬ (sampleContext (sampleFunction "f" .internal none :: annotated)).UniqueSelectors := by
  refine ⟨by decide, by decide, fun h => ?_⟩
  exact h 1 2 (by decide) (by decide) (by decide) (by decide)

end SelectorContext

end Solang.Sema
