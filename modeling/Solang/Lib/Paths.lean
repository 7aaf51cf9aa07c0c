import Mathlib.Data.List.Basic

/-!
# Paths and files

Unix paths as text, and a file system without links. Whether a path leads to a file is asked step by
step, so that `a/../b` leads nowhere where there is no directory `a`; as text it is the path `b`.
-/

namespace Paths

/-- What is between the slashes of a path -/
inductive Part where
  /-- A dot, or nothing -/
  | here
  | up
  | name (name : String)
  deriving DecidableEq

structure Path where
  /-- The path starts with a slash. -/
  root : Bool
  parts : List Part
  deriving DecidableEq

/-- The path from the root by these names -/
def fullPath (names : List String) : Path := ⟨true, names.map .name⟩

namespace Path

/-- Dots and slashes that say nothing are left out: paths are equal if their components are. -/
def components (path : Path) : Path where
  root := path.root
  parts :=
    match path.parts with
    | [] => []
    | part :: rest =>
      if path.root then (part :: rest).filter (· ≠ .here) else part :: rest.filter (· ≠ .here)

def join (path file : Path) : Path :=
  if file.root then file
  -- only a slash is added
  else if file.parts = [] ∧ path.parts ≠ [] then ⟨path.root, path.parts ++ [.here]⟩
  else ⟨path.root, path.parts ++ file.parts⟩

/-- The path without its last component -/
def parent (path : Path) : Option Path :=
  if path.components.parts = [] then none else some ⟨path.root, path.components.parts.dropLast⟩

def stripPrefix (path base : Path) : Option Path :=
  let components := path.components
  let before := base.components
  if before.parts.isPrefixOf components.parts ∧ (before.root = components.root ∨ before = ⟨false, []⟩) then
    some ⟨components.root && !before.root, components.parts.drop before.parts.length⟩
  else none

end Path

/-- Where the parts lead as text -/
def collapse : List String → List Part → List String
  | names, [] => names
  | names, .here :: parts => collapse names parts
  | names, .up :: parts => collapse names.dropLast parts
  | names, .name name :: parts => collapse (names ++ [name]) parts

@[simp] theorem components_fullPath (names : List String) : (fullPath names).components = fullPath names := by
  have hfilter : (names.map Part.name).filter (· ≠ .here) = names.map .name := by
    rw [List.filter_eq_self]
    simp
  cases names with
  | nil => rfl
  | cons name names => exact congrArg (Path.mk true) hfilter

theorem fullPath_injective : Function.Injective fullPath := by
  intro names names' h
  exact List.map_injective_iff.mpr (fun _ _ => Part.name.inj) (Path.mk.inj h).2

/-! ## File systems -/

/-- Why a file is not read -/
inductive ReadError where
  | cannotOpen (info : String)
  | failedToRead (info : String)

inductive Node where
  | dir
  | file (contents : Except ReadError String)

def isDir : Option Node → Bool
  | some .dir => true
  | _ => false

structure FileSystem where
  /-- What is at the end of these names from the root -/
  lookup : List String → Option Node
  root : isDir (lookup [])
  /-- What there is, is in a directory. -/
  parent_dir : ∀ names name, (lookup (names ++ [name])).isSome → isDir (lookup names)
  /-- The current directory -/
  cwd : List String
  cwd_dir : isDir (lookup cwd)

namespace FileSystem

variable (fs : FileSystem)

/-- The names from the root to where the parts lead; each part is asked of a directory. -/
def walk : List String → List Part → Option (List String)
  | names, [] => some names
  | names, part :: parts =>
    if isDir (fs.lookup names) then
      match part with
      | .here => walk names parts
      | .up => walk names.dropLast parts
      | .name name => if (fs.lookup (names ++ [name])).isSome then walk (names ++ [name]) parts else none
    else none

/-- The names of the full path -/
def canonicalize (path : Path) : Option (List String) :=
  if path = ⟨false, []⟩ then none else fs.walk (if path.root then [] else fs.cwd) path.parts

def read (names : List String) : Except ReadError String :=
  match fs.lookup names with
  | none => .error (.cannotOpen "No such file or directory (os error 2)")
  | some .dir => .error (.failedToRead "Is a directory (os error 21)")
  | some (.file contents) => contents

variable {fs}

theorem walk_eq_collapse {names names' : List String} {parts : List Part}
    (h : fs.walk names parts = some names') : names' = collapse names parts := by
  induction parts generalizing names with
  | nil => exact (Option.some.inj h).symm
  | cons part parts ih =>
    unfold walk at h
    split at h
    · cases part with
      | here | up => exact ih h
      | name name =>
        dsimp only at h
        split at h
        · exact ih h
        · cases h
    · cases h

/-- Without links a path leads where it leads as text, if it leads anywhere. -/
theorem eq_collapse {path : Path} {names : List String} (hroot : path.root = true)
    (h : fs.canonicalize path = some names) : names = collapse [] path.parts := by
  unfold canonicalize at h
  split at h
  · cases h
  · exact walk_eq_collapse h

end FileSystem

end Paths
