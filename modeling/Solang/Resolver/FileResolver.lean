import Mathlib.Data.List.Perm.Basic
import Solang.Lib.Except
import Solang.Lib.Paths

/-!
# Finding the files of imports

`FileResolver` of `file_resolver.rs`. Files are cached by their full path. A result is an error or
the file, and the cache that is left. `normalize` is the function of the package `normalize_path`.
-/

namespace Solang.Resolver

open Paths

structure ResolvedFile where
  /-- Original name used on cli or import statement -/
  path : Path
  /-- Full path on the filesystem -/
  fullPath : Path
  /-- Which import path was used, if any -/
  importNo : Option Nat
  contents : String

/-- `cached_paths` and `files`. Paths with the same components are the same key. -/
structure Cache where
  cachedPaths : Path → Option Nat
  files : List ResolvedFile
  lt : ∀ path pos, cachedPaths path = some pos → pos < files.length

namespace Cache

def empty : Cache := ⟨fun _ => none, [], nofun⟩

def get (cache : Cache) (path : Path) : Option ResolvedFile :=
  match h : cache.cachedPaths path.components with
  | some pos => some (cache.files.get ⟨pos, cache.lt _ _ h⟩)
  | none => none

def insert (cache : Cache) (file : ResolvedFile) : Cache where
  cachedPaths path :=
    if path = file.fullPath.components then some cache.files.length else cache.cachedPaths path
  files := cache.files ++ [file]
  lt path pos h := by
    rw [List.length_append, List.length_singleton]
    split at h
    · obtain rfl := Option.some.inj h
      exact Nat.lt_succ_self _
    · exact Nat.lt_succ_of_lt (cache.lt path pos h)

theorem get_insert (cache : Cache) (file : ResolvedFile) (path : Path) :
    (cache.insert file).get path =
      if path.components = file.fullPath.components then some file else cache.get path := by
  by_cases h : path.components = file.fullPath.components
  · have hpos : (cache.insert file).cachedPaths path.components = some cache.files.length := if_pos h
    rw [if_pos h]
    unfold get
    split
    next pos hsome =>
      obtain rfl := Option.some.inj (hpos.symm.trans hsome)
      simp [insert]
    next hnone => exact absurd (hpos.symm.trans hnone) nofun
  · have hpos : (cache.insert file).cachedPaths path.components = cache.cachedPaths path.components := if_neg h
    rw [if_neg h]
    unfold get
    split
    next pos hsome =>
      rw [hpos] at hsome
      split
      next pos' hsome' =>
        obtain rfl := Option.some.inj (hsome.symm.trans hsome')
        have hlt := cache.lt _ _ hsome
        simp [insert, hlt]
      next hnone => exact absurd (hsome.symm.trans hnone) nofun
    next hnone =>
      rw [hpos] at hnone
      split
      next pos' hsome' => exact absurd (hnone.symm.trans hsome') nofun
      next => rfl

end Cache

inductive Error where
  /-- `file not found '..'` -/
  | notFound (filename : Path)
  /-- `cannot open file '..': ..` and `failed to read file '..': ..` -/
  | unreadable (path : Path) (error : ReadError)
  /-- `found multiple files matching '..': ..` -/
  | multiple (filename : Path) (fullPaths : List Path)

/-- The import paths, with their maps -/
abbrev Imports := List (Option Path × Path)

abbrev Resolve := ExceptT Error (StateM Cache)

/-- The file, if it is the only one that was found -/
def chooseFile (filename : Path) : List ResolvedFile → Resolve ResolvedFile
  | [] => throw (.notFound filename)
  | [file] => return file
  | files => throw (.multiple filename (files.map ResolvedFile.fullPath))

section

variable (normalize : Path → Path) (fs : FileSystem)

/-- Populate the cache with absolute file path -/
def loadFile (filename : Path) (names : List String) (importNo : Option Nat) : Resolve ResolvedFile := do
  let cached := (← get).get filename
  match cached.filter fun file => file.importNo = importNo with
  | some file => return file
  | none =>
    match fs.read names with
    | .error error => throw (.unreadable (fullPath names) error)
    | .ok contents =>
      let file := ⟨filename, fullPath names, importNo, contents⟩
      modify fun cache => cache.insert file
      return file

/-- Resolve a file, either from the cache or from the filesystem. -/
def tryFile (filename path : Path) (importNo : Option Nat) : Resolve (Option ResolvedFile) := do
  -- for accessing the cache, "." and ".." are removed
  match (← get).get (normalize path) with
  | some file => return some { file with importNo }
  | none =>
    match fs.canonicalize path with
    | some names => return some (← loadFile fs filename names importNo)
    | none => return none

/-- The name starts with `./` or `../`. -/
def isRelative (filename : Path) : Bool :=
  let first := filename.components.parts.head?
  !filename.root && (first = some .here || first = some .up)

/-- Where the maps lead, the last one that applies -/
def remap (imports : Imports) (filename : Path) : Path :=
  imports.foldl (fun remapped (map, target) =>
    match map.bind filename.stripPrefix with
    | some relpath => target.join relpath
    | none => remapped) filename

/-- What is found under the import paths that are no maps, from the number `importNo` on -/
def tryImports (filename path : Path) : Nat → Imports → Resolve (List ResolvedFile)
  | _, [] => return []
  | importNo, (some _, _) :: imports => tryImports filename path (importNo + 1) imports
  | importNo, (none, importPath) :: imports => do
    let file ← tryFile normalize fs filename (importPath.join path) (some importNo)
    let files ← tryImports filename path (importNo + 1) imports
    return file.toList ++ files

def searchImports (imports : Imports) (filename : Path) : Resolve (List ResolvedFile) := do
  let path := remap imports filename
  let files ← tryImports normalize fs filename path 0 imports
  -- without an import path the name is tried as it is
  let direct ← if imports.all (·.1.isSome) then tryFile normalize fs filename path none else pure none
  return files ++ direct.toList

/-- Next to the parent -/
def relativePath (parent : ResolvedFile) (filename : Path) : Path :=
  (parent.fullPath.parent.getD ⟨false, [.here]⟩).join filename

def resolveFile (imports : Imports) (parent : Option ResolvedFile) (filename : Path) :
    Resolve ResolvedFile := do
  if isRelative filename then
    match parent with
    | some parent =>
      match ← tryFile normalize fs filename (relativePath parent filename) parent.importNo with
      -- no ambiguity is possible
      | some file => return file
      | none => throw (.notFound filename)
    | none => throw (.notFound filename)
  else
    let file ← if parent.isNone then tryFile normalize fs filename filename none else pure none
    match file with
    | some file => return file
    | none =>
      if parent.isNone && filename.root then throw (.notFound filename)
      else chooseFile filename (← searchImports normalize fs imports filename)

/-- A call of `resolve_file`: the parent and the name -/
abbrev Call := Option ResolvedFile × Path

/-- The cache after earlier calls -/
def after (imports : Imports) (calls : List Call) : Cache :=
  calls.foldl (fun cache call => (resolveFile normalize fs imports call.1 call.2 cache).2) .empty

end

end Solang.Resolver

/-!
## What a file is resolved to, whatever was resolved before

A resolver should find what `resolve` says, which knows no cache. It does if a path that leads
nowhere leads to no file as text, for the cache is asked for the path as text, and if a name that is
itself the full path of a file is not mapped to another file, for the cache is asked for the name
too. The same file under two import paths is counted twice.
-/

namespace Solang.Resolver

open Paths

/-- The function of the package collapses redundant separators and up-level references. -/
structure Collapses (normalize : Path → Path) : Prop where
  root : ∀ path, (normalize path).components.root = path.root
  collapse : ∀ path, path.root = true →
    (normalize path).components = fullPath (Paths.collapse [] path.parts)

section

variable {normalize : Path → Path} {fs : FileSystem}

/-! ### Without a cache -/

def ResolvedFile.answer (file : ResolvedFile) : Path × String := (file.fullPath, file.contents)

variable (fs) in
def readAt (names : List String) : Except Error (Path × String) :=
  match fs.read names with
  | .error error => .error (.unreadable (fullPath names) error)
  | .ok contents => .ok (fullPath names, contents)

variable (fs) in
/-- The file that a path leads to -/
def find (path : Path) : Except Error (Option (Path × String)) :=
  match fs.canonicalize path with
  | some names => (readAt fs names).map some
  | none => .ok none

variable (fs) in
def findAll : List Path → Except Error (List (Path × String))
  | [] => .ok []
  | path :: paths => do
    let file ← find fs path
    let files ← findAll paths
    return file.toList ++ files

/-- The paths under the import paths that are no maps -/
def underImports (imports : Imports) (path : Path) : List Path :=
  (imports.filter (·.1.isNone)).map (·.2.join path)

def candidates (imports : Imports) (filename : Path) : List Path :=
  underImports imports (remap imports filename) ++
    if imports.all (·.1.isSome) then [remap imports filename] else []

def choose (filename : Path) : List (Path × String) → Except Error (Path × String)
  | [] => .error (.notFound filename)
  | [file] => .ok file
  | files => .error (.multiple filename (files.map Prod.fst))

variable (fs) in
/-- What a name stands for -/
def resolve (imports : Imports) (parent : Option ResolvedFile) (filename : Path) :
    Except Error (Path × String) :=
  if isRelative filename then
    match parent with
    | some parent =>
      find fs (relativePath parent filename) >>= fun file => file.elim (.error (.notFound filename)) .ok
    | none => .error (.notFound filename)
  else
    (if parent.isNone then find fs filename else .ok none) >>= fun file =>
      match file with
      | some file => .ok file
      | none =>
        if parent.isNone && filename.root then .error (.notFound filename)
        else findAll fs (candidates imports filename) >>= choose filename

/-! ### With a cache -/

variable (fs) in
/-- Each file of the cache is that of its path. -/
def Inv (cache : Cache) : Prop :=
  ∀ path file, cache.get path = some file → ∃ names, path.components = fullPath names ∧
    file.fullPath = fullPath names ∧ fs.read names = .ok file.contents

variable (fs) in
/-- The caches do not mislead for this path of a name. -/
structure Usable (filename path : Path) : Prop where
  /-- If the path leads nowhere, it leads to no file as text. -/
  as_text : path.root = true → fs.canonicalize path = none →
    ∀ contents, fs.read (collapse [] path.parts) ≠ .ok contents
  /-- If the name is the full path of a file, the path leads to it. -/
  own : ∀ names contents names', filename.components = fullPath names → fs.read names = .ok contents →
    fs.canonicalize path = some names' → names' = names

theorem inv_empty : Inv fs .empty := nofun

theorem Inv.insert {cache : Cache} (h : Inv fs cache) {filename : Path} {importNo : Option Nat}
    {names : List String} {contents : String} (hread : fs.read names = .ok contents) :
    Inv fs (cache.insert ⟨filename, fullPath names, importNo, contents⟩) := by
  intro path file hget
  rw [Cache.get_insert] at hget
  split at hget
  next heq =>
    obtain rfl := Option.some.inj hget
    exact ⟨names, heq.trans (components_fullPath names), rfl, hread⟩
  next => exact h path file hget

theorem loadFile_spec (filename : Path) (names : List String) (importNo : Option Nat) :
    Keeps (Inv fs) (loadFile fs filename names importNo) fun r =>
      (∀ own contents, filename.components = fullPath own → fs.read own = .ok contents → names = own) →
        r.map ResolvedFile.answer = readAt fs names := by
  apply Keeps.get_bind
  intro cache hcache
  unfold readAt
  dsimp only
  cases hfile : (cache.get filename).filter fun file => file.importNo = importNo with
  | some file =>
    apply Keeps.pure
    intro hown
    obtain ⟨own, hname, hpath, hread⟩ := hcache filename file (Option.filter_eq_some_iff.mp hfile).1
    obtain rfl := hown own _ hname hread
    rw [hread, ← hpath]
    rfl
  | none =>
    cases hread : fs.read names with
    | error error =>
      apply Keeps.throw
      exact fun _ => rfl
    | ok contents =>
      apply Keeps.modify_bind
      · exact fun cache hcache => hcache.insert hread
      · apply Keeps.pure
        exact fun _ => rfl

theorem tryFile_spec (hn : Collapses normalize) (filename path : Path) (importNo : Option Nat) :
    Keeps (Inv fs) (tryFile normalize fs filename path importNo) fun r =>
      Usable fs filename path → r.map (Option.map ResolvedFile.answer) = find fs path := by
  apply Keeps.get_bind
  intro cache hcache
  unfold find
  cases hfile : cache.get (normalize path) with
  | some file =>
    apply Keeps.pure
    intro husable
    obtain ⟨names, hname, hpath, hread⟩ := hcache _ file hfile
    have hroot : path.root = true := by rw [← hn.root path, hname]; rfl
    have htext : collapse [] path.parts = names :=
      fullPath_injective ((hn.collapse path hroot).symm.trans hname)
    cases hfull : fs.canonicalize path with
    | none => exact absurd hread (htext ▸ husable.as_text hroot hfull _)
    | some full =>
      obtain rfl : full = names := (FileSystem.eq_collapse hroot hfull).trans htext
      unfold readAt
      dsimp only
      rw [hread, ← hpath]
      rfl
  | none =>
    cases hfull : fs.canonicalize path with
    | none =>
      apply Keeps.pure
      exact fun _ => rfl
    | some full =>
      apply (loadFile_spec filename full importNo).bind
      · intro file hfile
        apply Keeps.pure
        intro husable
        dsimp only
        rw [← hfile fun own contents hname hread => husable.own own contents full hname hread hfull]
        rfl
      · intro error herror husable
        dsimp only
        rw [← herror fun own contents hname hread => husable.own own contents full hname hread hfull]
        rfl

theorem tryImports_spec (hn : Collapses normalize) (filename path : Path) (imports : Imports)
    (importNo : Nat) :
    Keeps (Inv fs) (tryImports normalize fs filename path importNo imports) fun r =>
      (∀ p ∈ underImports imports path, Usable fs filename p) →
        r.map (List.map ResolvedFile.answer) = findAll fs (underImports imports path) := by
  induction imports generalizing importNo with
  | nil =>
    apply Keeps.pure
    exact fun _ => rfl
  | cons entry imports ih =>
    obtain ⟨map, importPath⟩ := entry
    cases map with
    | some map => exact ih (importNo + 1)
    | none =>
      have hunder : underImports ((none, importPath) :: imports) path =
          importPath.join path :: underImports imports path := rfl
      rw [hunder]
      simp only [findAll, List.forall_mem_cons]
      apply (tryFile_spec hn filename (importPath.join path) (some importNo)).bind
      · intro file hfile
        apply (ih (importNo + 1)).bind
        · intro files hfiles
          apply Keeps.pure
          rintro ⟨hpath, hpaths⟩
          rw [← hfile hpath, ← hfiles hpaths]
          cases file <;> rfl
        · rintro error herror ⟨hpath, hpaths⟩
          rw [← hfile hpath, ← herror hpaths]
          rfl
      · rintro error herror ⟨hpath, -⟩
        rw [← herror hpath]
        rfl

variable (fs) in
/-- The paths that a name is looked for at -/
def tried (imports : Imports) (parent : Option ResolvedFile) (filename : Path) : List Path :=
  if isRelative filename then (parent.map (relativePath · filename)).toList
  else if parent.isNone then
    filename :: if filename.root || (fs.canonicalize filename).isSome then [] else candidates imports filename
  else candidates imports filename

theorem searchImports_spec (hn : Collapses normalize) (imports : Imports) (filename : Path) :
    Keeps (Inv fs) (searchImports normalize fs imports filename) fun r =>
      (∀ path ∈ candidates imports filename, Usable fs filename path) →
        r.map (List.map ResolvedFile.answer) = findAll fs (candidates imports filename) := by
  have himports := @tryImports_spec normalize fs hn filename (remap imports filename) imports 0
  unfold searchImports
  by_cases hall : imports.all (·.1.isSome)
  · have hunder : underImports imports (remap imports filename) = [] := by
      unfold underImports
      rw [List.map_eq_nil_iff, List.filter_eq_nil_iff]
      intro entry hentry
      have := List.all_eq_true.mp hall entry hentry
      simpa using Option.isSome_iff_ne_none.mp this
    have hcandidates : candidates imports filename = [remap imports filename] := by
      unfold candidates
      rw [if_pos hall, hunder, List.nil_append]
    rw [hunder] at himports
    simp only [hcandidates, List.forall_mem_singleton, hall, if_true, findAll]
    apply himports.bind
    · intro files hfiles
      apply (tryFile_spec hn filename (remap imports filename) none).bind
      · intro file hfile
        apply Keeps.pure
        intro husable
        have hnil : files.map ResolvedFile.answer = [] := Except.ok.inj (hfiles nofun)
        rw [← hfile husable, List.map_eq_nil_iff.mp hnil]
        cases file <;> rfl
      · intro error herror husable
        rw [← herror husable]
        rfl
    · intro error herror
      cases herror nofun
  · have hcandidates : candidates imports filename = underImports imports (remap imports filename) := by
      unfold candidates
      rw [if_neg hall, List.append_nil]
    simp only [hcandidates, hall]
    apply himports.bind
    · intro files hfiles
      apply Keeps.pure
      rw [Option.toList_none, List.append_nil]
      exact hfiles
    · exact fun error herror => herror

theorem chooseFile_spec (hn : Collapses normalize) (imports : Imports) (filename : Path) :
    Keeps (Inv fs) (searchImports normalize fs imports filename >>= chooseFile filename) fun r =>
      (∀ path ∈ candidates imports filename, Usable fs filename path) →
        r.map ResolvedFile.answer = findAll fs (candidates imports filename) >>= choose filename := by
  apply (searchImports_spec hn imports filename).bind
  · intro files hfiles
    match files with
    | [] =>
      apply Keeps.throw
      intro husable
      rw [← hfiles husable]
      rfl
    | [file] =>
      apply Keeps.pure
      intro husable
      rw [← hfiles husable]
      rfl
    | file :: file' :: files =>
      apply Keeps.throw
      intro husable
      rw [← hfiles husable]
      show Except.error (Error.multiple filename _) = Except.error (Error.multiple filename _)
      simp only [List.map_cons, List.map_map]
      rfl
  · intro error herror husable
    rw [← herror husable]
    rfl

theorem canonicalize_eq_none {path : Path} (h : find fs path = .ok none) : fs.canonicalize path = none := by
  unfold find at h
  cases hfull : fs.canonicalize path with
  | none => rfl
  | some names =>
    rw [hfull] at h
    dsimp only at h
    cases hread : readAt fs names with
    | error error =>
      rw [hread] at h
      cases h
    | ok file =>
      rw [hread] at h
      cases h

/-- What `resolve_file` finds is what the name stands for. -/
theorem resolveFile_spec (hn : Collapses normalize) (imports : Imports) (parent : Option ResolvedFile)
    (filename : Path) :
    Keeps (Inv fs) (resolveFile normalize fs imports parent filename) fun r =>
      (∀ path ∈ tried fs imports parent filename, Usable fs filename path) →
        r.map ResolvedFile.answer = resolve fs imports parent filename := by
  unfold resolveFile resolve tried
  by_cases hrelative : isRelative filename
  · simp only [hrelative, if_true]
    cases parent with
    | none =>
      apply Keeps.throw
      exact fun _ => rfl
    | some parent =>
      simp only [Option.map_some, Option.toList_some, List.forall_mem_singleton]
      apply (tryFile_spec hn filename (relativePath parent filename) parent.importNo).bind
      · intro file hfile
        cases file with
        | none =>
          apply Keeps.throw
          intro husable
          rw [← hfile husable]
          rfl
        | some file =>
          apply Keeps.pure
          intro husable
          rw [← hfile husable]
          rfl
      · intro error herror husable
        rw [← herror husable]
        rfl
  · simp only [hrelative, Bool.false_eq_true, if_false]
    cases parent with
    | some parent => exact chooseFile_spec hn imports filename
    | none =>
      simp only [Option.isNone_none, if_true, Bool.true_and, List.forall_mem_cons]
      apply (tryFile_spec hn filename filename none).bind
      · intro file hfile
        cases file with
        | some file =>
          apply Keeps.pure
          rintro ⟨husable, -⟩
          rw [← hfile husable]
          rfl
        | none =>
          by_cases hroot : filename.root
          · simp only [hroot, if_true]
            apply Keeps.throw
            rintro ⟨husable, -⟩
            rw [← hfile husable]
            rfl
          · simp only [hroot, Bool.false_eq_true, if_false]
            apply (chooseFile_spec hn imports filename).imp
            rintro r hr ⟨husable, hcandidates⟩
            have hfind := (hfile husable).symm
            rw [canonicalize_eq_none hfind] at hcandidates
            rw [hr hcandidates, hfind]
            rfl
      · rintro error herror ⟨husable, -⟩
        rw [← herror husable]
        rfl

end

end Solang.Resolver
