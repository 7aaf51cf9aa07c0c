import Solang.Resolver.FileResolver

/-!
# Runs of a file resolver

What a call finds does not depend on the calls before it nor on the order of the import paths that
are no maps, and a name that is ambiguous stands for two files.
-/

namespace Solang.Resolver

open Paths

section

variable {normalize : Path → Path} {fs : FileSystem}

/-! ## Earlier calls -/

theorem inv_after (hn : Collapses normalize) (imports : Imports) (calls : List Call) :
    Inv fs (after normalize fs imports calls) := by
  have hfold : ∀ cache, Inv fs cache → Inv fs
      (calls.foldl (fun cache call => (resolveFile normalize fs imports call.1 call.2 cache).2) cache) := by
    induction calls with
    | nil => exact fun cache hcache => hcache
    | cons call calls ih =>
      exact fun cache hcache => ih _ (resolveFile_spec hn imports call.1 call.2 cache hcache).2
  exact hfold .empty inv_empty

variable (normalize fs) in
/-- The full path and the contents, or the error, of a call after others -/
def answerAfter (calls : List Call) (imports : Imports) (parent : Option ResolvedFile) (filename : Path) :
    Except Error (Path × String) :=
  (resolveFile normalize fs imports parent filename (after normalize fs imports calls)).1.map
    ResolvedFile.answer

variable {imports imports' : Imports} {parent : Option ResolvedFile} {filename path : Path}

theorem answerAfter_eq (hn : Collapses normalize)
    (husable : ∀ path ∈ tried fs imports parent filename, Usable fs filename path)
    (calls : List Call) :
    answerAfter normalize fs calls imports parent filename = resolve fs imports parent filename :=
  (resolveFile_spec hn imports parent filename _ (inv_after hn imports calls)).1 husable

/-! ## The order of the import paths -/

inductive Outcome where
  | found (fullPath : Path) (contents : String)
  | notFound
  | unreadable
  | ambiguous

def outcome : Except Error (Path × String) → Outcome
  | .ok file => .found file.1 file.2
  | .error (.notFound _) => .notFound
  | .error (.unreadable _ _) => .unreadable
  | .error (.multiple _ _) => .ambiguous

/-- The same maps in the same order, and the other import paths in any order -/
structure Reordered (imports imports' : Imports) : Prop where
  maps : imports'.filter (·.1.isSome) = imports.filter (·.1.isSome)
  paths : (imports'.filter (·.1.isNone)).Perm (imports.filter (·.1.isNone))

theorem remap_filter (imports : Imports) (filename : Path) :
    remap imports filename = remap (imports.filter (·.1.isSome)) filename := by
  unfold remap
  rw [List.foldl_filter]
  congr 1
  funext remapped entry
  obtain ⟨map, target⟩ := entry
  cases map <;> rfl

theorem all_isSome_iff (imports : Imports) :
    imports.all (·.1.isSome) ↔ imports.filter (·.1.isNone) = [] := by
  rw [List.filter_eq_nil_iff, List.all_eq_true]
  simp [Option.isSome_iff_ne_none]

theorem Reordered.candidates_perm (h : Reordered imports imports') (filename : Path) :
    (candidates imports' filename).Perm (candidates imports filename) := by
  have hremap : remap imports' filename = remap imports filename := by
    rw [remap_filter imports', h.maps, ← remap_filter]
  have hall : imports'.all (·.1.isSome) = imports.all (·.1.isSome) := by
    rw [Bool.eq_iff_iff, all_isSome_iff, all_isSome_iff]
    constructor
    · intro hnil
      exact (hnil ▸ h.paths).nil_eq.symm
    · intro hnil
      exact (hnil ▸ h.paths).eq_nil
  unfold candidates underImports
  rw [hremap, hall]
  exact (h.paths.map _).append_right _

variable (fs) in
def found (path : Path) : Option (Path × String) :=
  match find fs path with
  | .ok file => file
  | .error _ => none

theorem found_eq_some {file : Path × String} (h : found fs path = some file) :
    find fs path = .ok (some file) := by
  unfold found at h
  cases hfind : find fs path with
  | ok file' =>
    rw [hfind] at h
    exact congrArg _ h
  | error error =>
    rw [hfind] at h
    cases h

theorem find_error {error : Error} (h : find fs path = .error error) :
    ∃ full readError, error = .unreadable full readError := by
  unfold find at h
  split at h
  next names hfull =>
    unfold readAt at h
    split at h
    next readError hread =>
      cases h
      exact ⟨_, _, rfl⟩
    next => cases h
  next => cases h

/-- A path leads to a file that cannot be read, or there is what the paths lead to. -/
theorem findAll_cases (paths : List Path) :
    (∃ full readError, findAll fs paths = .error (.unreadable full readError)) ∧
      (∃ path ∈ paths, ∃ error, find fs path = .error error) ∨
    findAll fs paths = .ok (paths.filterMap (found fs)) ∧ ∀ path ∈ paths, ∃ file, find fs path = .ok file := by
  induction paths with
  | nil => exact .inr ⟨rfl, nofun⟩
  | cons path paths ih =>
    unfold findAll
    cases hfind : find fs path with
    | error error =>
      obtain ⟨full, readError, rfl⟩ := find_error hfind
      exact .inl ⟨⟨full, readError, rfl⟩, path, List.mem_cons_self, _, hfind⟩
    | ok file =>
      rcases ih with ⟨⟨full, readError, hall⟩, path', hpath', herror⟩ | ⟨hall, hpaths⟩
      · rw [hall]
        exact .inl ⟨⟨full, readError, rfl⟩, path', List.mem_cons_of_mem path hpath', herror⟩
      · rw [hall]
        refine .inr ⟨?_, List.forall_mem_cons.mpr ⟨⟨file, hfind⟩, hpaths⟩⟩
        have hfound : found fs path = file := by
          unfold found
          rw [hfind]
        rw [List.filterMap_cons, hfound]
        cases file <;> rfl

theorem outcome_choose_perm {files files' : List (Path × String)} (h : files'.Perm files) :
    outcome (choose filename files') = outcome (choose filename files) := by
  have hlength := h.length_eq
  match files, files' with
  | [], [] => rfl
  | [file], [file'] =>
    obtain rfl := List.singleton_perm_singleton.mp h
    rfl
  | _ :: _ :: _, _ :: _ :: _ => rfl

theorem outcome_findAll_perm {paths paths' : List Path} (h : paths'.Perm paths) :
    outcome (findAll fs paths' >>= choose filename) = outcome (findAll fs paths >>= choose filename) := by
  rcases @findAll_cases fs paths with
    ⟨⟨full, readError, hall⟩, path, hpath, error, herror⟩ | ⟨hall, hpaths⟩
  · rcases @findAll_cases fs paths' with ⟨⟨full', readError', hall'⟩, -⟩ | ⟨-, hpaths'⟩
    · rw [hall, hall']
      rfl
    · obtain ⟨file, hfile⟩ := hpaths' path (h.mem_iff.mpr hpath)
      cases herror.symm.trans hfile
  · rcases @findAll_cases fs paths' with ⟨-, path, hpath, error, herror⟩ | ⟨hall', -⟩
    · obtain ⟨file, hfile⟩ := hpaths path (h.mem_iff.mp hpath)
      cases herror.symm.trans hfile
    · rw [hall, hall']
      exact outcome_choose_perm (h.filterMap _)

theorem Reordered.outcome_resolve (h : Reordered imports imports') (parent : Option ResolvedFile)
    (filename : Path) :
    outcome (resolve fs imports' parent filename) = outcome (resolve fs imports parent filename) := by
  have hall := @outcome_findAll_perm fs filename _ _ (h.candidates_perm filename)
  unfold resolve
  split
  next => rfl
  next =>
    generalize (if parent.isNone then find fs filename else .ok none) = direct
    match direct with
    | .error error => rfl
    | .ok (some file) => rfl
    | .ok none =>
      show outcome (if _ then _ else _) = outcome (if _ then _ else _)
      split
      next => rfl
      next => exact hall

theorem Reordered.mem_tried (h : Reordered imports imports') :
    path ∈ tried fs imports' parent filename ↔ path ∈ tried fs imports parent filename := by
  have hmem := (h.candidates_perm filename).mem_iff (a := path)
  unfold tried
  split
  next => rfl
  next =>
    split
    next =>
      rw [List.mem_cons, List.mem_cons]
      split
      next => rfl
      next => rw [hmem]
    next => exact hmem

/-! ## Ambiguity -/

variable (fs) in
/-- The paths do not lead to the same file. -/
def Apart (path path' : Path) : Prop :=
  ∀ names, fs.canonicalize path = some names → fs.canonicalize path' ≠ some names

theorem pairwise_found {paths : List Path} (h : paths.Pairwise (Apart fs)) :
    (paths.filterMap (found fs)).Pairwise fun file file' => file.1 ≠ file'.1 := by
  have hnames : ∀ path file, found fs path = some file →
      ∃ names, fs.canonicalize path = some names ∧ file.1 = fullPath names := by
    intro path file hfile
    have hfind := found_eq_some hfile
    unfold find at hfind
    cases hfull : fs.canonicalize path with
    | none =>
      rw [hfull] at hfind
      cases hfind
    | some names =>
      refine ⟨names, rfl, ?_⟩
      rw [hfull] at hfind
      unfold readAt at hfind
      cases hread : fs.read names with
      | error error =>
        simp only [hread] at hfind
        cases hfind
      | ok contents =>
        simp only [hread] at hfind
        cases hfind
        rfl
  refine List.Pairwise.filterMap _ (fun path path' hapart file hfile file' hfile' heq => ?_) h
  obtain ⟨names, hfull, hpath⟩ := hnames path file hfile
  obtain ⟨names', hfull', hpath'⟩ := hnames path' file' hfile'
  obtain rfl : names = names' := fullPath_injective (hpath.symm.trans (heq.trans hpath'))
  exact hapart names hfull hfull'

/-- A name is ambiguous only under the import paths. -/
theorem multiple_of_resolve {name : Path} {fullPaths : List Path}
    (h : resolve fs imports parent filename = .error (.multiple name fullPaths)) :
    findAll fs (candidates imports filename) >>= choose filename = .error (.multiple name fullPaths) := by
  have hfind : ∀ path error, find fs path = .error error → error ≠ .multiple name fullPaths := by
    intro path error herror heq
    obtain ⟨full, readError, rfl⟩ := find_error herror
    cases heq
  unfold resolve at h
  split at h
  next =>
    split at h
    next parent =>
      cases hnext : find fs (relativePath parent filename) with
      | error error =>
        rw [hnext] at h
        exact absurd (Except.error.inj h) (hfind _ _ hnext)
      | ok file =>
        rw [hnext] at h
        cases file <;> cases h
    next => cases h
  next =>
    have hdirect : ∀ error, (if parent.isNone then find fs filename else .ok none) = .error error →
        error ≠ .multiple name fullPaths := by
      intro error herror
      split at herror
      next => exact hfind _ _ herror
      next => cases herror
    generalize (if parent.isNone then find fs filename else .ok none) = direct at h hdirect
    match direct with
    | .error error => exact absurd (Except.error.inj h) (hdirect error rfl)
    | .ok (some file) => cases h
    | .ok none =>
      change (if _ then _ else _) = _ at h
      split at h
      next => cases h
      next => exact h

theorem two_files {name : Path} {fullPaths : List Path}
    (hapart : (candidates imports filename).Pairwise (Apart fs))
    (h : resolve fs imports parent filename = .error (.multiple name fullPaths)) :
    ∃ path ∈ candidates imports filename, ∃ path' ∈ candidates imports filename, ∃ file file',
      find fs path = .ok (some file) ∧ find fs path' = .ok (some file') ∧ file.1 ≠ file'.1 := by
  have hchoose := multiple_of_resolve h
  have hmem : ∀ file ∈ (candidates imports filename).filterMap (found fs),
      ∃ path ∈ candidates imports filename, find fs path = .ok (some file) := by
    intro file hfile
    obtain ⟨path, hpath, hfound⟩ := List.mem_filterMap.mp hfile
    exact ⟨path, hpath, found_eq_some hfound⟩
  rcases @findAll_cases fs (candidates imports filename) with ⟨⟨full, readError, hall⟩, -⟩ | ⟨hall, -⟩
  · rw [hall] at hchoose
    cases hchoose
  · rw [hall] at hchoose
    have hfiles := pairwise_found hapart
    generalize (candidates imports filename).filterMap (found fs) = files at hchoose hfiles hmem
    match files with
    | [] => cases hchoose
    | [file] => cases hchoose
    | file :: file' :: files =>
      obtain ⟨path, hpath, hfind⟩ := hmem file List.mem_cons_self
      obtain ⟨path', hpath', hfind'⟩ := hmem file' (List.mem_cons_of_mem _ List.mem_cons_self)
      have hne := (List.pairwise_cons.mp hfiles).1 file' List.mem_cons_self
      exact ⟨path, hpath, path', hpath', file, file', hfind, hfind', hne⟩

/-! ## The result -/

/-- A name is found in the same way whatever was resolved before, in whatever order the import paths
are, and is ambiguous only where it stands for two files. -/
theorem resolveFile_independent (hn : Collapses normalize) (imports : Imports) (parent : Option ResolvedFile)
    (filename : Path) (husable : ∀ path ∈ tried fs imports parent filename, Usable fs filename path)
    (hapart : (candidates imports filename).Pairwise (Apart fs)) :
    (∀ calls, answerAfter normalize fs calls imports parent filename =
      answerAfter normalize fs [] imports parent filename) ∧
    (∀ imports' calls, Reordered imports imports' →
      outcome (answerAfter normalize fs calls imports' parent filename) =
        outcome (answerAfter normalize fs [] imports parent filename)) ∧
    ∀ calls name fullPaths,
      answerAfter normalize fs calls imports parent filename = .error (.multiple name fullPaths) →
      ∃ path ∈ candidates imports filename, ∃ path' ∈ candidates imports filename, ∃ file file',
        find fs path = .ok (some file) ∧ find fs path' = .ok (some file') ∧ file.1 ≠ file'.1 := by
  have heq := answerAfter_eq hn husable
  refine ⟨fun calls => (heq calls).trans (heq []).symm, fun imports' calls h => ?_,
    fun calls name fullPaths h => ?_⟩
  · have husable' : ∀ path ∈ tried fs imports' parent filename, Usable fs filename path :=
      fun path hpath => husable path (h.mem_tried.mp hpath)
    rw [heq [], answerAfter_eq hn husable' calls]
    exact h.outcome_resolve parent filename
  · exact two_files hapart ((heq calls).symm.trans h)

end

/-! ## Two directories with a file of the same name -/

namespace Sample

def entries : List (List String × Node) :=
  [([], .dir), (["a"], .dir), (["b"], .dir), (["a", "x.sol"], .file (.ok "1")),
    (["b", "x.sol"], .file (.ok "2"))]

def fs : FileSystem where
  lookup names := entries.lookup names
  root := by decide
  parent_dir names name h := by
    have hparents : ∀ entry ∈ entries, entry.1 ≠ [] → isDir (entries.lookup entry.1.dropLast) := by decide
    obtain ⟨node, hnode⟩ := Option.isSome_iff_exists.mp h
    obtain ⟨before, after, hentries, -⟩ := List.lookup_eq_some_iff.mp hnode
    have hmem : (names ++ [name], node) ∈ entries := by
      rw [hentries]
      simp
    simpa using hparents _ hmem (by simp)
  cwd := []
  cwd_dir := by decide

/-- The function of the package on Unix -/
def normalize (path : Path) : Path := ⟨path.root, (collapse [] path.parts).map .name⟩

theorem normalize_collapses : Collapses normalize where
  root _ := rfl
  collapse path hroot := by
    have hnormalize : normalize path = fullPath (collapse [] path.parts) := by
      unfold normalize
      rw [hroot]
      rfl
    rw [hnormalize, components_fullPath]

def first : ResolvedFile := ⟨fullPath ["a", "x.sol"], fullPath ["a", "x.sol"], none, "1"⟩

/-- `import "x.sol"`, with the import path `/a` -/
theorem resolveFile_independent_x :
    answerAfter normalize fs [(none, fullPath ["b", "x.sol"])] [(none, fullPath ["a"])] (some first)
        ⟨false, [.name "x.sol"]⟩ =
      answerAfter normalize fs [] [(none, fullPath ["a"])] (some first) ⟨false, [.name "x.sol"]⟩ := by
  refine (resolveFile_independent normalize_collapses [(none, fullPath ["a"])] (some first)
    ⟨false, [.name "x.sol"]⟩ ?_ ?_).1 _
  · intro path hpath
    obtain rfl : path = fullPath ["a", "x.sol"] := List.mem_singleton.mp hpath
    exact ⟨fun _ hnone => (nomatch hnone), fun _ _ _ hname => (nomatch congrArg Path.root hname)⟩
  · exact List.pairwise_singleton _ _

def earlier : List Call := [(none, fullPath ["a", "x.sol"])]

/-- With a map from `/a` to `/b`, another file; for `./no/../x.sol`, a file instead of none; with two
paths and a map to a path from the root, or with `/no/../a`, a file that is counted twice -/
theorem resolveFile_dependent :
    (answerAfter normalize fs earlier [(some (fullPath ["a"]), fullPath ["b"])] (some first)
        (fullPath ["a", "x.sol"]) = .ok (fullPath ["a", "x.sol"], "1") ∧
      answerAfter normalize fs [] [(some (fullPath ["a"]), fullPath ["b"])] (some first)
        (fullPath ["a", "x.sol"]) = .ok (fullPath ["b", "x.sol"], "2")) ∧
    (answerAfter normalize fs earlier [] (some first) ⟨false, [.here, .name "no", .up, .name "x.sol"]⟩ =
        .ok (fullPath ["a", "x.sol"], "1") ∧
      answerAfter normalize fs [] [] (some first) ⟨false, [.here, .name "no", .up, .name "x.sol"]⟩ =
        .error (.notFound ⟨false, [.here, .name "no", .up, .name "x.sol"]⟩)) ∧
    answerAfter normalize fs [] [(none, fullPath ["a"]), (none, fullPath ["b"]),
        (some ⟨false, [.name "lib"]⟩, fullPath ["a"])] (some first) ⟨false, [.name "lib", .name "x.sol"]⟩ =
      .error (.multiple ⟨false, [.name "lib", .name "x.sol"]⟩
        [fullPath ["a", "x.sol"], fullPath ["a", "x.sol"]]) ∧
    outcome (answerAfter normalize fs [] [(none, fullPath ["a"]), (none, ⟨true, [.name "no", .up, .name "a"]⟩)]
        (some first) ⟨false, [.name "x.sol"]⟩) = .ambiguous ∧
    outcome (answerAfter normalize fs [] [(none, ⟨true, [.name "no", .up, .name "a"]⟩), (none, fullPath ["a"])]
        (some first) ⟨false, [.name "x.sol"]⟩) = .found (fullPath ["a", "x.sol"]) "1" :=
  ⟨⟨rfl, rfl⟩, ⟨rfl, rfl⟩, rfl, rfl, rfl⟩

end Sample

end Solang.Resolver
