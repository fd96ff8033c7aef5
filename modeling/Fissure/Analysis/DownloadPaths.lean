import Fissure.Library.LexicalPath
import Fissure.Model.DiskManager

/-!
# Which torrents stay inside the download directory

The path of a file is built in two steps: the components of the torrent file are collected into a
path, which is then joined to the download path. An absolute component replaces what precedes it,
and `..` is kept as it is. `pathSteps` reads a path step by step and `normalize` walks it;
`stays_inside_iff` says for which file lists every file is opened below the download path, whatever
the download path is.
-/

set_option autoImplicit false

namespace Fissure.Analysis

open Fissure.Library Fissure.Model
open Fissure.Model.DiskManagerActor

/-! ## Lexical normalisation -/

/-- `Path::is_absolute`. -/
def isAbsolute (p : PathBuf) : Bool := p.head? == some '/'

/-- The steps of a path: empty components and `.` are skipped, and `..` goes up. -/
def pathSteps (p : PathBuf) : List (PathStep (List Char)) :=
  (p.splitOn '/').filterMap fun name =>
    if name = [] ∨ name = ['.'] then none
    else if name = ['.', '.'] then some .up
    else some (.down name)

/-- The path after lexical normalisation: whether it is absolute, and where it leads. -/
def normalize (p : PathBuf) : Bool × Location (List Char) :=
  (isAbsolute p, .walk (isAbsolute p) ⟨0, []⟩ (pathSteps p))

/-- After normalisation `p` lies below the download path. -/
def LiesBelow (downloadPath p : PathBuf) : Prop :=
  (normalize p).1 = (normalize downloadPath).1 ∧
    (normalize p).2.Below (normalize downloadPath).2

/-- Whatever the download path and whichever files can be opened there, directories are created and
files are opened below the download path only. -/
def StaysInside (files : List LocalFile) : Prop :=
  ∀ fileSystem downloadPath, ∀ p ∈ openedPaths fileSystem downloadPath files,
    LiesBelow downloadPath p

/-- No component is absolute, and the components, read step by step, never go above their start and
end below it. -/
def StaysBelow (path : List String) : Prop :=
  (∀ c ∈ path, isAbsolute c.toList = false) ∧
    ∃ d, 0 < d ∧ depthAfter 0 (path.flatMap fun c => pathSteps c.toList) = some d

theorem pathSteps_nil : pathSteps [] = [] := rfl

/-- INTERNAL: a separator ends a step. -/
theorem pathSteps_append_sep (p q : PathBuf) :
    pathSteps (p ++ '/' :: q) = pathSteps p ++ pathSteps q := by
  unfold pathSteps
  rw [List.splitOn_append_cons_self, List.filterMap_append]

/-! ## Joining -/

section Push

variable {p component : PathBuf}

theorem push_of_isAbsolute (h : isAbsolute component = true) : p.push component = component := by
  rw [PathBuf.push, if_pos (by simpa [isAbsolute] using h)]

/-- INTERNAL: a relative component is pushed behind the path, with a separator between them. -/
theorem push_cases (h : isAbsolute component = false) :
    (p = [] ∧ p.push component = component) ∨
      (∃ q, p = q ++ ['/'] ∧ p.push component = q ++ '/' :: component) ∨
      p ≠ [] ∧ p.push component = p ++ '/' :: component := by
  rw [PathBuf.push, if_neg (by simpa [isAbsolute] using h)]
  split_ifs with hsep
  · rcases hsep with rfl | hlast
    · exact Or.inl ⟨rfl, rfl⟩
    · obtain ⟨q, rfl⟩ := List.getLast?_eq_some_iff.mp hlast
      exact Or.inr (Or.inl ⟨q, rfl, by simp⟩)
  · exact Or.inr (Or.inr ⟨fun hnil => hsep (Or.inl hnil), rfl⟩)

/-- INTERNAL: the steps of a relative component come after those of the path. -/
theorem pathSteps_push (h : isAbsolute component = false) :
    pathSteps (p.push component) = pathSteps p ++ pathSteps component := by
  rcases push_cases (p := p) h with ⟨rfl, hpush⟩ | ⟨q, rfl, hpush⟩ | ⟨-, hpush⟩
  · rw [hpush, pathSteps_nil, List.nil_append]
  · rw [hpush, pathSteps_append_sep, pathSteps_append_sep, pathSteps_nil, List.append_nil]
  · rw [hpush, pathSteps_append_sep]

theorem isAbsolute_push (h : isAbsolute component = false) :
    isAbsolute (p.push component) = isAbsolute p := by
  rcases push_cases (p := p) h with ⟨rfl, hpush⟩ | ⟨q, rfl, hpush⟩ | ⟨hne, hpush⟩
  · rw [hpush, h]
    rfl
  · rw [hpush]
    cases q <;> rfl
  · obtain ⟨c, p, rfl⟩ := List.exists_cons_of_ne_nil hne
    rw [hpush]
    rfl

end Push

/-- INTERNAL: relative components are collected into a relative path with all their steps.
SOURCE: client_manager.rs:168-170 -/
theorem collect_relative {path : List String} (h : ∀ c ∈ path, isAbsolute c.toList = false) :
    isAbsolute (PathBuf.collect path) = false ∧
      pathSteps (PathBuf.collect path) = path.flatMap fun c => pathSteps c.toList := by
  have hfold (p : PathBuf) :
      isAbsolute (path.foldl (fun p c => p.push c.toList) p) = isAbsolute p ∧
        pathSteps (path.foldl (fun p c => p.push c.toList) p) =
          pathSteps p ++ path.flatMap fun c => pathSteps c.toList := by
    induction path generalizing p with
    | nil => simp
    | cons c path ih =>
      rw [List.forall_mem_cons] at h
      obtain ⟨habs, hsteps⟩ := ih h.2 (p.push c.toList)
      rw [List.foldl_cons, habs, hsteps, isAbsolute_push h.1, pathSteps_push h.1,
        List.flatMap_cons, List.append_assoc]
      exact ⟨rfl, rfl⟩
  exact hfold []

/-- INTERNAL: with an absolute component among them the components are collected into an absolute
path.
SOURCE: client_manager.rs:168-170 -/
theorem collect_absolute {path : List String} (h : ∃ c ∈ path, isAbsolute c.toList = true) :
    isAbsolute (PathBuf.collect path) = true := by
  have hfold : ∀ (path : List String) (p : PathBuf),
      (isAbsolute p = true ∨ ∃ c ∈ path, isAbsolute c.toList = true) →
      isAbsolute (path.foldl (fun p c => p.push c.toList) p) = true := by
    intro path
    induction path with
    | nil => simp
    | cons c path ih =>
      intro p hp
      rw [List.exists_mem_cons_iff] at hp
      rw [List.foldl_cons]
      apply ih
      cases hc : isAbsolute c.toList with
      | true => exact Or.inl (by rw [push_of_isAbsolute hc, hc])
      | false =>
        rw [isAbsolute_push hc]
        simpa [hc] using hp
  exact hfold path [] (Or.inr h)

/-! ## Below any download path -/

/-- INTERNAL: a path whose components stay below their start stays below any download path.
SOURCE: client_manager.rs:168-170, disk_manager.rs:31 -/
theorem liesBelow_of_staysBelow {path : List String} (h : StaysBelow path)
    (downloadPath : PathBuf) : LiesBelow downloadPath (downloadPath.push (.collect path)) := by
  obtain ⟨hrelative, d, hd, hdepth⟩ := h
  obtain ⟨habs, hsteps⟩ := collect_relative hrelative
  unfold LiesBelow normalize
  rw [isAbsolute_push habs, pathSteps_push habs, Location.walk_append, hsteps]
  exact ⟨rfl, Location.below_walk hdepth hd _ _⟩

/-- A directory name of `n + 1` letters. -/
def longName (n : ℕ) : PathBuf := List.replicate (n + 1) 'x'

/-- INTERNAL: some long name is not among the steps of a path. -/
theorem exists_longName (steps : List (PathStep (List Char))) :
    ∃ n, PathStep.down (longName n) ∉ steps := by
  have hall : ∃ n, ∀ k, n ≤ k → PathStep.down (longName k) ∉ steps := by
    induction steps with
    | nil => exact ⟨0, fun _ _ => List.not_mem_nil⟩
    | cons step steps ih =>
      obtain ⟨n, hn⟩ := ih
      cases step with
      | up =>
        refine ⟨n, fun k hk hmem => ?_⟩
        rcases List.mem_cons.mp hmem with hup | hmem
        · cases hup
        · exact hn k hk hmem
      | down name =>
        refine ⟨max n name.length, fun k hk hmem => ?_⟩
        rcases List.mem_cons.mp hmem with hdown | hmem
        · have hlen : (longName k).length = name.length :=
            congrArg List.length (PathStep.down.inj hdown)
          rw [longName, List.length_replicate] at hlen
          omega
        · exact hn k (by omega) hmem
  obtain ⟨n, hn⟩ := hall
  exact ⟨n, hn n (Nat.le_refl _)⟩

/-- INTERNAL: a long name is a relative path of one step. -/
theorem pathSteps_longName (n : ℕ) :
    isAbsolute (longName n) = false ∧ pathSteps (longName n) = [.down (longName n)] := by
  have hsplit : (longName n).splitOn '/' = [longName n] := by
    apply List.splitOn_eq_singleton
    simp [longName]
  have hx : longName n = 'x' :: List.replicate n 'x' := rfl
  refine ⟨by rw [hx]; rfl, ?_⟩
  rw [pathSteps, hsplit, List.filterMap_cons, List.filterMap_nil]
  simp [hx]

/-- INTERNAL: a path that stays below every download path has components that stay below their
start. A download path with a name that does not occur among the components shows it.
SOURCE: client_manager.rs:168-170, disk_manager.rs:31 -/
theorem staysBelow_of_liesBelow {path : List String}
    (h : ∀ downloadPath : PathBuf, LiesBelow downloadPath (downloadPath.push (.collect path))) :
    StaysBelow path := by
  have hrelative : ∀ c ∈ path, isAbsolute c.toList = false := by
    by_contra hnot
    push Not at hnot
    simp only [ne_eq, Bool.not_eq_false] at hnot
    have habs := collect_absolute hnot
    obtain ⟨hsame, -⟩ := h (longName 0)
    rw [push_of_isAbsolute habs, normalize, normalize, habs, (pathSteps_longName 0).1] at hsame
    cases hsame
  obtain ⟨habs, hsteps⟩ := collect_relative hrelative
  obtain ⟨n, hfresh⟩ := exists_longName (path.flatMap fun c => pathSteps c.toList)
  obtain ⟨hname, hnameSteps⟩ := pathSteps_longName n
  obtain ⟨-, hbelow⟩ := h (longName n)
  rw [normalize, normalize, isAbsolute_push habs, pathSteps_push habs, Location.walk_append, hsteps,
    hname, hnameSteps] at hbelow
  exact ⟨hrelative, (Location.below_walk_iff false 0 hfresh).mp hbelow⟩

/-- INTERNAL: every file is opened when all files can be, and only files of the list are opened.
SOURCE: disk_manager.rs:30-51 -/
theorem mem_openedPaths {fileSystem : FileSystem} {downloadPath p : PathBuf}
    {files : List LocalFile} (h : p ∈ openedPaths fileSystem downloadPath files) :
    ∃ file ∈ files, p = downloadPath.push file.path := by
  induction files with
  | nil => cases h
  | cons file files ih =>
    rw [openedPaths, List.mem_cons] at h
    rcases h with rfl | h
    · exact ⟨file, by simp, rfl⟩
    · split_ifs at h
      · obtain ⟨other, hmem, hp⟩ := ih h
        exact ⟨other, List.mem_cons_of_mem _ hmem, hp⟩
      · cases h

theorem openedPaths_all (downloadPath : PathBuf) (files : List LocalFile) :
    openedPaths .empty downloadPath files = files.map fun file => downloadPath.push file.path := by
  induction files with
  | nil => rfl
  | cons file files ih =>
    rw [openedPaths, List.map_cons, ← ih]
    rfl

/-- INTERNAL: when the actor starts, it has opened every file of the torrent.
SOURCE: disk_manager.rs:30-57 -/
theorem openedPaths_of_new {fileSystem : FileSystem} {downloadPath : PathBuf}
    {files : List LocalFile} {stdPieceLen : ℕ} {s : DiskManagerActor}
    (h : DiskManagerActor.new fileSystem downloadPath files stdPieceLen = some s) :
    openedPaths fileSystem downloadPath files =
      files.map fun file => downloadPath.push file.path := by
  obtain ⟨-, -, -, hopen⟩ := new_eq_some h
  generalize s.handles = handles at hopen
  generalize 0 = byteOffset at hopen
  clear h
  induction files generalizing byteOffset handles with
  | nil => rfl
  | cons file files ih =>
    unfold openFiles at hopen
    simp only [Option.bind_eq_bind, Option.bind_eq_some_iff, Option.some.injEq] at hopen
    obtain ⟨handle, hhandle, rest, hrest, -⟩ := hopen
    rw [openedPaths, hhandle, List.map_cons, ← ih _ _ hrest]
    rfl

/-- **Which torrents stay inside the download directory.** For every torrent: whatever the download
path and whichever files can be opened, each path at which directories are created and a file is
opened lies below the download path after normalisation exactly when the path of every file stays
below its start.
SOURCE: client_manager.rs:166-176, disk_manager.rs:25-58, torrent_meta.rs:48-61 -/
theorem stays_inside_iff (m : MetaInfo) (files : List LocalFile)
    (hfiles : m.localFiles = some files) :
    StaysInside files ↔ ∀ info ∈ m.files.getD [], StaysBelow info.path := by
  obtain ⟨infos, hinfos, rfl⟩ := Option.map_eq_some_iff.mp hfiles
  rw [hinfos, Option.getD_some]
  constructor
  · intro h info hinfo
    apply staysBelow_of_liesBelow
    intro downloadPath
    apply h .empty downloadPath
    rw [openedPaths_all, List.map_map]
    exact List.mem_map_of_mem hinfo
  · intro h fileSystem downloadPath p hp
    obtain ⟨file, hfile, rfl⟩ := mem_openedPaths hp
    obtain ⟨info, hinfo, rfl⟩ := List.mem_map.mp hfile
    exact liesBelow_of_staysBelow (h info hinfo) downloadPath

/-- A torrent of one file with this name. -/
def torrentNamed (name : String) : MetaInfo := ⟨"tracker", none, ⟨name, 4, [], some 9, none⟩⟩

/-- The local file of a torrent of one file. -/
def fileNamed (name : String) : LocalFile := ⟨PathBuf.collect [name], 9⟩

/-- A name with a detour through a directory of its own. -/
theorem stays_inside_iff_detour :
    StaysInside [fileNamed "a/../b"] ↔
      ∀ info ∈ (torrentNamed "a/../b").files.getD [], StaysBelow info.path :=
  stays_inside_iff (torrentNamed "a/../b") [fileNamed "a/../b"] rfl

/-- A file whose name begins with `..` is opened beside the download directory. -/
theorem parent_name_escapes :
    (torrentNamed "../x").localFiles = some [fileNamed "../x"] ∧
    openedPaths .empty "dl".toList [fileNamed "../x"] = ["dl/../x".toList] ∧
    normalize "dl/../x".toList = (false, ⟨0, ["x".toList]⟩) ∧
    ¬ StaysInside [fileNamed "../x"] := by
  have hopened : openedPaths .empty "dl".toList [fileNamed "../x"] =
      ["dl/../x".toList] := by
    decide +kernel
  have hnormal : normalize "dl/../x".toList = (false, ⟨0, ["x".toList]⟩) := by decide +kernel
  have hbase : normalize "dl".toList = (false, ⟨0, ["dl".toList]⟩) := by decide +kernel
  refine ⟨rfl, hopened, hnormal, fun h => ?_⟩
  obtain ⟨-, -, inner, -, hnames⟩ := h .empty "dl".toList "dl/../x".toList
    (by rw [hopened]; exact List.mem_singleton_self _)
  rw [hnormal, hbase] at hnames
  have hlast := congrArg List.getLast? hnames
  rw [List.getLast?_append] at hlast
  have hnames : some "x".toList = some "dl".toList := hlast
  revert hnames
  decide +kernel

end Fissure.Analysis
