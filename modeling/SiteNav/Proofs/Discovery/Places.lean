import SiteNav.FileSystem.DirectoryTree
import SiteNav.Proofs.Discovery.Nearest

/-!
# Where a site file is found

In a tree of directories a path leads from the root to a place, one component at a time. Discovery
leaves out components at the end of the start path, so it looks at the places that the start path comes
through. These are the directory that the start path leads to and those above it, as long as the
components left out do not lead out of the directory by `..`; after such a component the start path may
have come through a directory that is not above its end. Main statement: what is discovered is in a
directory from which the components left out lead to the start.
-/
namespace SiteNav
open FilePath (climb components isAbsolute isIdle join pieces)
open FileSystem (standardName)

namespace DirectoryTree

/-- Where a piece leads from a directory, by its name alone. -/
def move (l : Place) (piece : List Char) : Place :=
  if isIdle piece then l else if piece = ['.', '.'] then l.tail else piece :: l

/-- Components that start `depth` directories below a place lead above it. -/
def risesAbove : Nat → List (List Char) → Bool
  | _, [] => false
  | 0, p :: ps => p = ['.', '.'] || risesAbove 1 ps
  | depth + 1, p :: ps => risesAbove (if p = ['.', '.'] then depth else depth + 2) ps

variable {t : DirectoryTree} {l l' here : Place} {ps : List (List Char)} {path dir start p : List Char}

/-! ## Walks -/

theorem step_eq_some_iff {piece : List Char} :
    t.step l piece = some l' ↔ t.status l = .directory ∧ move l piece = l' := by
  rw [step]
  cases t.status l with
  | directory =>
    rw [move]
    split_ifs <;> simp
  | missing => simp
  | file content => simp
  | unreadable reason => simp

theorem foldlM_step_cons {piece : List Char} : (piece :: ps).foldlM t.step l = some l' ↔
    t.status l = .directory ∧ ps.foldlM t.step (move l piece) = some l' := by
  rw [List.foldlM_cons, Option.bind_eq_bind, Option.bind_eq_some_iff]
  constructor
  · rintro ⟨next, hnext, hrest⟩
    obtain ⟨hdirectory, rfl⟩ := step_eq_some_iff.1 hnext
    exact ⟨hdirectory, hrest⟩
  · rintro ⟨hdirectory, hrest⟩
    exact ⟨_, step_eq_some_iff.2 ⟨hdirectory, rfl⟩, hrest⟩

theorem foldlM_step_append {qs : List (List Char)} : (ps ++ qs).foldlM t.step l = some l' ↔
    ∃ m, ps.foldlM t.step l = some m ∧ qs.foldlM t.step m = some l' := by
  rw [List.foldlM_append, Option.bind_eq_bind, Option.bind_eq_some_iff]

theorem directory_of_foldlM_step (hl' : t.status l' = .directory)
    (h : ps.foldlM t.step l = some l') : t.status l = .directory := by
  cases ps with
  | nil =>
    obtain rfl := Option.some.inj h
    exact hl'
  | cons p ps => exact (foldlM_step_cons.1 h).1

/-- Idle pieces only ask for a directory, which the other pieces and the end of the walk ask for too. -/
theorem foldlM_step_filter (hl' : t.status l' = .directory) :
    (ps.filter (!isIdle ·)).foldlM t.step l = some l' ↔ ps.foldlM t.step l = some l' := by
  induction ps generalizing l with
  | nil => rfl
  | cons p ps ih =>
    by_cases hp : isIdle p = true
    · rw [List.filter_cons_of_neg (by simp [hp]), ih, foldlM_step_cons, move, if_pos hp]
      exact ⟨fun h => ⟨directory_of_foldlM_step hl' h, h⟩, And.right⟩
    · rw [List.filter_cons_of_pos (by simp [hp]), foldlM_step_cons, foldlM_step_cons, ih]

/-- By induction on the components, with the names from the place to where they have led so far. -/
theorem suffix_of_foldlM_step (names : List (List Char)) (hps : ∀ p ∈ ps, isIdle p = false)
    (hrises : risesAbove names.length ps = false) (h : ps.foldlM t.step (names ++ l) = some l') :
    l <:+ l' := by
  induction ps generalizing names with
  | nil =>
    obtain rfl := Option.some.inj h
    exact List.suffix_append names l
  | cons p ps ih =>
    rw [List.forall_mem_cons] at hps
    have hrest := (foldlM_step_cons.1 h).2
    rw [move, if_neg (by simp [hps.1])] at hrest
    by_cases hp : p = ['.', '.']
    · rw [if_pos hp] at hrest
      cases names with
      | nil => simp [risesAbove, hp] at hrises
      | cons name names =>
        rw [List.length_cons, risesAbove, if_pos hp] at hrises
        exact ih names hps.2 hrises hrest
    · rw [if_neg hp, ← List.cons_append] at hrest
      apply ih (p :: names) hps.2 _ hrest
      cases names with
      | nil => simpa [risesAbove, hp] using hrises
      | cons name names => simpa [risesAbove, hp] using hrises

theorem risesAbove_of_notMem (h : ['.', '.'] ∉ ps) (depth : Nat) : risesAbove depth ps = false := by
  induction ps generalizing depth with
  | nil => cases depth <;> rfl
  | cons p ps ih =>
    rw [List.mem_cons, not_or] at h
    cases depth with
    | zero => simp [risesAbove, Ne.symm h.1, ih h.2]
    | succ depth => rw [risesAbove, if_neg (Ne.symm h.1), ih h.2]

/-! ## Places of paths -/

theorem locate?_eq_foldlM (h : isAbsolute path = true) :
    t.locate? path = (pieces path).foldlM t.step [] := by
  cases path with
  | nil => cases h
  | cons c body =>
    obtain rfl : c = '/' := by simpa [isAbsolute] using h
    rw [FilePath.pieces_slash]
    rfl

theorem isAbsolute_of_locate? (h : t.locate? path = some l) : isAbsolute path = true := by
  unfold locate? at h
  split at h
  · rfl
  · cases h

theorem foldlM_components_iff (hl : t.status l = .directory) (h : isAbsolute path = true) :
    (components path).foldlM t.step [] = some l ↔ t.locate? path = some l := by
  rw [locate?_eq_foldlM h, components, foldlM_step_filter hl]

theorem fileSystem_status_eq_directory_iff : t.fileSystem.status path = .directory ↔
    ∃ l, t.locate? path = some l ∧ t.status l = .directory := by
  simp only [fileSystem]
  cases t.locate? path <;> simp

theorem fileSystem_holds_iff :
    t.fileSystem.holds path = true ↔ ∃ l, t.locate? path = some l ∧ t.status l ≠ .missing := by
  simp only [FileSystem.holds, fileSystem]
  cases t.locate? path with
  | none => simp
  | some l => cases hl : t.status l <;> simp [hl]

/-- What is below a path by a proper name is in the directory that the path leads to. -/
theorem exists_of_locate?_join {name : List Char} (hslash : '/' ∉ name) (hidle : isIdle name = false)
    (hup : name ≠ ['.', '.']) (h : t.locate? (join dir name) = some l') :
    ∃ l, (components dir).foldlM t.step [] = some l ∧ l' = name :: l := by
  obtain ⟨ps, hpieces, hcomponents⟩ := FilePath.exists_pieces_join dir hslash
  rw [locate?_eq_foldlM (isAbsolute_of_locate? h), hpieces, foldlM_step_append] at h
  obtain ⟨l, hl, hname⟩ := h
  obtain ⟨hdirectory, hmove⟩ := foldlM_step_cons.1 hname
  refine ⟨l, ?_, ?_⟩
  · rw [← hcomponents]
    exact (foldlM_step_filter hdirectory).2 hl
  · rw [move, hidle, if_neg Bool.false_ne_true, if_neg hup] at hmove
    exact (Option.some.inj hmove).symm

/-- The walk along the start path comes through the directory that holds what is discovered. -/
theorem exists_walk_of_nearest {n : Nat} (hhere : t.locate? start = some here)
    (hdirectory : t.status here = .directory) (h : t.fileSystem.Nearest start n dir) :
    ∃ holder rest, components start = components dir ++ rest ∧
      (components dir).foldlM t.step [] = some holder ∧ rest.foldlM t.step holder = some here ∧
      t.locate? (join dir standardName) = some (standardName :: holder) ∧
      t.status (standardName :: holder) ≠ .missing := by
  obtain ⟨place, hplace, hthere⟩ := fileSystem_holds_iff.1 h.holds
  obtain ⟨holder, hholder, rfl⟩ := exists_of_locate?_join (by decide) (by decide) (by decide) hplace
  obtain ⟨rest, -, hrest⟩ := FilePath.exists_components_of_climb h.climb
  have hwalk := (foldlM_components_iff hdirectory (isAbsolute_of_locate? hhere)).2 hhere
  rw [hrest, foldlM_step_append, hholder] at hwalk
  obtain ⟨_, heq, hwalk⟩ := hwalk
  obtain rfl := Option.some.inj heq
  exact ⟨holder, rest, hrest, hholder, hwalk, hplace, hthere⟩

/-- The first `k` components of an existing directory lead to the directory that holds what is
discovered, and the others lead from there to the start. Unless they lead above the holder on their way,
which takes a `..`, the holder is the start or above it. -/
theorem discover_on_the_way (hstart : t.fileSystem.status start = .directory)
    (h : t.fileSystem.discover start = some p) :
    ∃ k here holder, t.locate? start = some here ∧
      t.locate? p = some (standardName :: holder) ∧ t.status (standardName :: holder) ≠ .missing ∧
      ((components start).take k).foldlM t.step [] = some holder ∧
      ((components start).drop k).foldlM t.step holder = some here ∧
      (risesAbove 0 ((components start).drop k) = false → holder <:+ here) ∧
      (['.', '.'] ∉ components start → holder <:+ here) := by
  obtain ⟨here, hhere, hdirectory⟩ := fileSystem_status_eq_directory_iff.1 hstart
  obtain ⟨n, dir, hnearest, rfl⟩ := FileSystem.discover_eq_some_iff.1 h
  obtain ⟨holder, rest, hrest, hholder, hwalk, hplace, hthere⟩ :=
    exists_walk_of_nearest hhere hdirectory hnearest
  have hproper : ∀ p ∈ rest, isIdle p = false := by
    intro p hp
    have hmem : p ∈ components start := hrest ▸ List.mem_append_right _ hp
    exact FilePath.isIdle_of_mem_components hmem
  have hsuffix (hrises : risesAbove 0 rest = false) : holder <:+ here :=
    suffix_of_foldlM_step [] hproper hrises hwalk
  refine ⟨(components dir).length, here, holder, hhere, hplace, hthere, ?_⟩
  rw [hrest, List.take_left, List.drop_left]
  refine ⟨hholder, hwalk, hsuffix, fun hup => hsuffix ?_⟩
  apply risesAbove_of_notMem
  rw [List.mem_append, not_or] at hup
  exact hup.2

/-- The start is a directory below the one with the file, written with idle pieces. -/
theorem discover_on_the_way_above :
    let t := ((bare.putFile [standardName, ['a']] .empty).putDirectory [['b'], ['a']])
    let start := "/a//b/.".toList
    let p := "/a/docnav.toml".toList
    t.fileSystem.status start = .directory ∧ t.fileSystem.discover start = some p ∧
      ['.', '.'] ∉ components start ∧ ∃ here holder, t.locate? start = some here ∧
        t.locate? p = some (standardName :: holder) ∧ holder <:+ here := by
  intro t start p
  have hstart : t.fileSystem.status start = .directory := rfl
  have hnearest : t.fileSystem.Nearest start 1 "/a".toList :=
    (FileSystem.Nearest.here (by decide)).above (by decide) (by decide)
  have hfound : t.fileSystem.discover start = some p := hnearest.discover_eq.trans (by decide)
  have hup : ['.', '.'] ∉ components start := by decide
  obtain ⟨k, here, holder, hhere, hp, -, -, -, -, hsuffix⟩ := discover_on_the_way hstart hfound
  exact ⟨hstart, hfound, hup, here, holder, hhere, hp, hsuffix hup⟩

/-- The start path leads to the root through a directory below it, and that one is found. -/
theorem discover_below_start :
    let t := bare.putFile [standardName, ['a']] .empty
    let start := "/a/..".toList
    let p := "/a/docnav.toml".toList
    t.fileSystem.status start = .directory ∧ t.fileSystem.discover start = some p ∧
      t.locate? start = some [] ∧ t.locate? p = some [standardName, ['a']] ∧
      ¬([['a']] : Place) <:+ [] := by
  intro t start p
  have hnearest : t.fileSystem.Nearest start 1 "/a".toList :=
    (FileSystem.Nearest.here (by decide)).above (by decide) (by decide)
  exact ⟨rfl, hnearest.discover_eq.trans (by decide), by decide, by decide, by decide⟩

end DirectoryTree

end SiteNav
