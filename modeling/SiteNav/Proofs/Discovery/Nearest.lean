import Mathlib.Data.List.Find
import SiteNav.FileSystem
import SiteNav.Proofs.FilePath

/-!
# The nearest site file

Discovery looks for the standard name at a path, then at the path above, and so on up to a root. Only
whether these few paths are there matters. Main statement: what is discovered is at the first of the
paths, counted from the start, at which something is there.
-/
namespace SiteNav.FileSystem
open FilePath (climb components isAbsolute join parent?)

/-- The path `dir`, at `n` steps above `start`, is the first at which there is something with the
standard name. -/
structure Nearest (fs : FileSystem) (start : List Char) (n : Nat) (dir : List Char) : Prop where
  climb : climb start n = some dir
  holds : fs.holds (join dir standardName) = true
  before : ∀ m < n, ∀ d, FilePath.climb start m = some d → fs.holds (join d standardName) = false

variable {fs fs' : FileSystem} {start p : List Char}

theorem Nearest.here (h : fs.holds (join start standardName) = true) : fs.Nearest start 0 start :=
  ⟨rfl, h, fun m hm => absurd hm m.not_lt_zero⟩

theorem Nearest.above {next dir : List Char} {n : Nat} (h : fs.Nearest next n dir)
    (hnext : parent? start = some next) (hstart : fs.holds (join start standardName) = false) :
    fs.Nearest start (n + 1) dir := by
  refine ⟨(FilePath.climb_of_parent? hnext n).trans h.climb, h.holds, fun m hm d hd => ?_⟩
  cases m with
  | zero => exact Option.some.inj hd ▸ hstart
  | succ m =>
    rw [FilePath.climb_of_parent? hnext] at hd
    exact h.before m (by omega) d hd

theorem getElem?_candidates (start : List Char) (n : Nat) :
    (candidates start)[n]? = (climb start n).map (join · standardName) := by
  rw [candidates, List.getElem?_map, FilePath.getElem?_ancestors]

theorem mem_candidates_iff :
    p ∈ candidates start ↔ ∃ n dir, climb start n = some dir ∧ join dir standardName = p := by
  rw [List.mem_iff_getElem?]
  refine exists_congr fun n => ?_
  rw [getElem?_candidates, Option.map_eq_some_iff]

/-- One step of the walk: a path that is there ends it, and else it goes on at the path above. -/
theorem discover_eq (fs : FileSystem) (start : List Char) :
    fs.discover start = if fs.holds (join start standardName) then some (join start standardName)
      else (parent? start).bind fs.discover := by
  rw [discover, candidates, FilePath.ancestors_eq, List.map_cons, List.find?_cons]
  cases fs.holds (join start standardName) with
  | true => rfl
  | false => cases parent? start <;> rfl

/-- By induction on the steps to the path: until there the walk finds nothing. -/
theorem Nearest.discover_eq {n : Nat} {dir : List Char} (h : fs.Nearest start n dir) :
    fs.discover start = some (join dir standardName) := by
  induction n generalizing start with
  | zero =>
    obtain rfl := Option.some.inj h.climb
    rw [FileSystem.discover_eq, if_pos h.holds]
  | succ n ih =>
    obtain ⟨above, habove, hclimb⟩ := Option.bind_eq_some_iff.1 h.climb
    have hstart : fs.holds (join start standardName) = false := h.before 0 n.succ_pos start rfl
    have hnearest : fs.Nearest above n dir := by
      refine ⟨hclimb, h.holds, fun m hm d hd => ?_⟩
      exact h.before (m + 1) (by omega) d ((FilePath.climb_of_parent? habove m).trans hd)
    rw [FileSystem.discover_eq, hstart, habove]
    exact ih hnearest

theorem discover_eq_none_iff : fs.discover start = none ↔
    ∀ n dir, climb start n = some dir → fs.holds (join dir standardName) = false := by
  rw [discover, List.find?_eq_none]
  constructor
  · intro h n dir hdir
    simpa using h _ (mem_candidates_iff.2 ⟨n, dir, hdir, rfl⟩)
  · intro h p hp
    obtain ⟨n, dir, hdir, rfl⟩ := mem_candidates_iff.1 hp
    simp [h n dir hdir]

/-- If there is something at one of the paths, there is a first of them. -/
theorem exists_nearest {n : Nat} {dir : List Char} (hdir : climb start n = some dir)
    (hholds : fs.holds (join dir standardName) = true) : ∃ m d, m ≤ n ∧ fs.Nearest start m d := by
  induction n using Nat.strongRecOn generalizing dir with
  | ind n ih =>
    by_cases hearlier : ∃ m < n, ∃ d, climb start m = some d ∧ fs.holds (join d standardName) = true
    · obtain ⟨m, hm, d, hd, hthere⟩ := hearlier
      obtain ⟨k, e, hk, hnearest⟩ := ih m hm hd hthere
      exact ⟨k, e, by omega, hnearest⟩
    · refine ⟨n, dir, n.le_refl, hdir, hholds, fun m hm d hd => ?_⟩
      by_contra hthere
      exact hearlier ⟨m, hm, d, hd, by simpa using hthere⟩

theorem discover_eq_some_iff : fs.discover start = some p ↔
    ∃ n dir, fs.Nearest start n dir ∧ join dir standardName = p := by
  constructor
  · intro h
    have hmem : p ∈ candidates start := List.mem_of_find?_eq_some h
    obtain ⟨n, dir, hdir, hp⟩ := mem_candidates_iff.1 hmem
    have hholds : fs.holds (join dir standardName) = true := by
      rw [hp]
      exact List.find?_some h
    obtain ⟨m, d, -, hnearest⟩ := exists_nearest hdir hholds
    exact ⟨m, d, hnearest, Option.some.inj (hnearest.discover_eq.symm.trans h)⟩
  · rintro ⟨n, dir, hnearest, rfl⟩
    exact hnearest.discover_eq

theorem discover_congr (h : ∀ n dir, climb start n = some dir →
      fs'.holds (join dir standardName) = fs.holds (join dir standardName)) :
    fs'.discover start = fs.discover start := by
  apply List.find?_congr
  intro p hp
  obtain ⟨n, dir, hdir, rfl⟩ := mem_candidates_iff.1 hp
  exact h n dir hdir

/-- Something new at the paths before the first is discovered where it comes first. -/
theorem discover_of_made {made : List Char → Bool} {n : Nat} {dir : List Char}
    (hfs' : ∀ p, fs'.holds p = (fs.holds p || made p)) (hdir : climb start n = some dir)
    (hmade : made (join dir standardName) = true)
    (hfirst : ∀ m < n, ∀ d, climb start m = some d → made (join d standardName) = false)
    (hearlier : ∀ k d, fs.Nearest start k d → n ≤ k) :
    fs'.discover start = some (join dir standardName) := by
  have hnearest : fs'.Nearest start n dir := by
    refine ⟨hdir, by rw [hfs', hmade, Bool.or_true], fun m hm d hd => ?_⟩
    rw [hfs', hfirst m hm d hd, Bool.or_false]
    by_contra hthere
    obtain ⟨k, e, hk, hold⟩ := exists_nearest hd (by simpa using hthere)
    have hn := hearlier k e hold
    omega
  exact hnearest.discover_eq

/-- From an absolute path there are as many steps up as it has components. Each leaves out one more at
the end, and the last is at a root. What is discovered is at the first path of them with something of
the standard name, and nothing is if there is none. So a path without it is as good as the path above,
only these paths matter, and what is put at paths before the first is discovered instead. -/
theorem discover_nearest (fs : FileSystem) {start : List Char} (hstart : isAbsolute start = true) :
    ((∃ root, climb start (components start).length = some root ∧ components root = []) ∧
      climb start ((components start).length + 1) = none ∧
      ∀ n dir, climb start n = some dir → isAbsolute dir = true ∧ dir <+: start ∧
        ∃ rest, rest.length = n ∧ components start = components dir ++ rest) ∧
    (∀ p, fs.discover start = some p ↔
      ∃ n dir, fs.Nearest start n dir ∧ join dir standardName = p) ∧
    (fs.discover start = none ↔
      ∀ n dir, climb start n = some dir → fs.holds (join dir standardName) = false) ∧
    (∀ above, parent? start = some above → fs.holds (join start standardName) = false →
      fs.discover start = fs.discover above) ∧
    (∀ fs' : FileSystem, (∀ n dir, climb start n = some dir →
        fs'.holds (join dir standardName) = fs.holds (join dir standardName)) →
      fs'.discover start = fs.discover start) ∧
    ∀ (fs' : FileSystem) (made : List Char → Bool), (∀ p, fs'.holds p = (fs.holds p || made p)) →
      ∀ n dir, climb start n = some dir → made (join dir standardName) = true →
      (∀ m < n, ∀ d, climb start m = some d → made (join d standardName) = false) →
      (∀ k d, fs.Nearest start k d → n ≤ k) →
      fs'.discover start = some (join dir standardName) := by
  refine ⟨⟨?_, ?_, fun n dir h => ?_⟩, fun p => discover_eq_some_iff, discover_eq_none_iff,
    fun above habove hmissing => ?_, fun fs' => discover_congr,
    fun fs' made hfs' n dir => discover_of_made hfs'⟩
  · obtain ⟨root, hroot⟩ := Option.isSome_iff_exists.1
      ((FilePath.isSome_climb_iff hstart (components start).length).2 (Nat.le_refl _))
    obtain ⟨rest, hlength, hrest⟩ := FilePath.exists_components_of_climb hroot
    have hcount := congrArg List.length hrest
    rw [List.length_append] at hcount
    exact ⟨root, hroot, List.length_eq_zero_iff.1 (by omega)⟩
  · rw [← Option.not_isSome_iff_eq_none, FilePath.isSome_climb_iff hstart]
    omega
  · exact ⟨FilePath.isAbsolute_of_climb hstart h, FilePath.climb_isPrefix h,
      FilePath.exists_components_of_climb h⟩
  · rw [discover_eq, hmissing, habove]
    rfl

/-- The start is written with idle pieces. Something is at the path above, and then at the start too. -/
theorem discover_nearest_above :
    let start := "/a//b/./".toList
    let above := "/a/docnav.toml".toList
    let own := "/a//b/./docnav.toml".toList
    let fs (there : List (List Char)) : FileSystem :=
      ⟨fun p => if there.contains p then .directory else .missing⟩
    isAbsolute start = true ∧ (fs [above]).discover start = some above ∧
      (fs [above]).discover start = (fs [above]).discover "/a".toList ∧
      (fs [own, above]).discover start = some own := by
  intro start above own fs
  have hstart : isAbsolute start = true := by decide
  have hparent : parent? start = some "/a".toList := by decide
  have hjoin : join start standardName = own := by decide
  have hnearest : (fs [above]).Nearest start 1 "/a".toList :=
    (Nearest.here (by decide)).above hparent (by decide)
  have hholds : ∀ there p, (fs there).holds p = there.contains p := by
    intro there p
    simp only [holds, fs]
    cases there.contains p <;> rfl
  have hmore : ∀ q r p, (fs [q, r]).holds p = ((fs [r]).holds p || [q].contains p) := by
    intro q r p
    rw [hholds, hholds, List.contains_cons, List.contains_cons, List.contains_cons, List.contains_nil,
      Bool.or_false, Bool.or_false, Bool.or_comm]
  obtain ⟨-, hsome, -, habove, -, hmade⟩ := discover_nearest (fs [above]) hstart
  refine ⟨hstart, (hsome _).2 ⟨1, _, hnearest, by decide⟩, habove _ hparent (by decide), ?_⟩
  rw [← hjoin]
  exact hmade _ _ (hmore (join start standardName) above) 0 start rfl (by simp)
    (fun m hm => absurd hm m.not_lt_zero) fun k d _ => k.zero_le

end SiteNav.FileSystem
