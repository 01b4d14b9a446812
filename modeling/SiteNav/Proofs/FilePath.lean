import Mathlib.Data.List.Basic
import SiteNav.FilePath

/-!
# What paths name

The components of a path are its pieces that name something. A path above another one has the same
components but for the last, so that climbing goes through the components one by one and ends at a root,
which has none.
-/
namespace SiteNav.FilePath

/-- The pieces of a path that name something, `..` included. -/
def components (path : List Char) : List (List Char) :=
  (pieces path).filter (!isIdle ·)

/-- The `n`-th of the paths at and above a path. -/
def climb (path : List Char) : Nat → Option (List Char)
  | 0 => some path
  | n + 1 => (parent? path).bind (climb · n)

/-! ## Pieces -/

theorem slash_notMem_of_mem_pieces {cs p : List Char} (h : p ∈ pieces cs) : '/' ∉ p := by
  induction cs generalizing p with
  | nil =>
    rw [pieces, List.mem_singleton] at h
    rw [h]
    exact List.not_mem_nil
  | cons c cs ih =>
    rw [pieces] at h
    by_cases hc : c = '/'
    · rw [if_pos hc, List.mem_cons] at h
      rcases h with rfl | h
      · exact List.not_mem_nil
      · exact ih h
    · rw [if_neg hc] at h
      cases hcs : pieces cs with
      | nil => exact absurd hcs (pieces_ne_nil cs)
      | cons q qs =>
        rw [hcs] at h
        rw [hcs] at ih
        rcases List.mem_cons.1 h with rfl | h
        · rw [List.mem_cons, not_or]
          exact ⟨Ne.symm hc, ih List.mem_cons_self⟩
        · exact ih (List.mem_cons_of_mem q h)

theorem pieces_slash (cs : List Char) : pieces ('/' :: cs) = [] :: pieces cs :=
  if_pos rfl

theorem pieces_append_slash (cs ds : List Char) :
    pieces (cs ++ '/' :: ds) = pieces cs ++ pieces ds := by
  induction cs with
  | nil => exact pieces_slash ds
  | cons c cs ih =>
    rw [List.cons_append, pieces, pieces, ih]
    by_cases hc : c = '/'
    · rw [if_pos hc, if_pos hc, List.cons_append]
    · rw [if_neg hc, if_neg hc]
      cases hcs : pieces cs with
      | nil => exact absurd hcs (pieces_ne_nil cs)
      | cons p ps => rfl

theorem pieces_eq_singleton {p : List Char} (h : '/' ∉ p) : pieces p = [p] := by
  induction p with
  | nil => rfl
  | cons c p ih =>
    rw [List.mem_cons, not_or] at h
    rw [pieces, if_neg (Ne.symm h.1), ih h.2]

theorem pieces_joinPieces {ps : List (List Char)} (hps : ps ≠ []) (h : ∀ p ∈ ps, '/' ∉ p) :
    pieces (joinPieces ps) = ps := by
  induction ps with
  | nil => exact absurd rfl hps
  | cons p ps ih =>
    rw [List.forall_mem_cons] at h
    cases ps with
    | nil => exact pieces_eq_singleton h.1
    | cons q ps =>
      rw [joinPieces, pieces_append_slash, pieces_eq_singleton h.1, ih (List.cons_ne_nil q ps) h.2]
      rfl

/-! ## Components -/

theorem isIdle_of_mem_components {path p : List Char} (h : p ∈ components path) :
    isIdle p = false := by
  simpa using (List.mem_filter.1 h).2

theorem components_slash (cs : List Char) : components ('/' :: cs) = components cs := by
  rw [components, pieces_slash]
  rfl

theorem components_joinPieces {ps : List (List Char)} (h : ∀ p ∈ ps, '/' ∉ p) :
    components (joinPieces ps) = ps.filter (!isIdle ·) := by
  by_cases hps : ps = []
  · rw [hps]
    rfl
  · rw [components, pieces_joinPieces hps h]

/-- A name below a path is one more piece behind its components, whether a slash is put in between or
not. -/
theorem exists_pieces_join (dir : List Char) {name : List Char} (h : '/' ∉ name) :
    ∃ ps, pieces (join dir name) = ps ++ [name] ∧ ps.filter (!isIdle ·) = components dir := by
  have hrelative : ¬isAbsolute name = true := by
    intro habsolute
    rw [isAbsolute, beq_iff_eq] at habsolute
    exact h (List.mem_of_head? habsolute)
  rw [join, if_neg hrelative]
  by_cases hempty : dir = []
  · subst hempty
    exact ⟨[], pieces_eq_singleton h, rfl⟩
  · by_cases hlast : dir.getLast? = some '/'
    · obtain ⟨front, rfl⟩ := List.getLast?_eq_some_iff.1 hlast
      refine ⟨pieces front, ?_, ?_⟩
      · rw [if_pos (by simp), List.append_assoc]
        exact (pieces_append_slash front name).trans (by rw [pieces_eq_singleton h])
      · rw [components, pieces_append_slash, List.filter_append]
        exact (List.append_nil _).symm
    · refine ⟨pieces dir, ?_, rfl⟩
      rw [if_neg (by simp [hempty, hlast]), pieces_append_slash, pieces_eq_singleton h]

theorem filter_dropWhile_isIdle (ps : List (List Char)) :
    (ps.dropWhile isIdle).filter (!isIdle ·) = ps.filter (!isIdle ·) := by
  induction ps with
  | nil => rfl
  | cons p ps ih =>
    by_cases hp : isIdle p = true
    · rw [List.dropWhile_cons_of_pos hp, ih, List.filter_cons_of_neg (by simp [hp])]
    · rw [List.dropWhile_cons_of_neg hp]

theorem filter_dropWhile_reverse_pieces (body : List Char) :
    ((pieces body).reverse.dropWhile isIdle).filter (!isIdle ·) = (components body).reverse := by
  rw [filter_dropWhile_isIdle, List.filter_reverse, components]

/-- The path above has all components but the last. -/
theorem exists_components_of_parent? {path above : List Char} (h : parent? path = some above) :
    ∃ name, components path = components above ++ [name] := by
  unfold parent? at h
  split at h
  · next body =>
    have hcomponents := filter_dropWhile_reverse_pieces body
    split at h
    · cases h
    · next name rest hname =>
      obtain rfl := Option.some.inj h
      have hidle : isIdle name = false := by
        have := List.head_dropWhile_not isIdle (l := (pieces body).reverse) (by simp [hname])
        simpa [hname] using this
      have hslash : ∀ p ∈ (rest.dropWhile isIdle).reverse, '/' ∉ p := by
        intro p hp
        have hrest : p ∈ rest := (List.dropWhile_sublist isIdle).subset (List.mem_reverse.1 hp)
        have hall : p ∈ (pieces body).reverse.dropWhile isIdle := hname ▸ List.mem_cons_of_mem name hrest
        have hpieces := (List.dropWhile_sublist isIdle).subset hall
        exact slash_notMem_of_mem_pieces (List.mem_reverse.1 hpieces)
      rw [hname, List.filter_cons_of_pos (by simp [hidle])] at hcomponents
      refine ⟨name, ?_⟩
      rw [components_slash, components_slash, components_joinPieces hslash, List.filter_reverse,
        filter_dropWhile_isIdle, ← List.reverse_cons, hcomponents, List.reverse_reverse]
  · cases h

theorem isAbsolute_of_parent? {path above : List Char} (h : parent? path = some above) :
    isAbsolute above = true := by
  unfold parent? at h
  split at h
  · split at h
    · cases h
    · obtain rfl := Option.some.inj h
      rfl
  · cases h

/-- Only a root has no path above it. -/
theorem parent?_eq_none_iff {path : List Char} (h : isAbsolute path = true) :
    parent? path = none ↔ components path = [] := by
  constructor
  · intro hnone
    cases path with
    | nil => cases h
    | cons c body =>
      obtain rfl : c = '/' := by simpa [isAbsolute] using h
      have hcomponents := filter_dropWhile_reverse_pieces body
      rw [parent?] at hnone
      split at hnone
      · next hidle =>
        rw [hidle, List.filter_nil] at hcomponents
        rw [components_slash, List.reverse_eq_nil_iff.1 hcomponents.symm]
      · cases hnone
  · intro hroot
    cases hparent : parent? path with
    | none => rfl
    | some above =>
      obtain ⟨name, hname⟩ := exists_components_of_parent? hparent
      rw [hroot] at hname
      simp at hname

/-! ## Climbing -/

section Climb
variable {path above : List Char} {n : Nat}

theorem climb_of_parent? (h : parent? path = some above) (n : Nat) :
    climb path (n + 1) = climb above n := by
  rw [climb, h, Option.bind_some]

theorem ancestors_eq (path : List Char) :
    ancestors path = path :: ((parent? path).map ancestors).getD [] := by
  rw [ancestors]
  split
  · next h => rw [h]; rfl
  · next h => rw [h]; rfl

theorem getElem?_ancestors (path : List Char) (n : Nat) : (ancestors path)[n]? = climb path n := by
  induction n generalizing path with
  | zero =>
    rw [ancestors_eq]
    rfl
  | succ n ih =>
    rw [ancestors_eq, List.getElem?_cons_succ, climb]
    cases parent? path with
    | none => rfl
    | some above => exact ih above

theorem isAbsolute_of_climb (hpath : isAbsolute path = true) (h : climb path n = some above) :
    isAbsolute above = true := by
  induction n generalizing path with
  | zero => exact Option.some.inj h ▸ hpath
  | succ n ih =>
    obtain ⟨next, hnext, hclimb⟩ := Option.bind_eq_some_iff.1 h
    exact ih (isAbsolute_of_parent? hnext) hclimb

theorem climb_isPrefix (h : climb path n = some above) : above <+: path := by
  induction n generalizing path with
  | zero =>
    obtain rfl := Option.some.inj h
    exact List.prefix_rfl
  | succ n ih =>
    obtain ⟨next, hnext, hclimb⟩ := Option.bind_eq_some_iff.1 h
    exact (ih hclimb).trans (isPrefix_and_length_lt_of_parent? hnext).1

/-- The `n`-th path has all components but the last `n`. -/
theorem exists_components_of_climb (h : climb path n = some above) :
    ∃ rest, rest.length = n ∧ components path = components above ++ rest := by
  induction n generalizing path with
  | zero =>
    obtain rfl := Option.some.inj h
    exact ⟨[], rfl, (List.append_nil _).symm⟩
  | succ n ih =>
    obtain ⟨next, hnext, hclimb⟩ := Option.bind_eq_some_iff.1 h
    obtain ⟨name, hname⟩ := exists_components_of_parent? hnext
    obtain ⟨rest, hlength, hrest⟩ := ih hclimb
    refine ⟨rest ++ [name], ?_, ?_⟩
    · rw [List.length_append, hlength, List.length_singleton]
    · rw [hname, hrest, List.append_assoc]

/-- There are as many paths above an absolute one as it has components. -/
theorem isSome_climb_iff (h : isAbsolute path = true) (n : Nat) :
    (climb path n).isSome = true ↔ n ≤ (components path).length := by
  induction n generalizing path with
  | zero => simp [climb]
  | succ n ih =>
    cases hparent : parent? path with
    | none =>
      rw [climb, hparent, (parent?_eq_none_iff h).1 hparent]
      simp
    | some next =>
      obtain ⟨name, hname⟩ := exists_components_of_parent? hparent
      rw [climb_of_parent? hparent, ih (isAbsolute_of_parent? hparent), hname, List.length_append,
        List.length_singleton]
      omega

end Climb

end SiteNav.FilePath
