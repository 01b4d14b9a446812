/-!
# File paths as text

Only the slash separates. A path names its last proper component, so trailing slashes and `/.` do
not count. The parent of a path loses that component together with the separators and the `.`
components around it; the root and the empty path have none. Nothing here asks a file system.
-/
namespace SiteNav.FilePath

def pieces : List Char → List (List Char)
  | [] => [[]]
  | c :: cs =>
    if c = '/' then [] :: pieces cs
    else match pieces cs with
      | [] => [[c]]
      | p :: ps => (c :: p) :: ps

/-- A piece that names nothing: the gap between two slashes, or a dot. -/
def isIdle (p : List Char) : Bool :=
  p == [] || p == ['.']

def fileName? (path : List Char) : Option (List Char) :=
  match (pieces path).reverse.dropWhile isIdle with
  | [] => none
  | p :: _ => if p == ['.', '.'] then none else some p

def splitLastDot : List Char → Option (List Char × List Char)
  | [] => none
  | c :: cs =>
    match splitLastDot cs with
    | some (stem, ext) => some (c :: stem, ext)
    | none => if c = '.' then some ([], cs) else none

/-- The text after the last dot of the file name, unless that dot comes first. -/
def extension? (path : List Char) : Option (List Char) :=
  match (fileName? path).bind splitLastDot with
  | some (_ :: _, ext) => some ext
  | _ => none

def joinPieces : List (List Char) → List Char
  | [] => []
  | [p] => p
  | p :: q :: ps => p ++ '/' :: joinPieces (q :: ps)

/-- The path above an absolute path; the root has none. -/
def parent? : List Char → Option (List Char)
  | '/' :: body =>
    match (pieces body).reverse.dropWhile isIdle with
    | [] => none
    | _ :: above => some ('/' :: joinPieces (above.dropWhile isIdle).reverse)
  | _ => none

theorem pieces_ne_nil (cs : List Char) : pieces cs ≠ [] := by
  cases cs with
  | nil => simp [pieces]
  | cons c cs =>
    rw [pieces]
    split
    · simp
    · split <;> simp

theorem joinPieces_pieces (cs : List Char) : joinPieces (pieces cs) = cs := by
  induction cs with
  | nil => rfl
  | cons c cs ih =>
    rw [pieces]
    cases h : pieces cs with
    | nil => exact absurd h (pieces_ne_nil cs)
    | cons p ps =>
      rw [h] at ih
      by_cases hc : c = '/'
      · rw [if_pos hc, joinPieces, ih, hc]
        rfl
      · rw [if_neg hc]
        cases ps with
        | nil => rw [← ih]; rfl
        | cons q qs => rw [← ih]; rfl

theorem joinPieces_isPrefix (ps qs : List (List Char)) : joinPieces ps <+: joinPieces (ps ++ qs) := by
  induction ps with
  | nil => exact List.nil_prefix
  | cons p ps ih =>
    cases ps with
    | nil =>
      cases qs with
      | nil => exact List.prefix_rfl
      | cons q qs => exact List.prefix_append p _
    | cons q rest =>
      rw [joinPieces, List.cons_append, List.cons_append, joinPieces]
      exact (List.prefix_append_right_inj p).2 (List.cons_prefix_cons.2 ⟨rfl, ih⟩)

theorem length_joinPieces_concat (ps : List (List Char)) (p : List Char) (h : p ≠ []) :
    (joinPieces ps).length < (joinPieces (ps ++ [p])).length := by
  induction ps with
  | nil => simpa [joinPieces] using List.length_pos_iff.2 h
  | cons q ps ih =>
    cases ps with
    | nil => simp [joinPieces]
    | cons r rest => simp [joinPieces] at ih ⊢; omega

theorem ne_nil_of_dropWhile_isIdle {ps rest : List (List Char)} {p : List Char}
    (h : ps.dropWhile isIdle = p :: rest) : p ≠ [] := by
  intro hp
  have := List.head_dropWhile_not isIdle (l := ps) (by simp [h])
  simp [h, hp, isIdle] at this

theorem eq_append_of_dropWhile_reverse {ps rest : List (List Char)} {p : List Char}
    (h : ps.reverse.dropWhile isIdle = p :: rest) :
    ps = (rest.reverse ++ [p]) ++ (ps.reverse.takeWhile isIdle).reverse := by
  have hsplit : ps.reverse = ps.reverse.takeWhile isIdle ++ (p :: rest) := by
    rw [← h, List.takeWhile_append_dropWhile]
  simpa using congrArg List.reverse hsplit

theorem joinPieces_dropWhile_isPrefix (ps : List (List Char)) :
    joinPieces (ps.dropWhile isIdle).reverse <+: joinPieces ps.reverse := by
  have h := joinPieces_isPrefix (ps.dropWhile isIdle).reverse (ps.takeWhile isIdle).reverse
  rwa [← List.reverse_append, List.takeWhile_append_dropWhile] at h

theorem isPrefix_and_length_lt_of_parent? {path above : List Char} (h : parent? path = some above) :
    above <+: path ∧ above.length < path.length := by
  unfold parent? at h
  split at h
  · next body =>
    split at h
    · simp at h
    · next p rest hd =>
      obtain rfl := Option.some.inj h
      have hrest := joinPieces_dropWhile_isPrefix rest
      have hlast := length_joinPieces_concat rest.reverse p (ne_nil_of_dropWhile_isIdle hd)
      have hbody := joinPieces_isPrefix (rest.reverse ++ [p])
        ((pieces body).reverse.takeWhile isIdle).reverse
      rw [← eq_append_of_dropWhile_reverse hd, joinPieces_pieces] at hbody
      have hwhole := (hrest.trans (joinPieces_isPrefix rest.reverse [p])).trans hbody
      refine ⟨List.cons_prefix_cons.2 ⟨rfl, hwhole⟩, ?_⟩
      have hshorter := hrest.length_le
      have hlonger := hbody.length_le
      simp only [List.length_cons]
      omega
  · simp at h

theorem length_parent?_lt {path above : List Char} (h : parent? path = some above) :
    above.length < path.length :=
  (isPrefix_and_length_lt_of_parent? h).2

/-- The path and all paths above it, nearest first. -/
def ancestors (path : List Char) : List (List Char) :=
  path :: match _h : parent? path with
    | none => []
    | some above => ancestors above
termination_by path.length
decreasing_by exact length_parent?_lt _h

def isAbsolute (path : List Char) : Bool :=
  path.head? == some '/'

/-- `name` below `dir`; an absolute name stands for itself. -/
def join (dir name : List Char) : List Char :=
  if isAbsolute name then name
  else if dir == [] || dir.getLast? == some '/' then dir ++ name
  else dir ++ '/' :: name

end SiteNav.FilePath
