import Mathlib.Data.Prod.Lex
import SiteNav.Proofs.Json.Flaws
import SiteNav.Proofs.Json.Trailing

/-!
# Places in a JSON document

Places are ordered as they come in the text. Reading goes forward, so that the places that a tree holds
come in the order of its values, each behind those before it. Main statement: the places of the flaws of
a document increase strictly along their list.
-/
namespace SiteNav.Json
open Document

namespace Pos

theorem toLex_injective : Function.Injective fun p : Pos => toLex (p.line, p.column) := by
  intro p q h
  obtain ⟨hline, hcolumn⟩ := Prod.mk.inj (toLex.injective h)
  cases p
  cases q
  cases hline
  cases hcolumn
  rfl

instance : LinearOrder Pos :=
  LinearOrder.lift' (fun p => toLex (p.line, p.column)) toLex_injective

variable {p q : Pos}

theorem lt_iff : p < q ↔ p.line < q.line ∨ p.line = q.line ∧ p.column < q.column :=
  Prod.Lex.lt_iff

theorem lt_next (p : Pos) (c : Char) : p < p.next c := by
  rw [lt_iff, next]
  have hsize := c.utf8Size_pos
  split
  · exact .inl (Nat.lt_succ_self _)
  · exact .inr ⟨rfl, by simp only; omega⟩

theorem lt_nextByte (p : Pos) (c : Char) : p < p.nextByte c := by
  rw [lt_iff, nextByte]
  split
  · exact .inl (Nat.lt_succ_self _)
  · exact .inr ⟨rfl, Nat.lt_succ_self _⟩

theorem le_nexts (p : Pos) (cs : List Char) : p ≤ p.nexts cs := by
  induction cs generalizing p with
  | nil => exact le_refl p
  | cons c cs ih => exact (p.lt_next c).le.trans (ih (p.next c))

theorem le_afterDigits (p : Pos) (n : Nat) : p ≤ Number.afterDigits p n := by
  rw [← not_lt, lt_iff, Number.afterDigits]
  simp only
  omega

end Pos

/-! ## Scanning goes forward -/

theorem le_skipBlank (cs : List Char) (pos : Pos) : pos ≤ (skipBlank cs pos).pos := by
  induction cs generalizing pos with
  | nil => exact le_refl pos
  | cons c cs ih =>
    rw [skipBlank]
    split
    · exact (pos.lt_next c).le.trans (ih _)
    · exact le_refl pos

theorem le_of_scanWord {value : Scalar} {ws cs rest : List Char} {pos stop : Pos}
    {r : Except Fault Scalar} (h : scanWord value ws cs pos = .done r rest stop) : pos ≤ stop := by
  induction ws generalizing cs pos with
  | nil =>
    cases h
    exact le_refl _
  | cons w ws ih =>
    cases cs with
    | nil => cases h
    | cons c cs =>
      simp only [scanWord] at h
      split at h
      · exact (pos.lt_next c).le.trans (ih h)
      · cases h

theorem Literal.le_of_scanFrom {st : State} {cs rest : List Char} {pos stop : Pos}
    {r : Except Fault String} (h : scanFrom st cs pos = .done r rest stop) : pos ≤ stop := by
  fun_induction scanFrom st cs pos with
  | case1 => cases h
  | case2 st rest pos =>
    cases h
    exact (pos.lt_next _).le
  | case3 st a b c d rest pos pos' n hunit pos'' ih =>
    exact ((pos.le_nexts _).trans (Pos.le_nexts _ _)).trans (ih h)
  | case4 => cases h
  | case5 => cases h
  | case6 st c rest pos _ _ after _ x hx ih =>
    exact ((pos.lt_next '\\').trans (Pos.lt_nextByte _ c)).le.trans (ih h)
  | case7 => cases h
  | case8 => cases h
  | case9 => cases h
  | case10 st c rest pos _ _ _ _ _ _ hc ih => exact (pos.lt_next c).le.trans (ih h)

namespace Number
variable {negative : Bool} {s : Significand} {cs rest : List Char} {pos stop : Pos}
  {r : Except Fault Number}

theorem le_of_scanExponentDigits {minus : Bool}
    (h : scanExponentDigits negative s minus cs pos = .done r rest stop) : pos ≤ stop := by
  cases cs with
  | nil => cases h
  | cons c cs =>
    rw [scanExponentDigits] at h
    split at h
    · cases h
    · obtain ⟨-, -, rfl⟩ := Scan.done.inj h
      exact pos.le_afterDigits _

theorem le_of_scanExponent (h : scanExponent negative s cs pos = .done r rest stop) : pos ≤ stop := by
  cases cs with
  | nil => cases h
  | cons c cs =>
    rw [scanExponent_cons] at h
    split_ifs at h
    · exact (pos.lt_next c).le.trans (le_of_scanExponentDigits h)
    · exact (pos.lt_next c).le.trans (le_of_scanExponentDigits h)
    · exact le_of_scanExponentDigits h

theorem le_of_scanFraction (h : scanFraction negative s cs pos = .done r rest stop) : pos ≤ stop := by
  rw [scanFraction] at h
  split at h
  · cases h
  · next ds tail _ _ =>
    have hdigits := pos.le_afterDigits ds.length
    simp only at h
    split at h
    · exact hdigits.trans ((Pos.lt_next _ _).le.trans (le_of_scanExponent h))
    · exact hdigits.trans ((Pos.lt_next _ _).le.trans (le_of_scanExponent h))
    · obtain ⟨-, -, rfl⟩ := Scan.done.inj h
      exact hdigits

theorem le_of_scanTail (h : scanTail negative s cs pos = .done r rest stop) : pos ≤ stop := by
  rw [scanTail.eq_def] at h
  split at h
  · exact (pos.lt_next _).le.trans (le_of_scanFraction h)
  · exact (pos.lt_next _).le.trans (le_of_scanExponent h)
  · exact (pos.lt_next _).le.trans (le_of_scanExponent h)
  · split at h
    all_goals
      obtain ⟨-, -, rfl⟩ := Scan.done.inj h
      exact le_refl pos

theorem le_of_scanUnsigned (h : scanUnsigned negative cs pos = .done r rest stop) : pos ≤ stop := by
  rw [scanUnsigned.eq_def] at h
  split at h
  · cases h
  · split at h
    · cases h
    · exact (pos.lt_next _).le.trans (le_of_scanTail h)
  · split at h
    · cases h
    · exact (pos.le_afterDigits _).trans (le_of_scanTail h)

theorem le_of_scan (h : scan cs pos = .done r rest stop) : pos ≤ stop := by
  rw [scan.eq_def] at h
  split at h
  · exact (pos.lt_next _).le.trans (le_of_scanUnsigned h)
  · exact le_of_scanUnsigned h

end Number

/-! ## Trees in order -/

namespace Node

mutual

/-- The value stands behind one place and ends at another, and what it holds stands in between, each
part behind the one before it. -/
def Spans : Node → Pos → Pos → Prop
  | scalar _ stop _, p, q => p < stop ∧ stop = q
  | list start items ending, p, q =>
    p < start ∧ ∃ last, SpansItems items start last ∧ last < q ∧ ending = .closed q
  | map start entries ending, p, q =>
    p < start ∧ ∃ last, SpansEntries entries start last ∧ last < q ∧ ending = .closed q
  | broken _ _ _, _, _ => False

def SpansItems : List Node → Pos → Pos → Prop
  | [], p, q => p = q
  | n :: ns, p, q => ∃ stop, Spans n p stop ∧ SpansItems ns stop q

def SpansEntries : List (Key × Node) → Pos → Pos → Prop
  | [], p, q => p = q
  | (k, n) :: es, p, q => p < k.stop ∧ ∃ stop, Spans n k.stop stop ∧ SpansEntries es stop q

end

end Node

/-! ## Reading in order -/

section Readers
variable {fuel : Nat} {first : Bool} {c c' : Cursor}

/-- Reading elements either ends at a bracket or goes on with an element, behind a comma but for the
first. -/
theorem cases_of_readItems {r : List Node × Ending}
    (h : readItems (fuel + 1) first c = (r, some c')) :
    (r = ([], .closed c'.pos) ∧ c.pos < c'.pos) ∨
    ∃ next, readItem fuel next = (r, some c') ∧ c.pos ≤ next.pos ∧ (first = false → c.pos < next.pos) := by
  generalize hfuel : fuel + 1 = fuel' at h
  fun_cases readItems fuel' first c with
  | case1 => cases hfuel
  | case2 => cases h
  | case3 fuel' first pos cs =>
    rw [readItems, if_pos rfl] at h
    cases h
    exact .inl ⟨rfl, pos.lt_next _⟩
  | case4 fuel' pos d cs hd =>
    cases hfuel
    rw [readItems, if_neg hd, if_pos rfl] at h
    exact .inr ⟨_, h, le_refl pos, fun hfirst => Bool.noConfusion hfirst⟩
  | case5 fuel' first pos cs hfirst pos' hc hskip =>
    rw [readItems, if_neg hc, if_neg hfirst, if_pos rfl, hskip] at h
    cases h
  | case6 fuel' first pos cs hfirst pos' ds hc hskip =>
    rw [readItems, if_neg hc, if_neg hfirst, if_pos rfl, hskip] at h
    cases h
  | case7 fuel' first pos cs hfirst ds pos' hnil hclose hc hskip =>
    cases hfuel
    obtain rfl : first = false := Bool.eq_false_iff.2 hfirst
    cases ds with
    | nil => exact absurd rfl hnil
    | cons d ds =>
      have hd : d ≠ ']' := fun h => hclose ds (h ▸ rfl)
      rw [Nat.succ_eq_add_one, Continues.readItems_comma hskip hd] at h
      have hlt : pos < pos' := by
        have hle := le_skipBlank cs (pos.next ',')
        rw [hskip] at hle
        exact (pos.lt_next ',').trans_le hle
      exact .inr ⟨_, h, hlt.le, fun _ => hlt⟩
  | case8 fuel' first pos d cs hclose hfirst hcomma =>
    rw [readItems, if_neg hclose, if_neg hfirst, if_neg hcomma] at h
    cases h

theorem exists_of_readItem {r : List Node × Ending} (h : readItem (fuel + 1) c = (r, some c')) :
    ∃ node next r', readValue fuel c = (node, some next) ∧
      readItems fuel false (skipBlank next.rest next.pos) = (r', some c') ∧ r = (node :: r'.1, r'.2) := by
  rw [readItem] at h
  rcases hvalue : readValue fuel c with ⟨node, _ | next⟩
  · rw [hvalue] at h
    cases h
  · rw [hvalue] at h
    rcases hitems : readItems fuel false (skipBlank next.rest next.pos) with ⟨r', next'⟩
    simp only [hitems, prepend] at h
    obtain ⟨rfl, rfl⟩ := Prod.mk.inj h
    exact ⟨node, next, r', rfl, hitems, rfl⟩

/-- Reading entries either ends at a brace or goes on with an entry, whose quote is behind. -/
theorem cases_of_readEntries {r : List (Key × Node) × Ending}
    (h : readEntries (fuel + 1) first c = (r, some c')) :
    (r = ([], .closed c'.pos) ∧ c.pos < c'.pos) ∨
    ∃ next, readEntry fuel next = (r, some c') ∧ c.pos < next.pos := by
  generalize hfuel : fuel + 1 = fuel' at h
  fun_cases readEntries fuel' first c with
  | case1 => cases hfuel
  | case2 => cases h
  | case3 fuel' first pos cs =>
    rw [readEntries, if_pos rfl] at h
    cases h
    exact .inl ⟨rfl, pos.lt_next _⟩
  | case4 fuel' pos cs hc =>
    cases hfuel
    rw [readEntries, if_neg hc, if_pos rfl, if_pos rfl] at h
    exact .inr ⟨_, h, pos.lt_next _⟩
  | case5 fuel' pos d cs hc hquote =>
    rw [readEntries, if_neg hc, if_pos rfl, if_neg hquote] at h
    cases h
  | case6 fuel' first pos cs hfirst pos' hc hskip =>
    rw [readEntries, if_neg hc, if_neg hfirst, if_pos rfl, hskip] at h
    cases h
  | case7 fuel' first pos cs hfirst pos' ds hc hskip =>
    cases hfuel
    rw [readEntries, if_neg hc, if_neg hfirst, if_pos rfl, hskip] at h
    have hle := le_skipBlank cs (pos.next ',')
    rw [hskip] at hle
    exact .inr ⟨_, h, ((pos.lt_next ',').trans_le hle).trans (pos'.lt_next _)⟩
  | case8 fuel' first pos cs hfirst pos' ds hc hskip =>
    rw [readEntries, if_neg hc, if_neg hfirst, if_pos rfl, hskip] at h
    cases h
  | case9 fuel' first pos cs hfirst ds pos' hnil hquote hclose hc hskip =>
    rw [readEntries, if_neg hc, if_neg hfirst, if_pos rfl, hskip] at h
    dsimp only at h
    split at h
    · cases h
    · exact absurd rfl (hquote _)
    · cases h
    · cases h
  | case10 fuel' first pos d cs hclose hfirst hcomma =>
    rw [readEntries, if_neg hclose, if_neg hfirst, if_neg hcomma] at h
    cases h

end Readers

/-- What is read stands in order behind every place before it, up to the place where reading goes on. -/
structure InOrder (fuel : Nat) : Prop where
  value : ∀ {c c' : Cursor} {n : Node}, readValue fuel c = (n, some c') → ∀ p < c.pos, n.Spans p c'.pos
  items : ∀ {first : Bool} {c c' : Cursor} {r : List Node × Ending},
    readItems fuel first c = (r, some c') → ∀ p ≤ c.pos, (first = true → p < c.pos) →
      ∃ last, Node.SpansItems r.1 p last ∧ last < c'.pos ∧ r.2 = .closed c'.pos
  item : ∀ {c c' : Cursor} {r : List Node × Ending}, readItem fuel c = (r, some c') → ∀ p < c.pos,
    ∃ last, Node.SpansItems r.1 p last ∧ last < c'.pos ∧ r.2 = .closed c'.pos
  entries : ∀ {first : Bool} {c c' : Cursor} {r : List (Key × Node) × Ending},
    readEntries fuel first c = (r, some c') → ∀ p ≤ c.pos,
      ∃ last, Node.SpansEntries r.1 p last ∧ last < c'.pos ∧ r.2 = .closed c'.pos
  entry : ∀ {c c' : Cursor} {r : List (Key × Node) × Ending}, readEntry fuel c = (r, some c') →
    ∀ p < c.pos, ∃ last, Node.SpansEntries r.1 p last ∧ last < c'.pos ∧ r.2 = .closed c'.pos

namespace InOrder
variable {fuel : Nat}

theorem spans_of_ofScan {α : Type} {f : α → Scalar} {x : Scan α} {start p : Pos} {n : Node} {c : Cursor}
    (h : ofScan start f x = (n, some c)) (hp : p < start)
    (hx : ∀ {value rest stop}, x = .done value rest stop → start ≤ stop) : n.Spans p c.pos := by
  obtain ⟨value, hvalue, rfl⟩ := done_of_ofScan h
  exact ⟨hp.trans_le (hx hvalue), rfl⟩

theorem items_succ (h : InOrder fuel) {first : Bool} {c c' : Cursor} {r : List Node × Ending}
    (hread : readItems (fuel + 1) first c = (r, some c')) (p : Pos) (hp : p ≤ c.pos)
    (hfirst : first = true → p < c.pos) :
    ∃ last, Node.SpansItems r.1 p last ∧ last < c'.pos ∧ r.2 = .closed c'.pos := by
  obtain ⟨rfl, hlt⟩ | ⟨next, hitem, hle, hlt⟩ := cases_of_readItems hread
  · exact ⟨p, rfl, hp.trans_lt hlt, rfl⟩
  · refine h.item hitem p ?_
    cases first with
    | true => exact (hfirst rfl).trans_le hle
    | false => exact hp.trans_lt (hlt rfl)

theorem item_succ (h : InOrder fuel) {c c' : Cursor} {r : List Node × Ending}
    (hread : readItem (fuel + 1) c = (r, some c')) (p : Pos) (hp : p < c.pos) :
    ∃ last, Node.SpansItems r.1 p last ∧ last < c'.pos ∧ r.2 = .closed c'.pos := by
  obtain ⟨node, next, r', hvalue, hitems, rfl⟩ := exists_of_readItem hread
  obtain ⟨last, hspans, hlast, hend⟩ :=
    h.items hitems next.pos (le_skipBlank next.rest next.pos) Bool.noConfusion
  exact ⟨last, ⟨next.pos, h.value hvalue p hp, hspans⟩, hlast, hend⟩

theorem entries_succ (h : InOrder fuel) {first : Bool} {c c' : Cursor}
    {r : List (Key × Node) × Ending} (hread : readEntries (fuel + 1) first c = (r, some c')) (p : Pos)
    (hp : p ≤ c.pos) :
    ∃ last, Node.SpansEntries r.1 p last ∧ last < c'.pos ∧ r.2 = .closed c'.pos := by
  obtain ⟨rfl, hlt⟩ | ⟨next, hentry, hlt⟩ := cases_of_readEntries hread
  · exact ⟨p, rfl, hp.trans_lt hlt, rfl⟩
  · exact h.entry hentry p (hp.trans_lt hlt)

theorem entry_succ (h : InOrder fuel) {c c' : Cursor} {r : List (Key × Node) × Ending}
    (hread : readEntry (fuel + 1) c = (r, some c')) (p : Pos) (hp : p < c.pos) :
    ∃ last, Node.SpansEntries r.1 p last ∧ last < c'.pos ∧ r.2 = .closed c'.pos := by
  obtain ⟨text, rest, pos, cs, pos', node, next, r', hscan, hskip, hvalue, hentries, rfl⟩ :=
    exists_of_readEntry hread
  have hkey : p < pos' := by
    have hle := le_skipBlank rest pos
    rw [hskip] at hle
    exact (hp.trans_le (Literal.le_of_scanFrom hscan)).trans_le hle
  have hcolon : pos' < (skipBlank cs (pos'.next ':')).pos :=
    (pos'.lt_next ':').trans_le (le_skipBlank cs _)
  obtain ⟨last, hspans, hlast, hend⟩ :=
    h.entries hentries next.pos (le_skipBlank next.rest next.pos)
  exact ⟨last, ⟨hkey, next.pos, h.value hvalue pos' hcolon, hspans⟩, hlast, hend⟩

theorem value_succ (h : InOrder fuel) {c c' : Cursor} {n : Node}
    (hread : readValue (fuel + 1) c = (n, some c')) (p : Pos) (hp : p < c.pos) : n.Spans p c'.pos := by
  generalize hfuel : fuel + 1 = fuel' at hread
  fun_cases readValue fuel' c with
  | case1 => cases hfuel
  | case2 => cases hread
  | case3 fuel' pos cs => exact spans_of_ofScan hread hp fun h => (pos.lt_next _).le.trans (le_of_scanWord h)
  | case4 fuel' pos cs => exact spans_of_ofScan hread hp fun h => (pos.lt_next _).le.trans (le_of_scanWord h)
  | case5 fuel' pos cs => exact spans_of_ofScan hread hp fun h => (pos.lt_next _).le.trans (le_of_scanWord h)
  | case6 fuel' pos cs =>
    exact spans_of_ofScan hread hp fun h => (pos.lt_next _).le.trans (Literal.le_of_scanFrom h)
  | case7 fuel' pos cs items ending next hitems =>
    cases hfuel
    rw [readValue, hitems] at hread
    obtain ⟨rfl, rfl⟩ := Prod.mk.inj hread
    have hlt : pos < (skipBlank cs (pos.next '[')).pos := (pos.lt_next _).trans_le (le_skipBlank cs _)
    exact ⟨hp, h.items hitems pos hlt.le fun _ => hlt⟩
  | case8 fuel' pos cs entries ending next hentries =>
    cases hfuel
    rw [readValue, hentries] at hread
    obtain ⟨rfl, rfl⟩ := Prod.mk.inj hread
    have hlt : pos < (skipBlank cs (pos.next '\x7b')).pos := (pos.lt_next _).trans_le (le_skipBlank cs _)
    exact ⟨hp, h.entries hentries pos hlt.le⟩
  | case9 fuel' pos d cs hn ht hf hquote hlist hmap hnumber =>
    rw [readValue, if_pos hnumber] at hread
    · exact spans_of_ofScan hread hp Number.le_of_scan
    all_goals assumption
  | case10 fuel' pos d cs hn ht hf hquote hlist hmap hnumber =>
    rw [readValue, if_neg hnumber] at hread
    · cases hread
    all_goals assumption

end InOrder

theorem inOrder (fuel : Nat) : InOrder fuel := by
  induction fuel with
  | zero => exact ⟨nofun, nofun, nofun, nofun, nofun⟩
  | succ fuel ih =>
    exact ⟨ih.value_succ, ih.items_succ, ih.item_succ, ih.entries_succ, ih.entry_succ⟩

theorem isSome_ofScan {α : Type} {start start' stop : Pos} {f : α → Scalar} {x : Scan α}
    {value : Except Fault Scalar} :
    (ofScan start f x).1 = .scalar start' stop value → (ofScan start f x).2.isSome := by
  intro h
  cases x with
  | broken wanted skipped => cases h
  | done value rest pos => rfl

theorem isSome_of_readValue_scalar {fuel : Nat} {c : Cursor} {start stop : Pos}
    {value : Except Fault Scalar} :
    (readValue fuel c).1 = .scalar start stop value → (readValue fuel c).2.isSome := by
  fun_cases readValue fuel c with
  | case1 | case2 | case7 | case8 | case10 =>
    intro h
    cases h
  | case3 | case4 | case5 | case6 | case9 => exact isSome_ofScan

/-- A tree is read to its end. -/
theorem isSome_of_tree? {fuel : Nat} {c : Cursor} {n : Node} {next : Option Cursor} {t : Tree}
    (h : readValue fuel c = (n, next)) (ht : n.tree? = some t) : next.isSome := by
  obtain ⟨rfl, rfl⟩ : (readValue fuel c).1 = n ∧ (readValue fuel c).2 = next := by
    rw [h]
    exact ⟨rfl, rfl⟩
  obtain ⟨_, _, _, heq, -⟩ | ⟨_, _, _, _, heq, -⟩ | ⟨_, _, _, _, heq, -⟩ := Node.cases_of_tree? ht
  · exact isSome_of_readValue_scalar heq
  · exact isSome_of_readValue (congrArg Node.ending heq)
  · exact isSome_of_readValue (congrArg Node.ending heq)

/-- The tree of a text stands in order. -/
theorem exists_spans_of_read {cs : List Char} {root : Node} {t : Tree} (h : read cs = ⟨root, none⟩)
    (ht : root.tree? = some t) : ∃ start stop, root.Spans start stop := by
  rcases hvalue : readValue (3 * cs.length + 4) (skipBlank cs .start) with ⟨root', next⟩
  have hroot : root' = root := by
    rw [read, hvalue] at h
    cases next with
    | none => exact congrArg Contents.root h
    | some c => exact congrArg Contents.root h
  subst hroot
  obtain ⟨c, rfl⟩ := Option.isSome_iff_exists.1 (isSome_of_tree? hvalue ht)
  have hstart : Pos.mk 0 0 < (skipBlank cs .start).pos := by
    have hfirst : Pos.mk 0 0 < .start := Pos.lt_iff.2 (.inl Nat.one_pos)
    exact hfirst.trans_le (le_skipBlank cs _)
  exact ⟨_, _, (inOrder _).value hvalue _ hstart⟩

/-! ## Flaws in order -/

/-- The places increase strictly from behind one place up to another. -/
def Climbs : Pos → List (Misfit × Pos) → Pos → Prop
  | p, [], q => p ≤ q
  | p, f :: fs, q => p < f.2 ∧ Climbs f.2 fs q

namespace Climbs
variable {p q r : Pos} {fs gs : List (Misfit × Pos)} {f : Misfit × Pos}

theorem le (h : Climbs p fs q) : p ≤ q := by
  induction fs generalizing p with
  | nil => exact h
  | cons f fs ih => exact h.1.le.trans (ih h.2)

theorem of_le (h : Climbs p fs q) (hp : r ≤ p) : Climbs r fs q := by
  cases fs with
  | nil => exact hp.trans h
  | cons f fs => exact ⟨hp.trans_lt h.1, h.2⟩

theorem append (h : Climbs p fs q) (h' : Climbs q gs r) : Climbs p (fs ++ gs) r := by
  induction fs generalizing p with
  | nil => exact h'.of_le h
  | cons f fs ih => exact ⟨h.1, ih h.2⟩

theorem trans_le (h : Climbs p fs q) (hq : q ≤ r) : Climbs p fs r := by
  have hnil : Climbs q [] r := hq
  simpa using h.append hnil

theorem single (hp : p < f.2) (hq : f.2 ≤ q) : Climbs p [f] q :=
  ⟨hp, hq⟩

theorem lt_of_mem (h : Climbs p fs q) (hf : f ∈ fs) : p < f.2 := by
  induction fs generalizing p with
  | nil => cases hf
  | cons g fs ih =>
    rcases List.mem_cons.1 hf with rfl | hf
    · exact h.1
    · exact h.1.trans (ih h.2 hf)

/-- The first place is before all others. -/
theorem lt_of_mem_tail (h : Climbs p (f :: fs) q) {g : Misfit × Pos} (hg : g ∈ fs) : f.2 < g.2 :=
  h.2.lt_of_mem hg

end Climbs

section Flaws
variable {p q : Pos}

theorem climbs_flawsOfItems {items : List Node} {fm : Form}
    (ih : ∀ n ∈ items, ∀ p q, n.Spans p q → Climbs p (n.flaws fm) q)
    (h : Node.SpansItems items p q) : Climbs p (Node.flawsOfItems items fm) q := by
  induction items generalizing p with
  | nil => exact h.le
  | cons n ns ih' =>
    rw [List.forall_mem_cons] at ih
    obtain ⟨stop, hn, hns⟩ := h
    exact (ih.1 p stop hn).append (ih' ih.2 hns)

theorem climbs_flawsOfEntries {entries : List (Key × Node)} {members : List (Member Form)}
    (ih : ∀ e ∈ entries, ∀ fm p q, e.2.Spans p q → Climbs p (e.2.flaws fm) q)
    (h : Node.SpansEntries entries p q) (seen : List String) :
    Climbs p (Node.flawsOfEntries entries members seen) q := by
  induction entries generalizing p seen with
  | nil => exact h.le
  | cons e es ih' =>
    obtain ⟨k, n⟩ := e
    rw [List.forall_mem_cons] at ih
    obtain ⟨hkey, stop, hn, hes⟩ := h
    rw [Node.flawsOfEntries]
    cases Form.member? members k.text.toOption with
    | none => exact (ih' ih.2 hes seen).of_le (hkey.le.trans (ih.1 .text k.stop stop hn).le)
    | some s =>
      have hrest := (ih.1 s.form k.stop stop hn).append (ih' ih.2 hes (s.name :: seen))
      refine Climbs.append (q := k.stop) ?_ hrest
      split
      · exact .single hkey le_rfl
      · exact hkey.le

theorem climbs_flawsOfEnding {members : List (Member Form)} {names : List String} (h : p < q) :
    Climbs p (Node.flawsOfEnding members names (.closed q)) q := by
  rw [Node.flawsOfEnding]
  cases Form.lacking? members names with
  | none => exact h.le
  | some s => exact .single h le_rfl

/-- The flaws of a value that stands in order come in the order of their places. -/
theorem climbs_flaws (n : Node) (fm : Form) (h : n.Spans p q) : Climbs p (n.flaws fm) q := by
  induction n using Node.inductOn generalizing fm p q with
  | scalar start stop value =>
    obtain ⟨hlt, rfl⟩ := h
    cases value with
    | error e => exact hlt.le
    | ok s =>
      rw [Node.flaws]
      split
      · exact hlt.le
      · exact .single hlt le_rfl
  | list start items ending ih =>
    obtain ⟨hstart, last, hitems, hlast, rfl⟩ := h
    cases fm with
    | list element =>
      have hflaws := climbs_flawsOfItems (fun n hn p q h => ih n hn element h) hitems
      exact (hflaws.trans_le hlast.le).of_le hstart.le
    | text | flag | record r members =>
      have hle : start ≤ last := (climbs_flawsOfItems (fun n hn p q h => ih n hn .text h) hitems).le
      exact .single hstart (hle.trans hlast.le)
  | map start entries ending ih =>
    obtain ⟨hstart, last, hentries, hlast, rfl⟩ := h
    have hflaws (members : List (Member Form)) : Climbs start (Node.flawsOfEntries entries members []) last :=
      climbs_flawsOfEntries (fun e he fm p q h => ih e he fm h) hentries []
    cases fm with
    | record r members => exact ((hflaws members).append (climbs_flawsOfEnding hlast)).of_le hstart.le
    | text | flag | list element => exact .single hstart ((hflaws []).le.trans hlast.le)
  | broken start wanted skipped => exact h.elim

end Flaws

end SiteNav.Json
