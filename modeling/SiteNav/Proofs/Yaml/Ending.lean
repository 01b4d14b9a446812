import Mathlib.Data.List.ModifyLast
import SiteNav.Proofs.Yaml.Tree

/-!
# The end of a written site

A written site ends in a line feed unless the link of its last item is a literal block that ends in
another break. One more line feed then makes no difference if that break stands alone, since only the
first of the breaks at the end is kept. Where more breaks stand at the end all of them are kept, so the
line feed becomes part of the link.
-/
namespace SiteNav.Yaml
open Document
open Written (endsIn endLine isPrintable)

/-- The link of the last item of the last group: nothing comes after it. -/
def lastLink? (s : Site) : Option String :=
  s.sidebar.getLast?.bind fun g => g.items.getLast?.map (·.link)

theorem exists_of_lastLink? {s : Site} {link : String} (h : lastLink? s = some link) :
    ∃ groups g items it, s.sidebar = groups ++ [g] ∧ g.items = items ++ [it] ∧ it.link = link := by
  obtain ⟨g, hg, hlink⟩ := Option.bind_eq_some_iff.1 h
  obtain ⟨it, hit, hlink⟩ := Option.map_eq_some_iff.1 hlink
  obtain ⟨groups, hgroups⟩ := List.getLast?_eq_some_iff.1 hg
  obtain ⟨items, hitems⟩ := List.getLast?_eq_some_iff.1 hit
  exact ⟨groups, g, items, it, hgroups, hitems, hlink⟩

/-- A text is written as a literal block and ends in these characters, the last one first, of which the
last one is a break but no line feed. -/
structure EndsOddly (s : String) (c d : Char) : Prop where
  literal : Written.style s = .literal
  ends : ∃ cs, s.toList = cs ++ [d, c]
  isBreak : Written.isBreak c = true
  ne_newline : c ≠ '\n'

section LastCharacter
variable {s : String}

def endsInLine (cs : List Char) : Bool :=
  endsIn (· == '\n') cs

theorem endsInLine_iff {cs : List Char} : endsInLine cs = true ↔ cs.getLast? = some '\n' := by
  rw [endsInLine, endsIn]
  cases cs.getLast? <;> simp

theorem endsOddly_of_endsIn (hstyle : Written.style s = .literal)
    (hbreak : endsIn Written.isBreak s.toList = true) (hline : endsInLine s.toList = false) :
    ∃ c d, EndsOddly s c d := by
  have hmem : '\n' ∈ s.toList := by
    dsimp only [Written.style] at hstyle
    split_ifs at hstyle with hcontains
    exact List.contains_iff_mem.1 hcontains
  rcases List.eq_nil_or_concat s.toList with hnil | ⟨front, c, hfront⟩
  · rw [hnil] at hmem
    cases hmem
  · rw [hfront] at hmem hbreak hline
    have hc : c ≠ '\n' := by simpa [endsInLine, endsIn] using hline
    rcases List.eq_nil_or_concat front with hnil | ⟨cs, d, hcs⟩
    · rw [hnil] at hmem
      exact absurd (List.mem_singleton.1 hmem) hc.symm
    · refine ⟨c, d, hstyle, ⟨cs, ?_⟩, by simpa [endsIn] using hbreak, hc⟩
      rw [hfront, hcs]
      simp

theorem EndsOddly.endsIn_isBreak {c d : Char} (h : EndsOddly s c d) :
    endsIn Written.isBreak s.toList = true := by
  obtain ⟨cs, hcs⟩ := h.ends
  rw [hcs, endsIn_append _ (List.cons_ne_nil _ _)]
  exact h.isBreak

theorem EndsOddly.endsInLine_eq_false {c d : Char} (h : EndsOddly s c d) :
    endsInLine s.toList = false := by
  obtain ⟨cs, hcs⟩ := h.ends
  rw [hcs, endsInLine, endsIn_append _ (List.cons_ne_nil _ _)]
  simpa [endsIn] using h.ne_newline

theorem endsInLine_of_eq {cs : List Char} (front : List Char) (h : cs = front ++ ['\n']) :
    endsInLine cs = true := by
  simp [h, endsInLine, endsIn]

theorem endsInLine_entry (lead k : String) (indent : Nat) (s : String) :
    endsInLine (Written.entry lead k indent s) =
      endsInLine (endLine (' ' :: Written.scalar indent s)) := by
  obtain ⟨ending, hending⟩ := exists_endLine_eq (' ' :: Written.scalar indent s)
  have hne : endLine (' ' :: Written.scalar indent s) ≠ [] := by
    rw [hending]
    exact List.cons_ne_nil _ _
  rw [entry_eq, endsInLine, ← List.append_assoc, List.append_cons, endsIn_append _ hne, endsInLine]

theorem endsInLine_literal (indent : Nat) (h : Written.style s = .literal) :
    endsInLine (endLine (' ' :: Written.scalar indent s)) =
      (!endsIn Written.isBreak s.toList || endsInLine s.toList) := by
  have hsuits := suits_style s
  have hliteral : LiteralText s.toList := by rwa [h] at hsuits
  rw [Written.scalar, h]
  dsimp only
  rw [endLine_literal indent hliteral.ne_nil]
  cases endsIn Written.isBreak s.toList with
  | false =>
    exact endsInLine_of_eq (' ' :: (Written.literalHeader s.toList ++
      '\n' :: Written.literalFrom indent true s.toList)) (by simp)
  | true =>
    obtain ⟨hne, hends⟩ := endsIn_literalFrom indent true hliteral.ne_nil (p := (· == '\n'))
    rw [if_pos rfl, List.append_nil, ← List.cons_append, List.append_cons, endsInLine,
      endsIn_append _ hne, hends]
    rfl

/-- The line of an entry ends in a line feed unless its text ends oddly. -/
theorem endsInLine_entry_iff (lead k : String) (indent : Nat) (s : String) :
    endsInLine (Written.entry lead k indent s) = false ↔ ∃ c d, EndsOddly s c d := by
  have hnone (h : Written.style s ≠ .literal) : ¬∃ c d, EndsOddly s c d := by
    rintro ⟨_, _, hodd⟩
    exact h hodd.literal
  have hsuits := suits_style s
  rw [endsInLine_entry]
  cases hstyle : Written.style s with
  | plain =>
    have hplain : PlainText s.toList := by rwa [hstyle] at hsuits
    rw [Written.scalar, hstyle, endLine_plain hplain, endsInLine_of_eq _ (List.cons_append ..).symm]
    exact iff_of_false Bool.noConfusion (hnone (by simp [hstyle]))
  | single =>
    have hline : endsInLine (endLine (' ' :: Written.scalar indent s)) = true := by
      rw [Written.scalar, hstyle, endLine_single]
      exact endsInLine_of_eq (' ' :: '\'' :: Written.singleFrom indent false s.toList) rfl
    rw [hline]
    exact iff_of_false Bool.noConfusion (hnone (by simp [hstyle]))
  | double =>
    rw [Written.scalar, hstyle, endLine_double,
      endsInLine_of_eq (' ' :: '"' :: (s.toList.flatMap Written.escape ++ ['"'])) (by simp)]
    exact iff_of_false Bool.noConfusion (hnone (by simp [hstyle]))
  | literal =>
    rw [endsInLine_literal indent hstyle, Bool.or_eq_false_iff, Bool.not_eq_false']
    constructor
    · rintro ⟨hbreak, hline⟩
      exact endsOddly_of_endsIn hstyle hbreak hline
    · rintro ⟨_, _, hodd⟩
      exact ⟨hodd.endsIn_isBreak, hodd.endsInLine_eq_false⟩

theorem endsInLine_listEntry_nil (lead k : String) : endsInLine (Written.listEntry lead k []) = true := by
  rw [Written.listEntry, endsInLine, List.isEmpty_nil, if_pos rfl, endsIn_append _ (by decide)]
  decide

theorem endsInLine_listEntry_concat (lead k : String) (items : List (List Char)) {item : List Char}
    (hne : item ≠ []) : endsInLine (Written.listEntry lead k (items ++ [item])) = endsInLine item := by
  have hsome : (items ++ [item]).isEmpty = false := by simp
  rw [Written.listEntry, endsInLine, endsInLine, hsome, if_neg (by simp), List.flatten_append,
    List.flatten_singleton, ← List.append_assoc, ← List.append_assoc, endsIn_append _ hne]

theorem entry_ne_nil (lead k : String) (indent : Nat) (s : String) :
    Written.entry lead k indent s ≠ [] := by
  rw [entry_eq]
  simp

theorem listEntry_ne_nil (lead k : String) (items : List (List Char)) :
    Written.listEntry lead k items ≠ [] := by
  rw [Written.listEntry]
  cases items with
  | nil => simp
  | cons _ _ => simp

/-- A written site ends in a line feed unless its last link ends oddly. -/
theorem endsInLine_site_iff (s : Site) : endsInLine (Written.site s) = false ↔
    ∃ link c d, lastLink? s = some link ∧ EndsOddly link c d := by
  have hsite : endsInLine (Written.site s) =
      endsInLine (Written.listEntry "" "sidebar" (s.sidebar.map Written.group)) :=
    endsIn_append _ (listEntry_ne_nil _ _ _)
  rw [hsite]
  rcases List.eq_nil_or_concat s.sidebar with hnil | ⟨groups, g, hgroups⟩
  · rw [hnil, List.map_nil, endsInLine_listEntry_nil]
    exact iff_of_false Bool.noConfusion (by simp [lastLink?, hnil])
  have hgroup : endsInLine (Written.group g) =
      endsInLine (Written.listEntry "  " "items" (g.items.map Written.item)) :=
    endsIn_append _ (listEntry_ne_nil _ _ _)
  have hne : Written.group g ≠ [] := List.append_ne_nil_of_right_ne_nil _ (listEntry_ne_nil _ _ _)
  rw [hgroups, List.concat_eq_append, List.map_append, List.map_singleton,
    endsInLine_listEntry_concat _ _ _ hne, hgroup]
  rcases List.eq_nil_or_concat g.items with hnil | ⟨items, it, hitems⟩
  · rw [hnil, List.map_nil, endsInLine_listEntry_nil]
    exact iff_of_false Bool.noConfusion (by simp [lastLink?, hgroups, hnil])
  have hitem : endsInLine (Written.item it) = endsInLine (Written.entry "    " "link" 6 it.link) :=
    endsIn_append _ (entry_ne_nil _ _ _ _)
  have hne : Written.item it ≠ [] := List.append_ne_nil_of_right_ne_nil _ (entry_ne_nil _ _ _ _)
  have hlink : lastLink? s = some it.link := by simp [lastLink?, hgroups, hitems]
  rw [hitems, List.concat_eq_append, List.map_append, List.map_singleton,
    endsInLine_listEntry_concat _ _ _ hne, hitem, endsInLine_entry_iff, hlink]
  constructor
  · rintro ⟨c, d, hodd⟩
    exact ⟨it.link, c, d, rfl, hodd⟩
  · rintro ⟨_, c, d, hsome, hodd⟩
    obtain rfl := Option.some.inj hsome
    exact ⟨c, d, hodd⟩

end LastCharacter

section SingleBreak
variable {indents is : List Nat} {m : Mark} {later : List Lexeme} {link : String} {c d : Char}

/-- Behind a text that ends oddly in a single break, a line feed at the end of the document counts as
nothing. -/
theorem Reads.oddText (column : Nat) (hodd : EndsOddly link c d) (hd : Written.isBreak d = false)
    (hcolumn : column ≤ m.column)
    (h : ∀ line, Reads true (column :: indents) (Tail.ofLine line []) later) :
    Reads false (column :: indents)
      ⟨m, endLine (' ' :: Written.scalar (column + 2) link) ++ ['\n']⟩
      (Lexeme.ofText link :: later) := by
  have hself : String.ofList link.toList = link := String.ofList_toList
  have hends := hodd.endsIn_isBreak
  have hsuits := suits_style link
  obtain ⟨hstyle, ⟨cs, hcs⟩, hc, -⟩ := hodd
  have hliteral : LiteralText link.toList := by rwa [hstyle] at hsuits
  have hsame : ∀ x ∈ [d, c], isBreak x = Written.isBreak x := fun x hx =>
    (isBreak_eq_of_isPrintable
      (hliteral.isPrintable x (by rw [hcs]; exact List.mem_append_right _ hx))).symm
  have hreverse : link.toList.reverse = c :: d :: cs.reverse := by simp [hcs]
  have hread := Reads.literal_newline hliteral hreverse ((hsame c (by simp)).trans hc)
    ((hsame d (by simp)).trans hd) hcolumn (.inl rfl) h
  rw [hself] at hread
  rw [Written.scalar, Lexeme.ofText, hstyle]
  dsimp only
  rw [endLine_literal _ hliteral.ne_nil, hends, if_pos rfl, List.append_nil]
  simpa [Written.Style.found] using hread

theorem lines_oddItem {it : Item} (hodd : EndsOddly it.link c d) (hd : Written.isBreak d = false)
    (h : Lines 2 (2 :: is) [] later) : Lines 2 (2 :: is) (Written.item it ++ ['\n'])
      (.dash :: (Lexeme.ofContent false (.ofItem it) ++ later)) := by
  have htext : IsKey "text" := by decide
  have hlink : IsKey "link" := by decide
  have hend : Lines 4 (4 :: 2 :: is) [] (.blockEnd :: later) :=
    (h.endBlock (by decide)).mono (by decide)
  have hlast : Lines 4 (4 :: 2 :: is) (Written.entry "    " "link" 6 it.link ++ ['\n'])
      (.key :: .scalar .plain "link" :: .value :: .ofText it.link :: .blockEnd :: later) := by
    rw [entry_eq, List.append_assoc, List.append_assoc]
    refine Lines.of_key hlink rfl fun line => Reads.key hlink (.inside _) ?_ ?_
    · obtain ⟨ending, hending⟩ := exists_endLine_eq (' ' :: Written.scalar 6 it.link)
      rw [hending]
      rfl
    · exact Reads.oddText 4 hodd hd (Nat.le_add_right_of_le (Nat.le_add_right _ _)) hend.reads
  have hread := Lines.dashTextEntry "  - " htext rfl it.text hlast
  rw [Written.item, List.append_assoc]
  exact hread

theorem ofItems_concat (cs : List Content) (c : Content) :
    Lexeme.ofItems (cs ++ [c]) = Lexeme.ofItems cs ++ .dash :: Lexeme.ofContent false c := by
  induction cs with
  | nil => simp [Lexeme.ofItems]
  | cons x cs ih => simp [Lexeme.ofItems, ih]

/-- By its last item the last group, and by that the whole sidebar is read. -/
theorem reads_site_newline {s : Site} (hlink : lastLink? s = some link) (hodd : EndsOddly link c d)
    (hd : Written.isBreak d = false) : Reads true [] ⟨.start, Written.site s ++ ['\n']⟩
      (Lexeme.ofContent false (.ofSite s) ++ [.streamEnd]) := by
  have hitems : IsKey "items" := by decide
  have hsidebar : IsKey "sidebar" := by decide
  obtain ⟨groups, g, items, it, hgroups, hlist, rfl⟩ := exists_of_lastLink? hlink
  have hend : Lines 2 [2, 0] [] [.blockEnd, .blockEnd, .streamEnd] :=
    (lines_end.endBlock (by decide)).mono (by decide)
  have hlast : Lines 0 [0] (Written.group g ++ ['\n'])
      (.dash :: (Lexeme.ofContent false (.ofGroup g) ++ [.blockEnd, .streamEnd])) := by
    refine Lines.group (Lines.listEntry_of_elements "  " hitems rfl (by simp [hlist]) ?_)
    have helements := Lines.elements writesElements_item (lines_oddItem hodd hd hend) items
    simpa [hlist, ofItems_concat] using helements
  refine reads_site_of_sidebar (Lines.listEntry_of_elements "" hsidebar rfl (by simp [hgroups]) ?_)
  have helements := Lines.elements writesElements_group hlast groups
  simpa [hgroups, ofItems_concat] using helements

end SingleBreak

section MoreBreaks
variable {c d : Char}

/-- A text that ends oddly in more than one break. -/
structure EndsOpen (link : String) (c d : Char) : Prop extends EndsOddly link c d where
  isBreak_before : Written.isBreak d = true

theorem literalFrom_newline (indent : Nat) (broken : Bool) (cs : List Char) :
    Written.literalFrom indent broken (cs ++ ['\n']) =
      Written.literalFrom indent broken cs ++ ['\n'] := by
  induction cs generalizing broken with
  | nil => rfl
  | cons x cs ih =>
    rw [List.cons_append, Written.literalFrom, Written.literalFrom]
    split
    · rw [ih, List.cons_append]
    · rw [ih, List.append_assoc, List.cons_append]

theorem adjacent_concat (p q : Char → Bool) (cs : List Char) (a b : Char) :
    Written.adjacent p q (cs ++ [a, b]) = (Written.adjacent p q (cs ++ [a]) || (p a && q b)) := by
  induction cs with
  | nil => simp [Written.adjacent]
  | cons x cs ih =>
    cases cs with
    | nil => simp [Written.adjacent]
    | cons y cs =>
      simp only [List.cons_append, Written.adjacent] at ih ⊢
      rw [ih, Bool.or_assoc]

theorem style_newline {link : String} (h : EndsOddly link c d) :
    Written.style (link ++ "\n") = .literal := by
  obtain ⟨hstyle, ⟨cs, hcs⟩, hc, -⟩ := h
  have hspace : (c == ' ') = false := by
    rw [beq_eq_false_iff_ne]
    rintro rfl
    exact absurd hc (by decide)
  have hlist : (link ++ "\n").toList = link.toList ++ ['\n'] := String.toList_append
  have hliteral : Written.canBeLiteral link.toList = true := by
    dsimp only [Written.style] at hstyle
    split_ifs at hstyle with _ hliteral
    exact hliteral
  simp only [Written.canBeLiteral, Bool.and_eq_true, Bool.not_eq_true'] at hliteral
  obtain ⟨⟨⟨_, hprintable⟩, hbreaks⟩, _⟩ := hliteral
  have hprintable' : Written.hasUnprintable (link.toList ++ ['\n']) = false := by
    rw [Written.hasUnprintable, List.any_append]
    exact Bool.or_eq_false_iff.2 ⟨hprintable, rfl⟩
  have hbreaks' : Written.spaceBeforeBreak (link.toList ++ ['\n']) = false := by
    have hlast : link.toList ++ ['\n'] = (cs ++ [d]) ++ [c, '\n'] := by simp [hcs]
    have hfront : (cs ++ [d]) ++ [c] = link.toList := by simp [hcs]
    rw [hlast, Written.spaceBeforeBreak, adjacent_concat, hfront, hspace, Bool.false_and, Bool.or_false]
    exact hbreaks
  have hends : endsIn (· == ' ') (link.toList ++ ['\n']) = false := by
    rw [endsIn_append _ (List.cons_ne_nil _ _)]
    rfl
  have hcontains : (link.toList ++ ['\n']).contains '\n' = true := by simp
  rw [Written.style, hlist, if_pos hcontains, if_pos]
  simp [Written.canBeLiteral, hprintable', hbreaks', hends]

/-- Where a text ends open, the line feed after it is that of the text with one more line feed. -/
theorem entry_newline {link : String} (h : EndsOpen link c d) (lead k : String) (indent : Nat) :
    Written.entry lead k indent (link ++ "\n") = Written.entry lead k indent link ++ ['\n'] := by
  have hsuits := suits_style link
  have hstyle' := style_newline h.toEndsOddly
  have hends := h.endsIn_isBreak
  obtain ⟨⟨hstyle, ⟨cs, hcs⟩, hc, -⟩, hd⟩ := h
  have hliteral : LiteralText link.toList := by rwa [hstyle] at hsuits
  have hlist : (link ++ "\n").toList = link.toList ++ ['\n'] := String.toList_append
  have hheader : Written.literalHeader (link.toList ++ ['\n']) = Written.literalHeader link.toList := by
    have hgap : Written.beforeGap (link.toList ++ ['\n']) = Written.beforeGap link.toList := by
      obtain ⟨x, xs, hxs⟩ := List.exists_cons_of_ne_nil hliteral.ne_nil
      rw [hxs]
      rfl
    have hline : Written.isBreak '\n' = true := rfl
    rw [Written.literalHeader, Written.literalHeader, hgap, List.reverse_append, hcs]
    simp [hc, hd, hline]
  have hends' : endsIn Written.isBreak (link.toList ++ ['\n']) = true := by
    rw [endsIn_append _ (List.cons_ne_nil _ _)]
    rfl
  rw [entry_eq, entry_eq, Written.scalar, Written.scalar, hstyle, hstyle', hlist]
  dsimp only
  rw [endLine_literal _ hliteral.ne_nil, endLine_literal _ (by simp), hends, hends', hheader,
    literalFrom_newline]
  simp

/-- The site with one more line feed at the end of its last link. -/
def lengthened (s : Site) : Site :=
  { s with sidebar := s.sidebar.modifyLast fun g =>
      { g with items := g.items.modifyLast fun it => { it with link := it.link ++ "\n" } } }

theorem lastLink?_lengthened {s : Site} {link : String} (hlink : lastLink? s = some link) :
    lastLink? (lengthened s) = some (link ++ "\n") := by
  obtain ⟨groups, g, items, it, hgroups, hitems, rfl⟩ := exists_of_lastLink? hlink
  simp [lastLink?, lengthened, hgroups, hitems, List.modifyLast_concat]

/-- A line feed after the written site is taken for a part of its last link. -/
def TakesLine (s : Site) : Prop :=
  ∃ link c d, lastLink? s = some link ∧ EndsOpen link c d

namespace TakesLine
variable {s : Site} (h : TakesLine s)
include h

theorem endsInLine_eq_false : endsInLine (Written.site s) = false :=
  let ⟨link, c, d, hlink, hopen⟩ := h
  (endsInLine_site_iff s).2 ⟨link, c, d, hlink, hopen.toEndsOddly⟩

theorem site_lengthened : Written.site (lengthened s) = Written.site s ++ ['\n'] := by
  obtain ⟨link, c, d, hlink, hopen⟩ := h
  obtain ⟨groups, g, items, it, hgroups, hitems, rfl⟩ := exists_of_lastLink? hlink
  simp only [Written.site, lengthened, hgroups, hitems, List.modifyLast_concat, List.map_append,
    List.map_singleton, Written.listEntry, Written.group, Written.item, entry_newline hopen]
  simp

theorem lengthened_ne : lengthened s ≠ s := by
  obtain ⟨link, c, d, hlink, -⟩ := h
  intro heq
  have hlonger := lastLink?_lengthened hlink
  rw [heq, hlink] at hlonger
  have hlength := congrArg String.length (Option.some.inj hlonger)
  simp at hlength

end TakesLine

/-- Any other site is read from what is written for it with a line feed after it too. -/
theorem exists_tree_newline {s : Site} (hline : endsInLine (Written.site s) = false)
    (h : ¬TakesLine s) : ∃ t, tree? (Written.site s ++ ['\n']) = some t ∧
      t.dialect.Shows t.root (.ofSite s) := by
  obtain ⟨link, c, d, hlink, hodd⟩ := (endsInLine_site_iff s).1 hline
  have hd : Written.isBreak d = false := by
    rw [← Bool.not_eq_true]
    exact fun hd => h ⟨link, c, d, hlink, hodd, hd⟩
  have hprintable : ∀ x ∈ Written.site s ++ ['\n'], Written.isPrintable x = true := by
    simpa [or_imp, forall_and] using ⟨isPrintable_site s, by decide⟩
  obtain ⟨t, hread, hspells⟩ := exists_tree_of_reads hprintable (reads_site_newline hlink hodd hd)
  exact ⟨t, hread, hspells.shows t _⟩

end MoreBreaks

end SiteNav.Yaml
