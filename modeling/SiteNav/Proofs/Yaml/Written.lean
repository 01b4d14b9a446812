import SiteNav.Document.Content
import SiteNav.Proofs.Yaml.Outline
import SiteNav.Proofs.Yaml.Style

/-!
# Tokens of a written site

A content gives tokens by its shape: a scalar one, a map a key and a value for each of its entries, a
list a dash before each of its elements. What is written for a site is read line by line as the tokens
of its content; a map behind a dash ends at the next line that is indented less.
-/
namespace SiteNav.Yaml
open Document
open Written (spaces isPrintable endsIn endLine)

/-- The style in which a written scalar is found. -/
def Written.Style.found : Written.Style → Yaml.Style
  | plain => .plain
  | single => .single
  | double => .double
  | literal => .literal

namespace Lexeme

def ofText (s : String) : Lexeme :=
  .scalar (Written.style s).found s

def ofFlag (b : Bool) : Lexeme :=
  .scalar .plain (if b then "true" else "false")

mutual

/-- Lists without elements stand in brackets; `dashes` tells that others need no block of their own. -/
def ofContent (dashes : Bool) : Content → List Lexeme
  | .flag b => [ofFlag b]
  | .text s => [ofText s]
  | .list cs =>
    if cs.isEmpty then [flowList, flowListEnd]
    else if dashes then ofItems cs
    else blockList :: (ofItems cs ++ [blockEnd])
  | .map es => blockMap :: (ofEntries es ++ [blockEnd])

def ofItems : List Content → List Lexeme
  | [] => []
  | c :: cs => dash :: (ofContent false c ++ ofItems cs)

def ofEntries : List (String × Content) → List Lexeme
  | [] => []
  | (k, c) :: es => key :: scalar .plain k :: value :: (ofContent true c ++ ofEntries es)

end

end Lexeme

section Texts
variable {s : String} {c : Char} {cs : List Char}

theorem endsIn_append {p : Char → Bool} (as : List Char) (hcs : cs ≠ []) :
    endsIn p (as ++ cs) = endsIn p cs := by
  obtain ⟨c, hlast⟩ := Option.isSome_iff_exists.1 (List.getLast?_isSome.2 hcs)
  rw [endsIn, endsIn, List.getLast?_append, hlast, Option.some_or]

theorem endsIn_eq_false {p : Char → Bool} (h : ∀ c ∈ cs, p c = false) : endsIn p cs = false := by
  rw [endsIn]
  cases hlast : cs.getLast? with
  | none => rfl
  | some c => exact h c (List.mem_of_getLast? hlast)

theorem endLine_append (as : List Char) (hcs : cs ≠ []) :
    endLine (as ++ cs) = as ++ endLine cs := by
  rw [endLine, endLine, endsIn_append as hcs]
  split
  · rfl
  · rw [List.append_assoc]

theorem exists_endLine_eq (cs : List Char) : ∃ ending, endLine cs = cs ++ ending := by
  rw [endLine]
  split
  · exact ⟨[], (List.append_nil cs).symm⟩
  · exact ⟨['\n'], rfl⟩

theorem endLine_concat (cs : List Char) (hc : Written.isBreak c = false) :
    endLine (cs ++ [c]) = cs ++ [c, '\n'] := by
  have hends : endsIn Written.isBreak (cs ++ [c]) = false := by
    rw [endsIn_append cs (by simp)]
    simpa [endsIn] using hc
  rw [endLine, hends, if_neg (by simp), List.append_assoc]
  rfl

theorem exists_singleFrom_eq (indent : Nat) (broken : Bool) (cs : List Char) :
    ∃ body, Written.singleFrom indent broken cs = body ++ ['\''] := by
  induction cs generalizing broken with
  | nil => exact ⟨_, rfl⟩
  | cons c cs ih =>
    rw [Written.singleFrom]
    split
    · obtain ⟨body, hbody⟩ := ih true
      exact ⟨c :: body, by rw [hbody]; rfl⟩
    · obtain ⟨body, hbody⟩ := ih false
      exact ⟨_, by rw [hbody, ← List.append_assoc]⟩

theorem endsIn_literalFrom (indent : Nat) (broken : Bool) (hcs : cs ≠ []) {p : Char → Bool} :
    Written.literalFrom indent broken cs ≠ [] ∧
      endsIn p (Written.literalFrom indent broken cs) = endsIn p cs := by
  induction cs generalizing broken with
  | nil => exact absurd rfl hcs
  | cons c cs ih =>
    have hwritten : ∃ pad, Written.literalFrom indent broken (c :: cs) =
        pad ++ c :: Written.literalFrom indent (Written.isBreak c) cs := by
      rw [Written.literalFrom]
      split
      · next hc => exact ⟨[], by rw [hc]; rfl⟩
      · next hc => exact ⟨_, by rw [Bool.eq_false_iff.2 hc]⟩
    obtain ⟨pad, hpad⟩ := hwritten
    rw [hpad]
    refine ⟨by simp, ?_⟩
    rw [endsIn_append pad (by simp)]
    cases cs with
    | nil => rfl
    | cons d ds =>
      obtain ⟨hne, hends⟩ := ih (Written.isBreak c) (by simp)
      have hlater : endsIn p ([c] ++ d :: ds) = endsIn p (d :: ds) := endsIn_append [c] (by simp)
      rw [← List.singleton_append, endsIn_append [c] hne, hends]
      exact hlater.symm

theorem endLine_plain (h : PlainText cs) : endLine (' ' :: cs) = ' ' :: (cs ++ ['\n']) := by
  have hends : endsIn Written.isBreak (' ' :: cs) = false := endsIn_eq_false fun c hc => by
    rcases List.mem_cons.1 hc with rfl | hc
    · rfl
    · rw [isBreak_eq_of_isPrintable (h.isPrintable c hc)]
      exact h.isBreak c hc
  rw [endLine, hends, if_neg (by simp)]
  rfl

theorem endLine_single (indent : Nat) (cs : List Char) :
    endLine (' ' :: '\'' :: Written.singleFrom indent false cs) =
      ' ' :: '\'' :: (Written.singleFrom indent false cs ++ ['\n']) := by
  obtain ⟨body, hbody⟩ := exists_singleFrom_eq indent false cs
  have hwritten := endLine_concat (' ' :: '\'' :: body) (c := '\'') rfl
  rw [hbody, ← List.cons_append, ← List.cons_append, hwritten]
  simp

theorem endLine_double (cs : List Char) : endLine (' ' :: '"' :: (cs ++ ['"'])) =
    ' ' :: '"' :: (cs ++ ['"', '\n']) := by
  have hwritten := endLine_concat (' ' :: '"' :: cs) (c := '"') rfl
  rw [← List.cons_append, ← List.cons_append, hwritten]
  rfl

/-- A literal block ends in the break that ends its text, if there is one. -/
theorem endLine_literal (indent : Nat) (hcs : cs ≠ []) :
    endLine (' ' :: (Written.literalHeader cs ++ '\n' :: Written.literalFrom indent true cs)) =
      ' ' :: (Written.literalHeader cs ++ '\n' :: (Written.literalFrom indent true cs ++
        (if endsIn Written.isBreak cs then [] else ['\n']))) := by
  obtain ⟨hne, hends⟩ := endsIn_literalFrom indent true hcs (p := Written.isBreak)
  have hbody : endLine (Written.literalFrom indent true cs) = Written.literalFrom indent true cs ++
      (if endsIn Written.isBreak cs then [] else ['\n']) := by
    rw [endLine, hends]
    split
    · rw [List.append_nil]
    · rfl
  have hline := endLine_append (' ' :: (Written.literalHeader cs ++ ['\n'])) hne
  rw [hbody] at hline
  simpa using hline

/-- The rest of an entry behind its colon. -/
theorem Reads.text {column : Nat} {indents : List Nat} {m : Mark} {rest : List Char}
    {later : List Lexeme} (s : String) (hcolumn : column ≤ m.column) (hrest : Follows column rest)
    (h : ∀ line, Reads true (column :: indents) (Tail.ofLine line rest) later) :
    Reads false (column :: indents) ⟨m, endLine (' ' :: Written.scalar (column + 2) s) ++ rest⟩
      (Lexeme.ofText s :: later) := by
  have hself : String.ofList s.toList = s := String.ofList_toList
  have hsuits := suits_style s
  rw [Written.scalar, Lexeme.ofText]
  cases hstyle : Written.style s with
  | plain =>
    have hplain : PlainText s.toList := by rwa [hstyle] at hsuits
    have hread := Reads.plain hplain hcolumn hrest h
    rw [hself] at hread
    simpa [endLine_plain hplain, Written.Style.found] using hread
  | single =>
    have hsingle : SingleText s.toList := by rwa [hstyle] at hsuits
    have hindent : 0 < column + 2 := Nat.succ_pos _
    have hread := Reads.single hindent hsingle hcolumn hrest h
    rw [hself] at hread
    simpa [endLine_single, Written.Style.found] using hread
  | double =>
    have hread := Reads.double s.toList hcolumn hrest h
    rw [hself] at hread
    simpa [endLine_double, Written.Style.found] using hread
  | literal =>
    have hliteral : LiteralText s.toList := by rwa [hstyle] at hsuits
    have hread := Reads.literal hliteral hcolumn hrest h
    rw [hself] at hread
    simpa [endLine_literal (column + 2) hliteral.ne_nil, Written.Style.found] using hread

end Texts

/-- These lines are read as these lexemes, whatever comes before them; the first is indented by at
most `column`. -/
structure Lines (column : Nat) (indents : List Nat) (rest : List Char) (later : List Lexeme) :
    Prop where
  follows : Follows column rest
  reads : ∀ line, Reads true indents (Tail.ofLine line rest) later

namespace Lines
variable {column : Nat} {indents : List Nat} {rest : List Char} {later : List Lexeme}

theorem mono {column' : Nat} (h : Lines column indents rest later) (hle : column ≤ column') :
    Lines column' indents rest later := by
  refine ⟨?_, h.reads⟩
  rcases h.follows with hnil | ⟨n, c, cs, hn, hrest, hc⟩
  · exact .inl hnil
  · exact .inr ⟨n, c, cs, Nat.le_trans hn hle, hrest, hc⟩

theorem of_spaces {c : Char} {cs : List Char} (hc : StartsWord c)
    (h : ∀ line, Reads true indents ⟨⟨line, column⟩, c :: cs⟩ later) :
    Lines column indents (spaces column ++ c :: cs) later := by
  refine ⟨.inr ⟨column, c, cs, Nat.le_refl _, rfl, hc⟩, fun line => ?_⟩
  rw [Tail.ofLine_spaces _ _ hc.ne_space]
  exact h line

theorem endBlock {i : Nat} (h : Lines column indents rest later) (hless : column < i) :
    Lines column (i :: indents) rest (.blockEnd :: later) := by
  refine ⟨h.follows, fun line => (h.reads line).endBlock (h.follows.atWord line) ?_⟩
  exact Nat.lt_of_le_of_lt (h.follows.column_ofLine_le line) hless

end Lines

section Entries
variable {column : Nat} {indents is : List Nat} {m : Mark} {rest : List Char} {xs later : List Lexeme}
  {k lead : String}

theorem entry_eq (lead k : String) (indent : Nat) (s : String) :
    Written.entry lead k indent s =
      lead.toList ++ (k.toList ++ ':' :: endLine (' ' :: Written.scalar indent s)) := by
  have hne : ' ' :: Written.scalar indent s ≠ [] := List.cons_ne_nil _ _
  have hline := endLine_append (lead.toList ++ k.toList ++ [':']) hne
  rw [Written.entry]
  simpa using hline

theorem Reads.textEntry (hk : IsKey k) (s : String)
    (hmap : EntersMap m.column indents (m.column :: is) xs)
    (h : Lines m.column (m.column :: is) rest later) :
    Reads true indents
      ⟨m, k.toList ++ ':' :: (endLine (' ' :: Written.scalar (m.column + 2) s) ++ rest)⟩
      (xs ++ .key :: .scalar .plain k :: .value :: .ofText s :: later) := by
  have hgap : atGap (endLine (' ' :: Written.scalar (m.column + 2) s) ++ rest) = true := by
    obtain ⟨ending, hending⟩ := exists_endLine_eq (' ' :: Written.scalar (m.column + 2) s)
    rw [hending]
    rfl
  exact Reads.key hk hmap hgap (Reads.text s (Nat.le_add_right_of_le (Nat.le_add_right _ _))
    h.follows h.reads)

theorem startsWord_key (hk : IsKey k) (cs : List Char) :
    ∃ d ds, k.toList ++ cs = d :: ds ∧ StartsWord d := by
  obtain ⟨d, ds, hds⟩ := List.exists_cons_of_ne_nil hk.ne_nil
  exact ⟨d, ds ++ cs, by rw [hds]; rfl, startsWord_of_isLetter (hk.letters d (by simp [hds]))⟩

theorem Lines.of_key {cs : List Char} (hk : IsKey k) (hlead : lead.toList = spaces column)
    (h : ∀ line, Reads true indents ⟨⟨line, column⟩, k.toList ++ cs⟩ later) :
    Lines column indents (lead.toList ++ (k.toList ++ cs)) later := by
  obtain ⟨d, ds, hds, hd⟩ := startsWord_key hk cs
  rw [hlead, hds]
  exact of_spaces hd fun line => hds ▸ h line

/-- The map that an element of a list is begins with a key behind the dash. -/
theorem Lines.of_dash_key {cs : List Char} (hk : IsKey k)
    (hlead : lead.toList = spaces column ++ ['-', ' '])
    (h : ∀ line, Reads true (column :: is) ⟨⟨line, column + 2⟩, k.toList ++ cs⟩ later) :
    Lines column (column :: is) (lead.toList ++ (k.toList ++ cs)) (.dash :: later) := by
  obtain ⟨d, ds, hds, hd⟩ := startsWord_key hk cs
  have hdash : StartsWord '-' := by decide
  rw [hlead, hds, List.append_assoc]
  exact of_spaces hdash fun line => Reads.dash hd (hds ▸ h line)

theorem Lines.textEntry (lead : String) (hk : IsKey k) (hlead : lead.toList = spaces column)
    (s : String) (h : Lines column (column :: is) rest later) :
    Lines column (column :: is) (Written.entry lead k (column + 2) s ++ rest)
      (.key :: .scalar .plain k :: .value :: .ofText s :: later) := by
  rw [entry_eq, List.append_assoc, List.append_assoc]
  exact of_key hk hlead fun line => Reads.textEntry (m := ⟨line, column⟩) hk s (.inside is) h

theorem Lines.dashTextEntry (lead : String) (hk : IsKey k)
    (hlead : lead.toList = spaces column ++ ['-', ' ']) (s : String)
    (h : Lines (column + 2) ((column + 2) :: column :: is) rest later) :
    Lines column (column :: is) (Written.entry lead k (column + 4) s ++ rest)
      (.dash :: .blockMap :: .key :: .scalar .plain k :: .value :: .ofText s :: later) := by
  have hfirst : EntersMap (column + 2) (column :: is) ((column + 2) :: column :: is) [.blockMap] :=
    .first _ (by simp)
  rw [entry_eq, List.append_assoc, List.append_assoc]
  exact of_dash_key hk hlead fun line => Reads.textEntry (m := ⟨line, column + 2⟩) hk s hfirst h

theorem Lines.flagEntry (b : Bool) (h : Lines 2 (2 :: is) rest later) :
    Lines 2 (2 :: is) (Written.collapsible b ++ rest)
      (.key :: .scalar .plain "collapsible" :: .value :: .ofFlag b :: later) := by
  have hk : IsKey "collapsible" := by decide
  obtain ⟨word, hword, hplain⟩ : ∃ word, (if b then "true" else "false") = word ∧
      PlainText word.toList := by
    cases b with
    | true => exact ⟨_, rfl, .of_canBePlain (by decide)⟩
    | false => exact ⟨_, rfl, .of_canBePlain (by decide)⟩
  have hwritten : Written.collapsible b ++ rest = "  ".toList ++ ("collapsible".toList ++
      ':' :: ' ' :: (word.toList ++ '\n' :: rest)) := by
    have hlead : "  collapsible: ".toList = "  ".toList ++ ("collapsible".toList ++ [':', ' ']) := by
      decide
    have hline : "\n".toList = ['\n'] := by decide
    rw [Written.collapsible, hword, String.toList_append, String.toList_append, hlead, hline]
    simp only [List.append_assoc, List.cons_append, List.nil_append]
  rw [hwritten, Lexeme.ofFlag, hword]
  refine of_key hk rfl fun line => Reads.key hk (.inside is) rfl ?_
  have hread := Reads.plain (m := ⟨line, 2 + "collapsible".toList.length + 1⟩) hplain
    (Nat.le_add_right_of_le (Nat.le_add_right 2 _)) h.follows h.reads
  rwa [String.ofList_toList] at hread

end Entries

section Lists
variable {α : Type} {column : Nat} {is : List Nat} {rest : List Char} {later : List Lexeme}
  {write : α → List Char} {content : α → Content}

/-- What is written for an element is read, before all lines, as a dash and the tokens of its content. -/
def WritesElements (column : Nat) (is : List Nat) (write : α → List Char) (content : α → Content) :
    Prop :=
  ∀ a rest later, Lines column (column :: is) rest later →
    Lines column (column :: is) (write a ++ rest)
      (.dash :: (Lexeme.ofContent false (content a) ++ later))

theorem Lines.elements (hone : WritesElements column is write content)
    (h : Lines column (column :: is) rest later) (as : List α) :
    Lines column (column :: is) ((as.map write).flatten ++ rest)
      (Lexeme.ofItems (as.map content) ++ later) := by
  induction as with
  | nil => simpa [Lexeme.ofItems] using h
  | cons a as ih =>
    have ha := hone a _ _ ih
    simpa [Lexeme.ofItems] using ha

/-- An entry with a list that has elements begins before the first of them. -/
theorem Lines.listEntry_of_elements {k : String} (lead : String) (hk : IsKey k)
    (hlead : lead.toList = spaces column) {as : List α} (hne : as ≠ [])
    (helements : Lines column (column :: is) ((as.map write).flatten ++ rest)
      (Lexeme.ofItems (as.map content) ++ later)) :
    Lines column (column :: is) (Written.listEntry lead k (as.map write) ++ rest)
      (.key :: .scalar .plain k :: .value ::
        (Lexeme.ofContent true (.list (as.map content)) ++ later)) := by
  have hline : ":\n".toList = [':', '\n'] := by decide
  have hwritten : Written.listEntry lead k (as.map write) ++ rest =
      lead.toList ++ (k.toList ++ ':' :: '\n' :: ((as.map write).flatten ++ rest)) := by
    simp [Written.listEntry, hline, hne]
  have htokens : Lexeme.ofContent true (.list (as.map content)) = Lexeme.ofItems (as.map content) := by
    simp [Lexeme.ofContent, hne]
  rw [hwritten, htokens]
  refine of_key hk hlead fun line => Reads.key hk (.inside is) rfl ?_
  exact (helements.reads _).newline helements.follows

theorem Lines.listEntry {k : String} (lead : String) (hk : IsKey k)
    (hlead : lead.toList = spaces column)
    (hone : WritesElements column is write content)
    (h : Lines column (column :: is) rest later) (as : List α) :
    Lines column (column :: is) (Written.listEntry lead k (as.map write) ++ rest)
      (.key :: .scalar .plain k :: .value ::
        (Lexeme.ofContent true (.list (as.map content)) ++ later)) := by
  cases as with
  | nil =>
    have hbrackets : ": []\n".toList = [':', ' ', '[', ']', '\n'] := by decide
    have hwritten : Written.listEntry lead k (List.map write []) ++ rest =
        lead.toList ++ (k.toList ++ ':' :: ' ' :: '[' :: ']' :: '\n' :: rest) := by
      simp [Written.listEntry, hbrackets]
    rw [hwritten]
    refine of_key hk hlead fun line => Reads.key hk (.inside is) rfl ?_
    exact Reads.noItems (Nat.le_add_right_of_le (Nat.le_add_right _ _)) h.follows h.reads
  | cons a as => exact listEntry_of_elements lead hk hlead (by simp) (elements hone h (a :: as))

end Lists

section Site
variable {is : List Nat}

theorem writesElements_item : WritesElements 2 is Written.item .ofItem := by
  intro it rest later h
  have htext : IsKey "text" := by decide
  have hlink : IsKey "link" := by decide
  have hend : Lines 4 (4 :: 2 :: is) rest (.blockEnd :: later) :=
    (h.endBlock (by decide)).mono (by decide)
  have hread := Lines.dashTextEntry "  - " htext rfl it.text
    (Lines.textEntry "    " hlink rfl it.link hend)
  rw [Written.item, List.append_assoc]
  exact hread

/-- A group is read if the entry with its items is. -/
theorem Lines.group {g : Group} {rest : List Char} {later : List Lexeme}
    (hlist : Lines 2 (2 :: 0 :: is) (Written.listEntry "  " "items" (g.items.map Written.item) ++ rest)
      (.key :: .scalar .plain "items" :: .value ::
        (Lexeme.ofContent true (.list (g.items.map .ofItem)) ++ .blockEnd :: later))) :
    Lines 0 (0 :: is) (Written.group g ++ rest)
      (.dash :: (Lexeme.ofContent false (.ofGroup g) ++ later)) := by
  have htext : IsKey "text" := by decide
  rw [Written.group, Content.ofGroup]
  cases g.collapsible with
  | none =>
    have hread := Lines.dashTextEntry "- " htext rfl g.text hlist
    simpa [Lexeme.ofContent, Lexeme.ofEntries] using hread
  | some b =>
    have hread := Lines.dashTextEntry "- " htext rfl g.text (Lines.flagEntry b hlist)
    simpa [Lexeme.ofContent, Lexeme.ofEntries] using hread

theorem writesElements_group : WritesElements 0 is Written.group .ofGroup := by
  intro g rest later h
  have hitems : IsKey "items" := by decide
  have hend : Lines 2 (2 :: 0 :: is) rest (.blockEnd :: later) :=
    (h.endBlock (by decide)).mono (by decide)
  exact Lines.group (Lines.listEntry "  " hitems rfl writesElements_item hend g.items)

theorem lines_end : Lines 0 [0] [] [.blockEnd, .streamEnd] :=
  ⟨.inl rfl, fun line => Reads.finish line⟩

/-- A site is read if the entry with its sidebar is. The first entry begins the outermost map. -/
theorem reads_site_of_sidebar {s : Site} {rest : List Char}
    (hlist : Lines 0 [0] (Written.listEntry "" "sidebar" (s.sidebar.map Written.group) ++ rest)
      (.key :: .scalar .plain "sidebar" :: .value ::
        (Lexeme.ofContent true (.list (s.sidebar.map .ofGroup)) ++ [.blockEnd, .streamEnd]))) :
    Reads true [] ⟨.start, Written.site s ++ rest⟩
      (Lexeme.ofContent false (.ofSite s) ++ [.streamEnd]) := by
  have htitle : IsKey "title" := by decide
  have hdescription : IsKey "description" := by decide
  have hbasePath : IsKey "basePath" := by decide
  have hlater := Lines.textEntry "" hdescription rfl s.description
    (Lines.textEntry "" hbasePath rfl s.basePath hlist)
  have hfirst : EntersMap 0 [] [0] [.blockMap] := .first [] (by simp)
  have hread := Reads.textEntry (m := .start) htitle s.title hfirst hlater
  have hstart : "".toList = [] := by decide
  rw [Written.site, entry_eq "" "title", hstart, List.nil_append]
  simpa [Lexeme.ofContent, Lexeme.ofEntries, Content.ofSite, Mark.start] using hread

theorem reads_site (s : Site) : Reads true [] ⟨.start, Written.site s⟩
    (Lexeme.ofContent false (.ofSite s) ++ [.streamEnd]) := by
  have hsidebar : IsKey "sidebar" := by decide
  have hread := reads_site_of_sidebar
    (Lines.listEntry "" hsidebar rfl writesElements_group lines_end s.sidebar)
  rwa [List.append_nil] at hread

theorem exists_tokens_of_reads {cs : List Char} {xs : List Lexeme}
    (hprintable : ∀ c ∈ cs, isPrintable c = true) (h : Reads true [] ⟨.start, cs⟩ xs) :
    ∃ tokens, tokens? cs = some tokens ∧ tokens.map (·.lexeme) = xs := by
  have hallowed : cs.all isAllowed = true :=
    List.all_eq_true.2 fun c hc => isAllowed_of_isPrintable (hprintable c hc)
  obtain ⟨tokens, hread, hlexemes⟩ := h [] _ (Nat.lt_succ_self cs.length)
  refine ⟨tokens, ?_, hlexemes⟩
  have hempty : Outline.empty = Outline.ready [] [] true := rfl
  rw [tokens?, hallowed, unifyBreaks_eq_self hprintable, if_neg (by simp), hempty, hread,
    List.reverse_nil, List.nil_append]

end Site

end SiteNav.Yaml
