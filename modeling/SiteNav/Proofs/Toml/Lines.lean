import Mathlib.Data.List.Forall2
import SiteNav.Document.Content
import SiteNav.Proofs.Document.Shows
import SiteNav.Proofs.Toml.Literal
import SiteNav.Toml.Dialect

/-!
# Written lines

A site is written as a sequence of statements: fields that are assigned a value and headers that open
one more table. Reading the text gives lines that say the same, each of them with spans of its own.
-/
namespace SiteNav.Toml
open Document
open Literal (dropBlanks newline?)

inductive Statement where
  | assign (key : String) (value : Content)
  | element (path : List String) (last : String)

namespace Statement

/-- What is said about the last of a list of tables. -/
def within (k : String) : Statement → Statement
  | assign key value => assign key value
  | element path last => element (k :: path) last

/-- A list of tables, each of them said by some statements. -/
def tables (k : String) (bodies : List (List Statement)) : List Statement :=
  if bodies.isEmpty then [assign k (.list [])]
  else bodies.flatMap fun body => element [] k :: body.map (within k)

def ofItem (it : Item) : List Statement :=
  [assign "text" (.text it.text), assign "link" (.text it.link)]

def ofGroup (g : Group) : List Statement :=
  assign "text" (.text g.text) ::
    ((g.collapsible.map fun b => assign "collapsible" (.flag b)).toList ++
      tables "items" (g.items.map ofItem))

def ofSite (s : Site) : List Statement :=
  assign "title" (.text s.title) :: assign "description" (.text s.description) ::
    assign "basePath" (.text s.basePath) :: tables "sidebar" (s.sidebar.map ofGroup)

end Statement

def Line.Says : Line → Statement → Prop
  | .assign key node, .assign name value =>
    key.path = [] ∧ key.last.name = name ∧ dialect.Shows node value
  | .element key _, .element path last => key.path.map (·.name) = path ∧ key.last.name = last
  | _, _ => False

section Keys

def IsBareKey (k : String) : Prop :=
  k.toList ≠ [] ∧ ∀ c ∈ k.toList, isBareKeyChar c = true

instance (k : String) : Decidable (IsBareKey k) :=
  decidable_of_iff (k.toList.isEmpty = false ∧ k.toList.all isBareKeyChar = true) (by
    rw [List.isEmpty_eq_false_iff, List.all_eq_true, IsBareKey])

def dotted (path : List String) (last : String) : List Char :=
  path.foldr (fun k cs => k.toList ++ '.' :: cs) last.toList

variable {k : String} {rest : List Char}

theorem ne_of_isBareKeyChar {c x : Char} (hc : isBareKeyChar c = true)
    (hx : isBareKeyChar x = false) : c ≠ x := by
  rintro rfl
  rw [hc] at hx
  cases hx

theorem dropBlanks_of_isBareKeyChar {c : Char} (hc : isBareKeyChar c = true) (cs : List Char) :
    dropBlanks (c :: cs) = c :: cs := by
  have hspace := ne_of_isBareKeyChar hc (x := ' ') rfl
  have htab := ne_of_isBareKeyChar hc (x := '\t') rfl
  simp [dropBlanks, isBlank, hspace, htab]

theorem exists_toList_eq_cons (hk : IsBareKey k) :
    ∃ c cs, k.toList = c :: cs ∧ isBareKeyChar c = true := by
  obtain ⟨c, cs, hcs⟩ := List.exists_cons_of_ne_nil hk.1
  exact ⟨c, cs, hcs, hk.2 c (by simp [hcs])⟩

theorem spanKeyChars_append {word : List Char} (hword : ∀ c ∈ word, isBareKeyChar c = true)
    {x : Char} (hx : isBareKeyChar x = false) (cs : List Char) :
    spanKeyChars (word ++ x :: cs) = (word, x :: cs) := by
  induction word with
  | nil => simp [spanKeyChars, hx]
  | cons c word ih =>
    rw [List.cons_append, spanKeyChars, if_pos (hword c (by simp)), ih fun d hd => hword d (by simp [hd])]

theorem scanKey_append (hk : IsBareKey k) {x : Char} (hx : isBareKeyChar x = false)
    (cs : List Char) : ∃ key, scanKey (k.toList ++ x :: cs) = some (key, x :: cs) ∧ key.name = k := by
  have hspan := spanKeyChars_append hk.2 hx cs
  obtain ⟨c, tl, hcs, hc⟩ := exists_toList_eq_cons hk
  have hdouble := ne_of_isBareKeyChar hc (x := '"') rfl
  have hsingle := ne_of_isBareKeyChar hc (x := '\'') rfl
  refine ⟨⟨k, .between (k.toList ++ x :: cs) (x :: cs)⟩, ?_, rfl⟩
  rw [hcs, List.cons_append] at hspan ⊢
  rw [scanKey]
  · rw [hspan]
    simp only [scanKey.named, ← hcs, String.ofList_toList]
  all_goals simp_all

theorem exists_dotted_eq_cons {path : List String} (hpath : ∀ k ∈ path, IsBareKey k)
    (hk : IsBareKey k) : ∃ c cs, dotted path k = c :: cs ∧ isBareKeyChar c = true := by
  cases path with
  | nil => exact exists_toList_eq_cons hk
  | cons k' path =>
    obtain ⟨c, cs, hcs, hc⟩ := exists_toList_eq_cons (hpath k' (by simp))
    exact ⟨c, _, by rw [dotted, List.foldr_cons, hcs, List.cons_append], hc⟩

theorem length_le_length_dotted (path : List String) (k : String) :
    path.length ≤ (dotted path k).length := by
  induction path with
  | nil => exact Nat.zero_le _
  | cons k' path ih =>
    simp only [dotted, List.foldr_cons, List.length_append, List.length_cons] at ih ⊢
    omega

/-- The keys of a path, up to a character that cannot go on with it. -/
theorem scanDottedKey_dotted {path : List String} (hpath : ∀ k ∈ path, IsBareKey k)
    (hk : IsBareKey k) {x : Char} (hx : isBareKeyChar x = false) (cs : List Char)
    (hend : ∀ r, dropBlanks (x :: cs) ≠ '.' :: r) (fuel : Nat) (hfuel : path.length < fuel) :
    ∃ key, scanDottedKey fuel (dotted path k ++ x :: cs) = some (key, x :: cs) ∧
      key.path.map (·.name) = path ∧ key.last.name = k := by
  induction path generalizing fuel with
  | nil =>
    obtain ⟨f, rfl⟩ : ∃ f, fuel = f + 1 := ⟨fuel - 1, by omega⟩
    obtain ⟨key, hkey, rfl⟩ := scanKey_append hk hx cs
    refine ⟨⟨[], key⟩, ?_, rfl, rfl⟩
    simp only [dotted, List.foldr_nil, scanDottedKey, hkey, Option.bind_eq_bind, Option.bind_some]
    rfl
  | cons k' path ih =>
    obtain ⟨f, rfl⟩ : ∃ f, fuel = f + 1 := ⟨fuel - 1, by omega⟩
    have hpath' : ∀ k ∈ path, IsBareKey k := fun k hk => hpath k (by simp [hk])
    obtain ⟨more, hmore, hnames, hlast⟩ := ih hpath' f (by simp at hfuel; omega)
    obtain ⟨key, hkey, rfl⟩ := scanKey_append (hpath k' (by simp)) (x := '.') rfl
      (dotted path k ++ x :: cs)
    obtain ⟨c, tl, htl, hc⟩ := exists_dotted_eq_cons hpath' hk
    refine ⟨⟨key :: more.path, more.last⟩, ?_, by rw [List.map_cons, hnames], hlast⟩
    have hcons : dotted (key.name :: path) k ++ x :: cs =
        key.name.toList ++ '.' :: (dotted path k ++ x :: cs) := by
      rw [dotted, List.foldr_cons, List.append_assoc, List.cons_append]
      rfl
    have hblank : dropBlanks (dotted path k ++ x :: cs) = dotted path k ++ x :: cs := by
      rw [htl, List.cons_append, dropBlanks_of_isBareKeyChar hc]
    have hdot : dropBlanks ('.' :: (dotted path k ++ x :: cs)) =
        '.' :: (dotted path k ++ x :: cs) := rfl
    rw [hcons, scanDottedKey, hkey]
    simp only [Option.bind_eq_bind, Option.bind_some, hdot, hblank, hmore]
    rfl

end Keys

section Values

/-- A text that is read as a value up to the end of its line. -/
structure Reads (value : List Char) (c : Content) : Prop where
  start : ∀ rest, dropBlanks (value ++ '\n' :: rest) = value ++ '\n' :: rest
  scan : ∀ rest fuel, 2 ≤ fuel → ∃ node,
    scanValue fuel 0 (value ++ '\n' :: rest) = some (node, '\n' :: rest) ∧ dialect.Shows node c

theorem exists_write_eq_cons (s : String) :
    ∃ c cs, Literal.write s = c :: cs ∧ (c = '"' ∨ c = '\'') := by
  rw [Literal.write]
  split <;> exact ⟨_, _, rfl, by simp⟩

theorem reads_text (s : String) : Reads (Literal.write s) (.text s) := by
  obtain ⟨c, cs, hcs, hc⟩ := exists_write_eq_cons s
  refine ⟨fun rest => ?_, fun rest fuel hfuel => ?_⟩
  · rw [hcs, List.cons_append]
    rcases hc with rfl | rfl <;> rfl
  · obtain ⟨f, rfl⟩ : ∃ f, fuel = f + 1 := ⟨fuel - 1, by omega⟩
    have hscan : Literal.scan (Literal.write s ++ '\n' :: rest) = some (s.toList, '\n' :: rest) :=
      Literal.scan_write_append s (by simp) (by simp)
    refine ⟨.scalar (.between (Literal.write s ++ '\n' :: rest) ('\n' :: rest)) (.text s), ?_,
      fun _ => rfl⟩
    rw [hcs, List.cons_append] at hscan ⊢
    rcases hc with rfl | rfl
    all_goals
      simp only [scanValue, hscan, Option.bind_eq_bind, Option.bind_some, String.ofList_toList]
      rfl

theorem scan_flag (b : Bool) (rest : List Char) :
    Bare.scan ((if b then "true" else "false").toList ++ '\n' :: rest) =
      some (.bool b, '\n' :: rest) := by
  cases b <;> rfl

theorem reads_flag (b : Bool) : Reads (if b then "true" else "false").toList (.flag b) := by
  refine ⟨fun rest => by cases b <;> rfl, fun rest fuel hfuel => ?_⟩
  obtain ⟨f, rfl⟩ : ∃ f, fuel = f + 1 := ⟨fuel - 1, by omega⟩
  have hscan := scan_flag b rest
  refine ⟨.scalar (.between ((if b then "true" else "false").toList ++ '\n' :: rest)
    ('\n' :: rest)) (.bool b), ?_, fun _ _ => rfl⟩
  rw [scanValue]
  · simp only [hscan, Option.bind_eq_bind, Option.bind_some]
    rfl
  all_goals (intros; cases b <;> simp_all)

theorem reads_nil : Reads ['[', ']'] (.list []) := by
  refine ⟨fun rest => rfl, fun rest fuel hfuel => ?_⟩
  obtain ⟨f, rfl⟩ : ∃ f, fuel = f + 2 := ⟨fuel - 2, by omega⟩
  refine ⟨.array (.between ('[' :: ']' :: '\n' :: rest) ('\n' :: rest)) false [], ?_,
    _, [], rfl, rfl, trivial⟩
  have hgaps : gaps (']' :: '\n' :: rest) = some (']' :: '\n' :: rest) := rfl
  have hitems : scanItems (f + 1) 1 (']' :: '\n' :: rest) = some ([], '\n' :: rest) := by
    simp only [scanItems]
  simp only [List.cons_append, List.nil_append, scanValue, hgaps, Option.bind_eq_bind,
    Option.bind_some, hitems]
  rfl

end Values

section Lines
variable {k : String} {value : List Char} {c : Content}

/-- A text whose lines say the given statements. -/
def Spells (text : List Char) (sts : List Statement) : Prop :=
  ∀ fuel, text.length < fuel → ∃ lines, scanLines fuel text = some lines ∧
    List.Forall₂ Line.Says lines sts

theorem Spells.nil : Spells [] [] := by
  intro fuel hfuel
  obtain ⟨f, rfl⟩ : ∃ f, fuel = f + 1 := ⟨fuel - 1, by simp at hfuel; omega⟩
  exact ⟨[], rfl, .nil⟩

theorem assignment_append (k : String) (value rest : List Char) : assignment k value ++ rest =
    k.toList ++ ' ' :: '=' :: ' ' :: (value ++ '\n' :: rest) := by
  simp [assignment]

theorem scanAssignment_append (hk : IsBareKey k) (hvalue : Reads value c) (rest : List Char)
    (fuel : Nat) (hfuel : 3 ≤ fuel) : ∃ key node,
      scanAssignment fuel 0 (assignment k value ++ rest) = some ((key, node), '\n' :: rest) ∧
      Line.Says (.assign key node) (.assign k c) := by
  obtain ⟨f, rfl⟩ : ∃ f, fuel = f + 1 := ⟨fuel - 1, by omega⟩
  rw [assignment_append]
  have hblanks (cs : List Char) : dropBlanks (' ' :: '=' :: cs) = '=' :: cs := rfl
  have hspace (cs : List Char) : dropBlanks (' ' :: cs) = dropBlanks cs := rfl
  obtain ⟨key, hkey, hpath, hlast⟩ := scanDottedKey_dotted (List.forall_mem_nil _) hk (x := ' ') rfl
    ('=' :: ' ' :: (value ++ '\n' :: rest))
    (by intro r hr; rw [hblanks] at hr; cases hr)
    ((k.toList ++ ' ' :: '=' :: ' ' :: (value ++ '\n' :: rest)).length + 1) (by simp)
  obtain ⟨node, hnode, hshow⟩ := hvalue.scan rest f (by omega)
  refine ⟨key, node, ?_, List.map_eq_nil_iff.1 hpath, hlast, hshow⟩
  rw [dotted, List.foldr_nil] at hkey
  simp only [scanAssignment, hkey, Option.bind_eq_bind, Option.bind_some, hblanks, hspace,
    hvalue.start, hnode]
  rfl

theorem scanStatement_assignment (hk : IsBareKey k) (hvalue : Reads value c) (rest : List Char) :
    ∃ line, scanStatement (assignment k value ++ rest) = some (line, '\n' :: rest) ∧
      line.Says (.assign k c) := by
  obtain ⟨key, node, hscan, hsays⟩ := scanAssignment_append hk hvalue rest
    (3 * (assignment k value ++ rest).length + 4) (by omega)
  obtain ⟨x, tl, htl, hx⟩ := exists_toList_eq_cons hk
  have hbracket := ne_of_isBareKeyChar hx (x := '[') rfl
  refine ⟨.assign key node, ?_, hsays⟩
  rw [assignment_append, htl, List.cons_append] at hscan ⊢
  rw [scanStatement, hscan]
  · rfl
  · intro r hr
    exact hbracket (List.cons.inj hr).1

theorem gaps_of_isBareKeyChar {x : Char} (hx : isBareKeyChar x = true) (cs : List Char) :
    gaps (x :: cs) = some (x :: cs) := by
  have hhash := ne_of_isBareKeyChar hx (x := '#') rfl
  have hline := ne_of_isBareKeyChar hx (x := '\n') rfl
  have hreturn := ne_of_isBareKeyChar hx (x := '\r') rfl
  rw [gaps, dropGaps, dropBlanks_of_isBareKeyChar hx]
  split <;> simp_all

theorem Spells.assign {rest : List Char} {sts : List Statement} (hk : IsBareKey k)
    (hvalue : Reads value c) (hrest : Spells rest sts) :
    Spells (assignment k value ++ rest) (.assign k c :: sts) := by
  intro fuel hfuel
  obtain ⟨f, rfl⟩ : ∃ f, fuel = f + 1 := ⟨fuel - 1, by omega⟩
  obtain ⟨lines, hlines, hsays⟩ := hrest f (by simp [assignment] at hfuel; omega)
  obtain ⟨line, hline, hsay⟩ := scanStatement_assignment hk hvalue rest
  refine ⟨line :: lines, ?_, .cons hsay hsays⟩
  obtain ⟨x, tl, htl, hx⟩ := exists_toList_eq_cons hk
  have hend : endLine ('\n' :: rest) = some rest := rfl
  rw [assignment_append, htl, List.cons_append] at hline ⊢
  simp only [scanLines, gaps_of_isBareKeyChar hx, Option.bind_eq_bind, Option.bind_some, hline, hend,
    hlines]
  rfl

/-- The line of a header, after an empty line. -/
def headerLine (path : List String) (k : String) : List Char :=
  '\n' :: '[' :: '[' :: (dotted path k ++ [']', ']', '\n'])

theorem scanHeader_dotted {path : List String} (hpath : ∀ k ∈ path, IsBareKey k) (hk : IsBareKey k)
    (rest : List Char) :
    ∃ line, scanHeader ('[' :: '[' :: (dotted path k ++ ']' :: ']' :: '\n' :: rest)) =
      some (line, '\n' :: rest) ∧ line.Says (.element path k) := by
  have hbrackets : dropBlanks (']' :: ']' :: '\n' :: rest) = ']' :: ']' :: '\n' :: rest := rfl
  have hlength := length_le_length_dotted path k
  obtain ⟨key, hkey, hsays⟩ := scanDottedKey_dotted hpath hk (x := ']') rfl
    (']' :: '\n' :: rest) (by intro r hr; rw [hbrackets] at hr; cases hr)
    ((dotted path k ++ ']' :: ']' :: '\n' :: rest).length + 1)
    (by simp only [List.length_append]; omega)
  obtain ⟨x, tl, htl, hx⟩ := exists_dotted_eq_cons hpath hk
  have hblank : dropBlanks (dotted path k ++ ']' :: ']' :: '\n' :: rest) =
      dotted path k ++ ']' :: ']' :: '\n' :: rest := by
    rw [htl, List.cons_append, dropBlanks_of_isBareKeyChar hx]
  refine ⟨.element key (.between ('[' :: '[' :: (dotted path k ++ ']' :: ']' :: '\n' :: rest))
    ('\n' :: rest)), ?_, hsays⟩
  simp only [scanHeader, hblank, hkey, Option.bind_eq_bind, Option.bind_some, hbrackets]
  rfl

theorem Spells.element {rest : List Char} {sts : List Statement} {path : List String}
    (hpath : ∀ k ∈ path, IsBareKey k) (hk : IsBareKey k) (hrest : Spells rest sts) :
    Spells (headerLine path k ++ rest) (.element path k :: sts) := by
  intro fuel hfuel
  obtain ⟨f, rfl⟩ : ∃ f, fuel = f + 1 := ⟨fuel - 1, by omega⟩
  obtain ⟨lines, hlines, hsays⟩ := hrest f (by simp [headerLine] at hfuel; omega)
  obtain ⟨line, hline, hsay⟩ := scanHeader_dotted hpath hk rest
  refine ⟨line :: lines, ?_, .cons hsay hsays⟩
  have htext : headerLine path k ++ rest =
      '\n' :: '[' :: '[' :: (dotted path k ++ ']' :: ']' :: '\n' :: rest) := by
    simp [headerLine]
  have hgaps (cs : List Char) : gaps ('\n' :: '[' :: cs) = some ('[' :: cs) := rfl
  have hend : endLine ('\n' :: rest) = some rest := rfl
  rw [htext]
  simp only [scanLines, hgaps, scanStatement, Option.bind_eq_bind, Option.bind_some, hline, hend,
    hlines]
  rfl

end Lines

section Site
variable {rest : List Char} {sts : List Statement}

/-- A list is written in place if it is empty, else one table after the other; `f` puts what is said
where the list belongs. -/
theorem Spells.tables {α : Type} {write : α → List Char} {body : α → List Statement} {k : String}
    {f : Statement → Statement} (hk : IsBareKey k)
    (hempty : f (.assign k (.list [])) = .assign k (.list []))
    (hwrite : ∀ a rest sts, Spells rest sts →
      Spells (write a ++ rest) ((.element [] k :: (body a).map (.within k)).map f ++ sts))
    (hrest : Spells rest sts) (as : List α) :
    Spells ((if as.isEmpty then assignment k ['[', ']'] else as.flatMap write) ++ rest)
      ((Statement.tables k (as.map body)).map f ++ sts) := by
  by_cases has : as = []
  · subst has
    simpa [Statement.tables, hempty] using hrest.assign hk reads_nil
  · have hlist : ∀ as : List α, Spells (as.flatMap write ++ rest)
        (((as.map body).flatMap fun b => .element [] k :: b.map (.within k)).map f ++ sts) := by
      intro as
      induction as with
      | nil => exact hrest
      | cons a as ih =>
        have hcons := hwrite a _ _ ih
        simpa using hcons
    simpa [Statement.tables, has] using hlist as

theorem toList_itemHeader :
    "\n[[sidebar.items]]\n".toList = headerLine ["sidebar"] "items" := by decide

theorem toList_groupHeader : "\n[[sidebar]]\n".toList = headerLine [] "sidebar" := by decide

theorem spells_writeItem (it : Item) (hrest : Spells rest sts) : Spells (writeItem it ++ rest)
    ((.element [] "items" :: (Statement.ofItem it).map (.within "items")).map
      (.within "sidebar") ++ sts) := by
  have hlink := hrest.assign (k := "link") (by decide) (reads_text it.link)
  have htext := hlink.assign (k := "text") (by decide) (reads_text it.text)
  unfold writeItem
  rw [toList_itemHeader, List.append_assoc, List.append_assoc]
  exact htext.element (List.forall_mem_singleton.2 (by decide)) (by decide)

theorem spells_writeGroup (g : Group) (hrest : Spells rest sts) : Spells (writeGroup g ++ rest)
    ((.element [] "sidebar" :: (Statement.ofGroup g).map (.within "sidebar")) ++ sts) := by
  have hitems := hrest.tables (k := "items") (f := .within "sidebar") (by decide) rfl
    (fun it _ _ => spells_writeItem it) g.items
  unfold writeGroup
  rw [toList_groupHeader, List.append_assoc, List.append_assoc, List.append_assoc]
  rw [Statement.ofGroup, List.map_cons, List.map_append, List.cons_append, List.cons_append,
    List.append_assoc]
  refine Spells.element (List.forall_mem_nil _) (by decide) ?_
  refine Spells.assign (by decide) (reads_text g.text) ?_
  cases g.collapsible with
  | none => exact hitems
  | some b => exact hitems.assign (by decide) (reads_flag b)

theorem spells_writeChars (s : Site) : Spells (writeChars s) (Statement.ofSite s) := by
  have hsidebar := Spells.nil.tables (k := "sidebar") (f := id) (by decide) rfl
    (fun g _ _ h => by simpa using spells_writeGroup g h) s.sidebar
  rw [List.append_nil, List.append_nil, List.map_id] at hsidebar
  unfold writeChars
  rw [List.append_assoc, List.append_assoc]
  refine Spells.assign (by decide) (reads_text s.title) ?_
  refine Spells.assign (by decide) (reads_text s.description) ?_
  exact hsidebar.assign (by decide) (reads_text s.basePath)

end Site

section LastLine

theorem getLast?_append_newline {cs : List Char} (before : List Char)
    (h : cs.getLast? = some '\n') : (before ++ cs).getLast? = some '\n' := by
  rw [List.getLast?_append, h]
  rfl

theorem getLast?_assignment (key : String) (value : List Char) :
    (assignment key value).getLast? = some '\n' :=
  getLast?_append_newline _ rfl

theorem getLast?_flatMap {α : Type} {write : α → List Char}
    (h : ∀ a, (write a).getLast? = some '\n') {as : List α} (hne : as ≠ []) :
    (as.flatMap write).getLast? = some '\n' := by
  rcases List.eq_nil_or_concat as with rfl | ⟨front, a, rfl⟩
  · exact absurd rfl hne
  · rw [List.concat_eq_append, List.flatMap_append, List.flatMap_singleton]
    exact getLast?_append_newline _ (h a)

theorem getLast?_writeItem (it : Item) : (writeItem it).getLast? = some '\n' :=
  getLast?_append_newline _ (getLast?_assignment _ _)

theorem getLast?_writeGroup (g : Group) : (writeGroup g).getLast? = some '\n' := by
  refine getLast?_append_newline _ ?_
  split
  · exact getLast?_assignment _ _
  · next hitems => exact getLast?_flatMap getLast?_writeItem (by simpa using hitems)

theorem getLast?_writeChars (s : Site) : (writeChars s).getLast? = some '\n' := by
  refine getLast?_append_newline _ ?_
  split
  · exact getLast?_assignment _ _
  · next hsidebar => exact getLast?_flatMap getLast?_writeGroup (by simpa using hsidebar)

end LastLine

end SiteNav.Toml
