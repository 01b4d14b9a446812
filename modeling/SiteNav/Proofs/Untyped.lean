import SiteNav.Proofs.Document.Value
import SiteNav.Proofs.DocumentTree
import SiteNav.Proofs.Json.Tree
import SiteNav.Proofs.Toml.Tables
import SiteNav.Proofs.Yaml.Tree

/-!
# Written sites without a schema

Whoever reads a document without knowing what to expect gets a value. Main statement: what is written
for a site is the same value in every format, with all its texts as texts.
-/
namespace SiteNav
open Document

namespace Json

def keyDatum : Option String → Datum
  | some s => .text s
  | none => .other

def datum : Option Scalar → Datum
  | some .null => .null
  | some (.bool b) => .flag b
  | some (.number _) => .number
  | some (.text s) => .text s
  | none => .other

namespace Node

theorem itemTrees?_of_forall₂ {ns : List Node} {ts : List Tree}
    (h : List.Forall₂ (fun n t => n.tree? = some t) ns ts) : itemTrees? ns = some ts := by
  induction h with
  | nil => rfl
  | cons hn _ ih => rw [itemTrees?, hn, ih]

theorem entryTrees?_of_forall₂ {ns : List (Key × Node)} {es : List (Option String × Tree)}
    (h : List.Forall₂ (fun n e => n.1.text.toOption = e.1 ∧ n.2.tree? = some e.2) ns es) :
    entryTrees? ns = some es := by
  induction h with
  | nil => rfl
  | @cons n e _ _ hn _ ih =>
    obtain ⟨k, n⟩ := n
    rw [entryTrees?, hn.2, ih, hn.1]

end Node

theorem toOption_of_key {k : Key} {n : Node} {name : String}
    (h : dialect.key [] n k = .ok (.key name)) : k.text.toOption = some name := by
  obtain ⟨text, stop⟩ := k
  cases text with
  | ok s =>
    cases h
    rfl
  | error e => cases h

theorem exists_closed {n : Node} {ending : Ending} (hending : n.ending = some ending)
    (h : dialect.close n = .ok ()) : ∃ pos, ending = .closed pos := by
  cases ending with
  | closed pos => exact ⟨pos, rfl⟩
  | faulty elements fields skipped =>
    simp only [dialect, hending] at h
    cases h

mutual

/-- What shows a content is a tree, and as a value it is the content. -/
theorem exists_tree?_of_shows : ∀ (c : Content) {n : Node}, dialect.Shows n c →
    ∃ t, n.tree? = some t ∧ (t.relabel keyDatum datum).Rearranged (Value.ofContent c)
  | .flag b, n, h => by
    have hflag : dialect.flag [] n n = .ok (some b) := h [] n
    cases n with
    | scalar start stop value =>
      refine ⟨_, rfl, ?_⟩
      rcases value with e | (_ | b' | x | s)
      all_goals cases hflag
      exact .scalar _
    | list _ _ _ => cases hflag
    | map _ _ _ => cases hflag
    | broken _ _ _ => cases hflag
  | .text s, n, h => by
    have htext : dialect.text [] n = .ok s := h []
    cases n with
    | scalar start stop value =>
      refine ⟨_, rfl, ?_⟩
      rcases value with e | (_ | b' | x | s)
      all_goals cases htext
      exact .scalar _
    | list _ _ _ => cases htext
    | map _ _ _ => cases htext
    | broken _ _ _ => cases htext
  | .list cs, n, ⟨n', ns, hview, hclose, hitems⟩ => by
    cases n with
    | scalar _ _ _ => cases hview
    | map _ _ _ => cases hview
    | broken _ _ _ => cases hview
    | list start items ending =>
      cases hview
      obtain ⟨pos, rfl⟩ := exists_closed rfl hclose
      obtain ⟨ts, hts, hvalues⟩ := exists_itemTrees_of_shows cs hitems
      refine ⟨.list ts, ?_, ?_⟩
      · rw [Node.tree?, Node.itemTrees?_of_forall₂ hts]
        rfl
      · rw [Document.Tree.relabel, Document.Tree.relabelItems_eq]
        exact .list (List.forall₂_map_left_iff.2 hvalues)
  | .map es, n, ⟨n', entries, arranged, hview, hclose, hperm, hentries⟩ => by
    cases n with
    | scalar _ _ _ => cases hview
    | list _ _ _ => cases hview
    | broken _ _ _ => cases hview
    | map start entries' ending =>
      cases hview
      obtain ⟨pos, rfl⟩ := exists_closed rfl hclose
      obtain ⟨es', hes', hvalues⟩ := exists_entryTrees_of_shows es hentries
      obtain ⟨es'', hes'', hperm'⟩ := List.perm_comp_forall₂ hperm.symm hes'
      refine ⟨.map es'', ?_, ?_⟩
      · rw [Node.tree?, Node.entryTrees?_of_forall₂ hes'']
        rfl
      · rw [Document.Tree.relabel, Document.Tree.relabelEntries_eq]
        exact .of_sameEntry (hperm'.map _) (List.forall₂_map_left_iff.2 hvalues)

theorem exists_itemTrees_of_shows : ∀ (cs : List Content) {ns : List Node}, dialect.ShowsItems ns cs →
    ∃ ts, List.Forall₂ (fun n t => n.tree? = some t) ns ts ∧
      List.Forall₂ (fun t v => (t.relabel keyDatum datum).Rearranged v) ts (Value.ofItems cs)
  | [], [], _ => ⟨[], .nil, .nil⟩
  | c :: cs, n :: ns, ⟨hn, hns⟩ => by
    obtain ⟨t, ht, hvalue⟩ := exists_tree?_of_shows c hn
    obtain ⟨ts, hts, hvalues⟩ := exists_itemTrees_of_shows cs hns
    exact ⟨t :: ts, .cons ht hts, .cons hvalue hvalues⟩
  | [], _ :: _, h => h.elim
  | _ :: _, [], h => h.elim

theorem exists_entryTrees_of_shows : ∀ (es : List (String × Content)) {ns : List (Key × Node)},
    dialect.ShowsEntries ns es → ∃ ts : List (Option String × Tree),
      List.Forall₂ (fun n e => n.1.text.toOption = e.1 ∧ n.2.tree? = some e.2) ns ts ∧
      List.Forall₂ (fun e => Document.Tree.SameEntry (keyDatum e.1, e.2.relabel keyDatum datum)) ts
        (Value.ofEntries es)
  | [], [], _ => ⟨[], .nil, .nil⟩
  | (k, c) :: es, (key, n) :: ns, ⟨hkey, hn, hns⟩ => by
    obtain ⟨t, ht, hvalue⟩ := exists_tree?_of_shows c hn
    obtain ⟨ts, hts, hvalues⟩ := exists_entryTrees_of_shows es hns
    exact ⟨(some k, t) :: ts, .cons ⟨toOption_of_key (hkey [] n), ht⟩ hts, .cons ⟨rfl, hvalue⟩ hvalues⟩
  | [], _ :: _, h => h.elim
  | _ :: _, [], h => h.elim

end

end Json

namespace Toml

def datum : Scalar → Datum
  | .text s => .text s
  | .integer _ | .floating (some _) => .number
  | .bool b => .flag b
  | .floating none | .date => .other

/-- A date looks like a map that holds a date, and so on: no content does. -/
theorem not_shows_date (span : Span) : ∀ c : Content, ¬ dialect.Shows (.scalar span .date) c
  | .flag b, h => by cases (h [] (.scalar span .date) : Except.error _ = Except.ok _)
  | .text s, h => by cases (h [] : Except.error _ = Except.ok _)
  | .list cs, ⟨n', ns, hview, _, _⟩ => by cases hview
  | .map [], ⟨n', entries, arranged, hview, _, hperm, hentries⟩ => by
    cases hview
    obtain rfl := List.perm_singleton.1 hperm
    exact hentries
  | .map [(k, c)], ⟨n', entries, arranged, hview, _, hperm, hentries⟩ => by
    cases hview
    obtain rfl := List.perm_singleton.1 hperm
    exact not_shows_date span c hentries.2.1
  | .map (_ :: _ :: _), ⟨n', entries, arranged, hview, _, hperm, hentries⟩ => by
    cases hview
    obtain rfl := List.perm_singleton.1 hperm
    exact hentries.2.2

mutual

theorem rearranged_of_shows : ∀ (c : Content) {n : Node}, dialect.Shows n c →
    (n.tree.relabel Datum.text datum).Rearranged (Value.ofContent c)
  | .flag b, n, h => by
    have hflag : dialect.flag [] n n = .ok (some b) := h [] n
    cases n with
    | scalar span value =>
      cases value with
      | bool b' =>
        cases hflag
        exact .scalar _
      | date => cases hflag
      | integer x => cases hflag
      | floating x => cases hflag
      | text s => cases hflag
    | array _ _ _ => cases hflag
    | table _ _ _ => cases hflag
  | .text s, n, h => by
    have htext : dialect.text [] n = .ok s := h []
    cases n with
    | scalar span value =>
      cases value with
      | text s' =>
        cases htext
        exact .scalar _
      | date => cases htext
      | integer x => cases htext
      | floating x => cases htext
      | bool b => cases htext
    | array _ _ _ => cases htext
    | table _ _ _ => cases htext
  | .list cs, n, ⟨n', ns, hview, _, hitems⟩ => by
    cases n with
    | scalar span value => cases value <;> cases hview
    | table _ _ _ => cases hview
    | array span ofTables items =>
      cases hview
      rw [Node.tree, Node.itemTrees_eq, Document.Tree.relabel, Document.Tree.relabelItems_eq, List.map_map]
      exact .list (List.forall₂_map_left_iff.2 (items_rearranged_of_shows cs hitems))
  | .map es, n, ⟨n', entries, arranged, hview, hclose, hperm, hentries⟩ => by
    cases n with
    | scalar span value =>
      cases value with
      | date =>
        have h : dialect.Shows (.scalar span .date) (.map es) :=
          ⟨n', entries, arranged, hview, hclose, hperm, hentries⟩
        exact (not_shows_date span _ h).elim
      | text s => cases hview
      | integer x => cases hview
      | floating x => cases hview
      | bool b => cases hview
    | array _ _ _ => cases hview
    | table span origin entries' =>
      cases hview
      rw [Node.tree, Node.entryTrees_eq, Document.Tree.relabel, Document.Tree.relabelEntries_eq,
        List.map_map]
      exact .of_sameEntry (hperm.symm.map _)
        (List.forall₂_map_left_iff.2 (entries_rearranged_of_shows es hentries))

theorem items_rearranged_of_shows : ∀ (cs : List Content) {ns : List Node}, dialect.ShowsItems ns cs →
    List.Forall₂ (fun n => (n.tree.relabel Datum.text datum).Rearranged) ns (Value.ofItems cs)
  | [], [], _ => .nil
  | c :: cs, _ :: _, ⟨hn, hns⟩ => .cons (rearranged_of_shows c hn) (items_rearranged_of_shows cs hns)
  | [], _ :: _, h => h.elim
  | _ :: _, [], h => h.elim

theorem entries_rearranged_of_shows : ∀ (es : List (String × Content)) {ns : List (String × Node)},
    dialect.ShowsEntries ns es →
      List.Forall₂ (fun e => Document.Tree.SameEntry (.text e.1, e.2.tree.relabel Datum.text datum)) ns
        (Value.ofEntries es)
  | [], [], _ => .nil
  | (k, c) :: es, (key, n) :: ns, ⟨hkey, hn, hns⟩ => by
    cases (hkey [] n : Except.ok _ = Except.ok _)
    exact .cons ⟨rfl, rearranged_of_shows c hn⟩ (entries_rearranged_of_shows es hns)
  | [], _ :: _, h => h.elim
  | _ :: _, [], h => h.elim

end

end Toml

namespace Yaml

/-- What a scalar without quotes stands for where nothing in particular is asked for. -/
def plainDatum (s : String) : Datum :=
  match Core.resolve s with
  | .null => .null
  | .bool b => .flag b
  | .integer _ | .floating _ => .number
  | .text => .text s

/-- A tag makes something of a scalar that its text does not tell. -/
def Scalar.datum (s : Scalar) : Datum :=
  match s.tag with
  | none => if s.isPlain then plainDatum s.text else .text s.text
  | some _ => .other

def keyDatum : Option Scalar → Datum
  | some s => s.datum
  | none => .other

def datum : Leaf → Datum
  | .scalar s => s.datum
  | .nothing => .null
  | .lost | .beyond => .other

/-- A text is written plain only if nothing else is read from it. -/
theorem resolve_of_style {s : String} (h : Written.style s = .plain) : Core.resolve s = .text := by
  dsimp only [Written.style] at h
  split_ifs at h with _ _ hplain
  simp only [Written.looksTyped, Bool.and_eq_true, Bool.not_eq_true', Bool.or_eq_false_iff,
    decide_eq_false_iff_not, not_not] at hplain
  exact hplain.1.1

theorem datum_of_style (s : String) : Scalar.datum ⟨s, (Written.style s).found, none⟩ = .text s := by
  cases h : Written.style s with
  | plain =>
    change plainDatum s = _
    rw [plainDatum, resolve_of_style h]
  | single => rfl
  | double => rfl
  | literal => rfl

theorem size_le_sizeItems {n : Node} {ns : List Node} (h : n ∈ ns) :
    n.size ≤ Node.sizeItems ns := by
  induction ns with
  | nil => cases h
  | cons n' ns ih =>
    rw [Node.sizeItems]
    rcases List.mem_cons.1 h with rfl | h
    · exact Nat.le_add_right _ _
    · exact Nat.le_trans (ih h) (Nat.le_add_left _ _)

theorem size_le_sizeEntries {e : Node × Node} {es : List (Node × Node)} (h : e ∈ es) :
    e.2.size ≤ Node.sizeEntries es := by
  induction es with
  | nil => cases h
  | cons e' es ih =>
    obtain ⟨k, v⟩ := e'
    rw [Node.sizeEntries]
    rcases List.mem_cons.1 h with rfl | h
    · exact Nat.le_add_right_of_le (Nat.le_add_left _ _)
    · exact Nat.le_trans (ih h) (Nat.le_add_left _ _)

section Unfold
variable (t : Tree) {depth : Nat} {m : Mark} {a : Option Nat}

theorem unfold_scalar (depth : Nat) (m : Mark) (a : Option Nat) (s : Scalar) :
    t.unfold depth (.scalar m a s) = .scalar (.scalar s) := by
  cases depth <;> rfl

theorem unfold_list (depth : Nat) (m : Mark) (a : Option Nat) (ns : List Node) :
    t.unfold (depth + 1) (.list m a ns) = .list (ns.map (t.unfold depth)) := by
  rw [Tree.unfold.eq_def]
  rfl

theorem unfold_map (depth : Nat) (m : Mark) (a : Option Nat) (es : List (Node × Node)) :
    t.unfold (depth + 1) (.map m a es) =
      .map (es.map fun e => (t.key? e.1, t.unfold depth e.2)) := by
  rw [Tree.unfold.eq_def]
  rfl

end Unfold

mutual

/-- What spells a content with nothing but texts for keys is, unfolded deep enough, the content. -/
theorem rearranged_of_spells (t : Tree) : ∀ (c : Content) {n : Node} {depth : Nat}, n.Spells c →
    c.AllKeys (Core.resolve · = .text) → n.size ≤ depth →
      ((t.unfold depth n).relabel keyDatum datum).Rearranged (Value.ofContent c)
  | .flag b, _, depth, .flag m _, _, _ => by
    rw [unfold_scalar]
    cases b <;> exact .scalar _
  | .text s, _, depth, .text m _, _, _ => by
    rw [unfold_scalar, Document.Tree.relabel, datum, datum_of_style]
    exact .scalar _
  | .list cs, _, depth, .list m hspells, .list hkeys, hsize => by
    rw [Node.size] at hsize
    obtain ⟨d, rfl⟩ : ∃ d, depth = d + 1 := ⟨depth - 1, by omega⟩
    rw [unfold_list, Document.Tree.relabel, Document.Tree.relabelItems_eq, List.map_map]
    refine .list (List.forall₂_map_left_iff.2 (items_rearranged_of_spells t cs hspells hkeys fun n hn => ?_))
    have hle := size_le_sizeItems hn
    omega
  | .map es, _, depth, .map m hspells, .map hkeys hvalues, hsize => by
    rw [Node.size] at hsize
    obtain ⟨d, rfl⟩ : ∃ d, depth = d + 1 := ⟨depth - 1, by omega⟩
    rw [unfold_map, Document.Tree.relabel, Document.Tree.relabelEntries_eq, List.map_map]
    refine .of_sameEntry (.refl _) (List.forall₂_map_left_iff.2
      (entries_rearranged_of_spells t es hspells hkeys hvalues fun e he => ?_))
    have hle := size_le_sizeEntries he
    omega

theorem items_rearranged_of_spells (t : Tree) : ∀ (cs : List Content) {ns : List Node} {depth : Nat},
    List.Forall₂ Node.Spells ns cs → (∀ c ∈ cs, c.AllKeys (Core.resolve · = .text)) →
      (∀ n ∈ ns, n.size ≤ depth) →
      List.Forall₂ (fun n => ((t.unfold depth n).relabel keyDatum datum).Rearranged) ns
        (Value.ofItems cs)
  | [], _, _, .nil, _, _ => .nil
  | c :: cs, _, _, .cons h hs, hkeys, hsize =>
    have hkeys := List.forall_mem_cons.1 hkeys
    have hsize := List.forall_mem_cons.1 hsize
    .cons (rearranged_of_spells t c h hkeys.1 hsize.1)
      (items_rearranged_of_spells t cs hs hkeys.2 hsize.2)

theorem entries_rearranged_of_spells (t : Tree) : ∀ (es : List (String × Content))
    {entries : List (Node × Node)} {depth : Nat}, Node.SpellEntries entries es →
      (∀ e ∈ es, Core.resolve e.1 = .text) → (∀ e ∈ es, e.2.AllKeys (Core.resolve · = .text)) →
      (∀ e ∈ entries, e.2.size ≤ depth) →
      List.Forall₂ (fun e => Document.Tree.SameEntry (keyDatum (t.key? e.1),
        (t.unfold depth e.2).relabel keyDatum datum)) entries (Value.ofEntries es)
  | [], _, _, .nil, _, _, _ => .nil
  | (k, c) :: es, _, _, .cons m _ h hs, hkeys, hvalues, hsize => by
    obtain ⟨hkey, hkeys⟩ := List.forall_mem_cons.1 hkeys
    obtain ⟨hvalue, hvalues⟩ := List.forall_mem_cons.1 hvalues
    obtain ⟨hone, hsize⟩ := List.forall_mem_cons.1 hsize
    refine .cons ⟨?_, rearranged_of_spells t c h hvalue hone⟩
      (entries_rearranged_of_spells t es hs hkeys hvalues hsize)
    change plainDatum k = _
    rw [plainDatum, hkey]

end

end Yaml

/-! ## The value of a text -/

namespace Format

def keyDatum : (f : Format) → f.Key → Datum
  | json => Json.keyDatum
  | toml => .text
  | yaml => Yaml.keyDatum

def datum : (f : Format) → f.Scalar → Datum
  | json => Json.datum
  | toml => Toml.datum
  | yaml => Yaml.datum

end Format

/-- What a text is read as where nothing in particular is asked for. -/
def value? (f : Format) (text : String) : Option Value :=
  (tree? f text).map (·.relabel f.keyDatum f.datum)

/-- No key of a site is taken for anything but a text in YAML. -/
theorem allKeys_ofSite (s : Site) : (Content.ofSite s).AllKeys (Yaml.Core.resolve · = .text) := by
  have htext : Yaml.Core.resolve "text" = .text := by decide
  have hlink : Yaml.Core.resolve "link" = .text := by decide
  have hcollapsible : Yaml.Core.resolve "collapsible" = .text := by decide
  have hitems : Yaml.Core.resolve "items" = .text := by decide
  have htitle : Yaml.Core.resolve "title" = .text := by decide
  have hdescription : Yaml.Core.resolve "description" = .text := by decide
  have hbasePath : Yaml.Core.resolve "basePath" = .text := by decide
  have hsidebar : Yaml.Core.resolve "sidebar" = .text := by decide
  have hitem : ∀ it, (Content.ofItem it).AllKeys (Yaml.Core.resolve · = .text) := fun it =>
    .map (List.forall_mem_cons.2 ⟨htext, List.forall_mem_singleton.2 hlink⟩)
      (List.forall_mem_cons.2 ⟨.text _, List.forall_mem_singleton.2 (.text _)⟩)
  have hgroup : ∀ g, (Content.ofGroup g).AllKeys (Yaml.Core.resolve · = .text) := fun g => by
    have hlist : (Content.list (g.items.map .ofItem)).AllKeys (Yaml.Core.resolve · = .text) :=
      .list (List.forall_mem_map.2 fun it _ => hitem it)
    rw [Content.ofGroup]
    cases g.collapsible with
    | none =>
      exact .map (List.forall_mem_cons.2 ⟨htext, List.forall_mem_singleton.2 hitems⟩)
        (List.forall_mem_cons.2 ⟨.text _, List.forall_mem_singleton.2 hlist⟩)
    | some b =>
      refine .map (List.forall_mem_cons.2 ⟨htext, List.forall_mem_cons.2 ⟨hcollapsible, ?_⟩⟩)
        (List.forall_mem_cons.2 ⟨.text _, List.forall_mem_cons.2 ⟨.flag _, ?_⟩⟩)
      · exact List.forall_mem_singleton.2 hitems
      · exact List.forall_mem_singleton.2 hlist
  refine .map ?_ ?_
  · simp only [List.forall_mem_cons]
    exact ⟨htitle, hdescription, hbasePath, hsidebar, List.forall_mem_nil _⟩
  · simp only [List.forall_mem_cons]
    exact ⟨.text _, .text _, .text _, .list (List.forall_mem_map.2 fun g _ => hgroup g),
      List.forall_mem_nil _⟩

/-- What is written for a site is the same value in every format. -/
theorem value?_encode (f : Format) (s : Site) :
    ∃ v, value? f (encode f s) = some v ∧ v.Rearranged (Value.ofContent (.ofSite s)) := by
  cases f with
  | json =>
    have hnone : ∀ c ∈ ([] : List Char), Json.isBlank c = true := nofun
    have hread := Json.read_append hnone (.ofSite s)
    rw [List.append_nil] at hread
    obtain ⟨root, hread, hshows⟩ := hread
    obtain ⟨t, ht, hvalue⟩ := Json.exists_tree?_of_shows _ hshows
    refine ⟨_, ?_, hvalue⟩
    rw [value?, tree?, encode, Json.write, Json.tree?, String.toList_ofList, hread]
    simp only [ht]
    rfl
  | toml =>
    obtain ⟨n, hread, hshows⟩ := Toml.exists_read_writeChars s
    refine ⟨_, ?_, Toml.rearranged_of_shows _ hshows⟩
    rw [value?, tree?, encode, Toml.write, String.toList_ofList, hread]
    rfl
  | yaml =>
    obtain ⟨t, hread, hspells⟩ := Yaml.exists_tree_spells s
    refine ⟨_, ?_, Yaml.rearranged_of_spells t _ hspells (allKeys_ofSite s) (Nat.le_add_right _ siteDepth)⟩
    rw [value?, tree?, encode, Yaml.write, String.toList_ofList, hread]
    rfl

end SiteNav
