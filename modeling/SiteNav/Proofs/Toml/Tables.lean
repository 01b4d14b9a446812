import SiteNav.Proofs.Toml.Entries
import SiteNav.Proofs.Toml.Lines

/-!
# Carrying out lines

What lines do under a header they do to the last of the tables it leads to, in the way in which they
would do it to a root table if the header were left off. So lists of tables are built level by level:
each header adds an empty table, and what is said about it until the next header fills it.
-/
namespace SiteNav.Toml
open Document

section Levels
variable {es inner inner' : Entries} {l : List (String × Node)} {k : String} {sp s : Span} {o : Origin}
  {done : List Node}

theorem update_last {change : Entries → Option Entries} {key : Key} {path : List Key}
    (hget : es.get? key.name = some (.array sp true (done ++ [.table s o inner])))
    (hinner : inner.update false change path = some inner') :
    es.update false change (key :: path) =
      some (es.set key.name (.array sp true (done ++ [.table s o inner']))) := by
  simp [Entries.update, hget, hinner]

/-- The same line with one more key in front of its header. -/
def Line.within (key : Key) : Line → Line
  | .assign k node => .assign k node
  | .table k span => .table ⟨key :: k.path, k.last⟩ span
  | .element k span => .element ⟨key :: k.path, k.last⟩ span

theorem Line.Says.exists_within {line : Line} {st : Statement} (h : line.Says (st.within k)) :
    ∃ (key : Key) (line' : Line), key.name = k ∧ line = line'.within key ∧ line'.Says st := by
  cases st with
  | assign name value =>
    cases line with
    | assign _ _ => exact ⟨⟨k, ⟨0, 0⟩⟩, _, rfl, rfl, h⟩
    | table _ _ => exact h.elim
    | element _ _ => exact h.elim
  | element path last =>
    cases line with
    | assign _ _ => exact h.elim
    | table _ _ => exact h.elim
    | element key span =>
      obtain ⟨keys, lastKey⟩ := key
      obtain ⟨hpath, hlast⟩ := h
      obtain ⟨key, keys, rfl, hkey, hkeys⟩ := List.map_eq_cons_iff.1 hpath
      exact ⟨key, .element ⟨keys, lastKey⟩ span, hkey, rfl, hkeys, hlast⟩

/-- A line does to the last of a list of tables what it does to a root table without the key of the
list. -/
theorem apply_within {line : Line} {key key' : Key} {header header' : List Key}
    (hname : key.name = k) (hname' : key'.name = k)
    (h : es.Holds (l ++ [(k, .array sp true (done ++ [.table s o inner]))]))
    (hstep : Builder.apply ⟨inner, header⟩ line = some ⟨inner', header'⟩) :
    ∃ es' key'', key''.name = k ∧
      Builder.apply ⟨es, key :: header⟩ (line.within key') = some ⟨es', key'' :: header'⟩ ∧
      es'.Holds (l ++ [(k, .array sp true (done ++ [.table s o inner']))]) := by
  have hget : es.get? k = some (.array sp true (done ++ [.table s o inner])) :=
    h.get?_eq_some (by simp)
  have hheld := h.replace (.array sp true (done ++ [.table s o inner']))
  cases line with
  | assign dotted node =>
    simp only [Builder.apply, Option.bind_eq_bind, Option.bind_eq_some_iff] at hstep
    obtain ⟨changed, hupdate, hsome⟩ := hstep
    cases hsome
    subst hname
    exact ⟨_, key, rfl, by simp [Builder.apply, Line.within, update_last hget hupdate], hheld⟩
  | table dotted span =>
    simp only [Builder.apply, Option.bind_eq_bind, Option.bind_eq_some_iff] at hstep
    obtain ⟨changed, hupdate, hsome⟩ := hstep
    cases hsome
    subst hname'
    exact ⟨_, key', rfl, by
      simp [Builder.apply, Line.within, Entries.openTable, update_last hget hupdate], hheld⟩
  | element dotted span =>
    simp only [Builder.apply, Option.bind_eq_bind, Option.bind_eq_some_iff] at hstep
    obtain ⟨changed, hupdate, hsome⟩ := hstep
    cases hsome
    subst hname'
    exact ⟨_, key', rfl, by
      simp [Builder.apply, Line.within, Entries.openElement, update_last hget hupdate], hheld⟩

theorem foldlM_apply_within {lines lines' : List Line} {key : Key} {header header' : List Key}
    (hlines : List.Forall₂ (fun line line' : Line => ∃ key : Key, key.name = k ∧
      line = line'.within key) lines lines') (hname : key.name = k)
    (h : es.Holds (l ++ [(k, .array sp true (done ++ [.table s o inner]))]))
    (hfold : lines'.foldlM Builder.apply ⟨inner, header⟩ = some ⟨inner', header'⟩) :
    ∃ es' key', lines.foldlM Builder.apply ⟨es, key :: header⟩ = some ⟨es', key' :: header'⟩ ∧
      es'.Holds (l ++ [(k, .array sp true (done ++ [.table s o inner']))]) := by
  induction hlines generalizing es inner key header with
  | nil =>
    cases hfold
    exact ⟨es, key, rfl, h⟩
  | cons hline _ ih =>
    obtain ⟨key', hname', rfl⟩ := hline
    rw [List.foldlM_cons] at hfold
    obtain ⟨⟨inner₁, header₁⟩, hstep, hrest⟩ := Option.bind_eq_some_iff.1 hfold
    obtain ⟨es₁, key₁, hname₁, hstep₁, h₁⟩ := apply_within hname hname' h hstep
    obtain ⟨es', key'', hfold', h'⟩ := ih hname₁ h₁ hrest
    refine ⟨es', key'', ?_, h'⟩
    rw [List.foldlM_cons, hstep₁]
    exact hfold'

end Levels

/-- Lines that say the statements, under a header of the given names, turn a table into one that meets
`goal`. -/
def Builds (sts : List Statement) (names : List String) (es : Entries) (goal : Entries → Prop) :
    Prop :=
  ∀ lines header, List.Forall₂ Line.Says lines sts → header.map Key.name = names →
    ∃ es' header', lines.foldlM Builder.apply ⟨es, header⟩ = some ⟨es', header'⟩ ∧ goal es'

namespace Builds
variable {es : Entries} {l : List (String × Node)} {k : String} {rest : List Statement}
  {goal : Entries → Prop}

theorem nil {names : List String} (h : goal es) : Builds [] names es goal := by
  rintro _ header (_ | _) _
  exact ⟨es, header, rfl, h⟩

theorem assign {c : Content} (h : es.Holds l) (hk : k ∉ l.map (·.1))
    (hrest : ∀ es' node, es'.Holds (l ++ [(k, node)]) → dialect.Shows node c →
      Builds rest [] es' goal) : Builds (.assign k c :: rest) [] es goal := by
  rintro _ header (_ | @⟨line, _, lines, _, hline, hlines⟩) hheader
  cases line with
  | table _ _ => exact hline.elim
  | element _ _ => exact hline.elim
  | assign key node =>
    obtain ⟨path, last⟩ := key
    obtain ⟨rfl, rfl, hshow⟩ := hline
    obtain rfl := List.map_eq_nil_iff.1 hheader
    obtain ⟨es', header', hfold, hgoal⟩ :=
      hrest _ node (h.add hk node) hshow lines [] hlines rfl
    refine ⟨es', header', ?_, hgoal⟩
    have hstep : Builder.apply ⟨es, []⟩ (.assign ⟨[], last⟩ node) =
        some ⟨es.set last.name node, []⟩ := by
      simp [Builder.apply, Entries.update, Entries.assign, Entries.add, h.get?_eq_none hk]
    rw [List.foldlM_cons, hstep]
    exact hfold

/-- A list of tables holds the ones that are done; before the first one it is not there. -/
def HoldsTables (es : Entries) (l : List (String × Node)) (k : String) (done : List Node) : Prop :=
  (done = [] ∧ es.Holds l) ∨ ∃ sp, es.Holds (l ++ [(k, .array sp true done)])

theorem element {names : List String} {done : List Node} (hk : k ∉ l.map (·.1))
    (h : HoldsTables es l k done)
    (hrest : ∀ es' sp s, es'.Holds (l ++ [(k, .array sp true (done ++ [.table s .header []]))]) →
      Builds rest [k] es' goal) : Builds (.element [] k :: rest) names es goal := by
  rintro _ header (_ | @⟨line, _, lines, _, hline, hlines⟩) hheader
  cases line with
  | table _ _ => exact hline.elim
  | assign _ _ => exact hline.elim
  | element key span =>
    obtain ⟨path, last⟩ := key
    obtain ⟨hpath, rfl⟩ := hline
    obtain rfl := List.map_eq_nil_iff.1 hpath
    obtain ⟨es₁, sp, hstep, h₁⟩ : ∃ es₁ sp,
        Builder.apply ⟨es, header⟩ (.element ⟨[], last⟩ span) = some ⟨es₁, [last]⟩ ∧
          es₁.Holds (l ++ [(last.name, .array sp true (done ++ [.table span .header []]))]) := by
      rcases h with ⟨rfl, h⟩ | ⟨sp, h⟩
      · refine ⟨_, span, ?_, h.add hk _⟩
        simp [Builder.apply, Entries.openElement, Entries.update, h.get?_eq_none hk]
      · have hget : es.get? last.name = some (.array sp true done) := h.get?_eq_some (by simp)
        refine ⟨_, sp, ?_, h.replace _⟩
        simp [Builder.apply, Entries.openElement, Entries.update, hget]
    obtain ⟨es', header', hfold, hgoal⟩ := hrest es₁ sp span h₁ lines [last] hlines rfl
    refine ⟨es', header', ?_, hgoal⟩
    rw [List.foldlM_cons, hstep]
    exact hfold

theorem exists_within {lines : List Line} {body : List Statement}
    (h : List.Forall₂ Line.Says lines (body.map (.within k))) :
    ∃ lines', List.Forall₂ (fun line line' : Line => ∃ key : Key, key.name = k ∧
      line = line'.within key) lines lines' ∧ List.Forall₂ Line.Says lines' body := by
  induction body generalizing lines with
  | nil =>
    obtain _ | _ := h
    exact ⟨[], .nil, .nil⟩
  | cons st body ih =>
    obtain _ | ⟨hline, hlines⟩ := h
    obtain ⟨key, line', hkey, hline', hsays⟩ := hline.exists_within
    obtain ⟨lines', hwithin, hsays'⟩ := ih hlines
    exact ⟨line' :: lines', .cons ⟨key, hkey, hline'⟩ hwithin, .cons hsays hsays'⟩

/-- What is said about the last table of a list fills it as it would fill a root table. -/
theorem within {inner : Entries} {body : List Statement} {filled : Entries → Prop} {sp s : Span}
    {done : List Node} (hbody : Builds body [] inner filled)
    (h : es.Holds (l ++ [(k, .array sp true (done ++ [.table s .header inner]))]))
    (hrest : ∀ names es' inner', filled inner' →
      es'.Holds (l ++ [(k, .array sp true (done ++ [.table s .header inner']))]) →
      Builds rest names es' goal) : Builds (body.map (.within k) ++ rest) [k] es goal := by
  intro lines header hlines hheader
  obtain ⟨key, _, rfl, hkey, hnil⟩ := List.map_eq_cons_iff.1 hheader
  obtain rfl := List.map_eq_nil_iff.1 hnil
  have hbodyLines := List.forall₂_take_append _ _ _ hlines
  have hrestLines := List.forall₂_drop_append _ _ _ hlines
  obtain ⟨lines', hwithin, hsays⟩ := exists_within hbodyLines
  obtain ⟨inner', header', hfold, hfilled⟩ := hbody lines' [] hsays rfl
  obtain ⟨es₁, key', hfold₁, h₁⟩ := foldlM_apply_within hwithin hkey h hfold
  obtain ⟨es', header'', hfold', hgoal⟩ :=
    hrest _ es₁ inner' hfilled h₁ _ (key' :: header') hrestLines rfl
  refine ⟨es', header'', ?_, hgoal⟩
  rw [← List.take_append_drop (body.map (Statement.within k)).length lines, List.foldlM_append, hfold₁]
  exact hfold'

section Tables
variable {α : Type} {body : α → List Statement} {content : α → Content}

theorem flatMap
    (hbody : ∀ a, Builds (body a) [] [] fun inner =>
      ∀ s, dialect.Shows (.table s .header inner) (content a))
    (hk : k ∉ l.map (·.1)) (as : List α) {done : List Node} {cs : List Content}
    (hdone : dialect.ShowsItems done cs) (names : List String) (h : HoldsTables es l k done) :
    Builds ((as.map body).flatMap fun b => .element [] k :: b.map (.within k)) names es fun es' =>
      ∃ done', HoldsTables es' l k done' ∧ dialect.ShowsItems done' (cs ++ as.map content) := by
  induction as generalizing es done cs names with
  | nil => exact nil ⟨done, h, by simpa using hdone⟩
  | cons a as ih =>
    rw [List.map_cons, List.flatMap_cons, List.cons_append]
    refine element hk h fun es₁ sp s h₁ => ?_
    refine within (hbody a) h₁ fun names es₂ inner hshow h₂ => ?_
    have hrest := ih (hdone.concat (hshow s)) names (.inr ⟨sp, h₂⟩)
    rwa [List.append_assoc, List.singleton_append] at hrest

theorem mono {sts : List Statement} {names : List String} {goal' : Entries → Prop}
    (h : Builds sts names es goal) (hgoal : ∀ es', goal es' → goal' es') :
    Builds sts names es goal' := fun lines header hlines hheader =>
  let ⟨es', header', hfold, h'⟩ := h lines header hlines hheader
  ⟨es', header', hfold, hgoal es' h'⟩

/-- Whether written in place or one table after the other, a list is there afterwards. -/
theorem tables
    (hbody : ∀ a, Builds (body a) [] [] fun inner =>
      ∀ s, dialect.Shows (.table s .header inner) (content a))
    (h : es.Holds l) (hk : k ∉ l.map (·.1)) (as : List α) :
    Builds (Statement.tables k (as.map body)) [] es fun es' =>
      ∃ node, es'.Holds (l ++ [(k, node)]) ∧ dialect.Shows node (.list (as.map content)) := by
  cases as with
  | nil => exact assign h hk fun es' node h' hshow => nil ⟨node, h', hshow⟩
  | cons a as =>
    have hnone : dialect.ShowsItems [] [] := trivial
    refine (flatMap hbody hk (a :: as) hnone [] (.inl ⟨rfl, h⟩)).mono ?_
    rintro es' ⟨done, ⟨rfl, _⟩ | ⟨sp, h'⟩, hshow⟩
    · exact hshow.elim
    · exact ⟨_, h', _, done, rfl, rfl, hshow⟩

end Tables

theorem ofItem (it : Item) : Builds (Statement.ofItem it) [] [] fun es =>
    ∀ s, dialect.Shows (.table s .header es) (.ofItem it) := by
  refine assign .nil (by simp) fun es₁ text h₁ htext => ?_
  refine assign h₁ (by simp) fun es₂ link h₂ hlink => nil fun s => ?_
  exact ⟨_, es₂, _, rfl, rfl, h₂.perm.symm, fun _ _ => rfl, htext, fun _ _ => rfl, hlink, trivial⟩

theorem ofGroup (g : Group) : Builds (Statement.ofGroup g) [] [] fun es =>
    ∀ s, dialect.Shows (.table s .header es) (.ofGroup g) := by
  obtain ⟨text, collapsible, items⟩ := g
  refine assign .nil (by simp) fun es₁ text h₁ htext => ?_
  cases collapsible with
  | none =>
    refine (tables ofItem h₁ (by simp) items).mono ?_
    rintro es' ⟨items, h, hitems⟩ s
    exact ⟨_, es', _, rfl, rfl, h.perm.symm, fun _ _ => rfl, htext, fun _ _ => rfl, hitems, trivial⟩
  | some b =>
    refine assign h₁ (by simp) fun es₂ collapsible h₂ hcollapsible => ?_
    refine (tables ofItem h₂ (by simp) items).mono ?_
    rintro es' ⟨items, h, hitems⟩ s
    exact ⟨_, es', _, rfl, rfl, h.perm.symm, fun _ _ => rfl, htext, fun _ _ => rfl, hcollapsible,
      fun _ _ => rfl, hitems, trivial⟩

theorem ofSite (site : Site) : Builds (Statement.ofSite site) [] [] fun es =>
    ∀ s, dialect.Shows (.table s .header es) (.ofSite site) := by
  refine assign .nil (by simp) fun es₁ title h₁ htitle => ?_
  refine assign h₁ (by simp) fun es₂ description h₂ hdescription => ?_
  refine assign h₂ (by simp) fun es₃ basePath h₃ hbasePath => ?_
  refine (tables ofGroup h₃ (by simp) site.sidebar).mono ?_
  rintro es' ⟨sidebar, h, hsidebar⟩ s
  exact ⟨_, es', _, rfl, rfl, h.perm.symm, fun _ _ => rfl, htitle, fun _ _ => rfl, hdescription,
    fun _ _ => rfl, hbasePath, fun _ _ => rfl, hsidebar, trivial⟩

end Builds

/-- A written site is read as a tree that shows it. -/
theorem exists_read_writeChars (s : Site) :
    ∃ node, read (writeChars s) = some node ∧ dialect.Shows node (.ofSite s) := by
  obtain ⟨lines, hlines, hsays⟩ := spells_writeChars s ((writeChars s).length + 1) (by omega)
  obtain ⟨es, header, hfold, hshow⟩ := Builds.ofSite s lines [] hsays rfl
  refine ⟨.table ⟨(writeChars s).length, (writeChars s).length⟩ .header es, ?_, hshow _⟩
  have hmark : dropMark (writeChars s) = writeChars s := by
    unfold writeChars
    rw [List.append_assoc, List.append_assoc, assignment_append]
    rfl
  simp only [read, hmark, hlines, hfold, Option.bind_eq_bind, Option.bind_some]
  rfl

end SiteNav.Toml
