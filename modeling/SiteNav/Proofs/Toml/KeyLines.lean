import SiteNav.Proofs.Toml.Entries
import SiteNav.Proofs.Toml.Passing

/-!
# The lines that values start on

The value of a key starts on the line on which the key is written, or under a header with the key in it.
An array may go on over more lines, so its elements are only known to come behind the key. Whatever a
text does to its tables keeps this so. Main statement: it holds of all entries of a document.
-/
namespace SiteNav.Toml
open Literal (dropBlanks)

/-- A key with the name is written on the line on which so much of the text is left. -/
def OnLine (text : List Char) (name : String) (left : Nat) : Prop :=
  ∃ before front back after key, text = before ++ (front ++ (back ++ after)) ∧
    left = (back ++ after).length ∧ '\n' ∉ front ++ back ∧ SpellsKey key name ∧ key <:+: front ++ back

/-- A key with the name is written before what is left of the text. -/
def Ahead (text : List Char) (name : String) (left : List Char) : Prop :=
  ∃ key between, key ++ (between ++ left) <:+ text ∧ SpellsKey key name

/-- A key with the name is written on the line of a node or before it. -/
def Near (text : List Char) (name : String) (left : Nat) : Prop :=
  OnLine text name left ∨ ∃ after, left = after.length ∧ Ahead text name after

/-- A value and its elements, which belong to a key with the name. The tables in it have entries on the
lines of their keys. -/
inductive Keyed (text : List Char) : String → Node → Prop
  | scalar {name : String} {span : Span} (value : Scalar) (h : Near text name span.start) :
      Keyed text name (.scalar span value)
  | array {name : String} {span : Span} {ofTables : Bool} {items : List Node}
      (h : Near text name span.start) (hitems : ∀ n ∈ items, Keyed text name n) :
      Keyed text name (.array span ofTables items)
  | table {name : String} {span : Span} {origin : Origin} {es : List (String × Node)}
      (h : Near text name span.start) (hlines : ∀ e ∈ es, OnLine text e.1 e.2.span.start)
      (hes : ∀ e ∈ es, Keyed text e.1 e.2) : Keyed text name (.table span origin es)

/-- All entries stand on the lines of their keys. -/
structure Entries.AllKeyed (text : List Char) (es : Entries) : Prop where
  lines : ∀ e ∈ es, OnLine text e.1 e.2.span.start
  inner : ∀ e ∈ es, Keyed text e.1 e.2

variable {text : List Char} {name : String}

theorem Keyed.items {span : Span} {ofTables : Bool} {items : List Node}
    (h : Keyed text name (.array span ofTables items)) : ∀ n ∈ items, Keyed text name n := by
  cases h
  assumption

theorem Keyed.entries {span : Span} {origin : Origin} {es : Entries}
    (h : Keyed text name (.table span origin es)) : es.AllKeyed text := by
  cases h
  constructor <;> assumption

theorem Entries.AllKeyed.table {span : Span} {es : Entries} (hes : es.AllKeyed text)
    (h : Near text name span.start) (origin : Origin) : Keyed text name (.table span origin es) :=
  .table h hes.lines hes.inner

theorem Keyed.near {n : Node} (h : Keyed text name n) : Near text name n.span.start := by
  cases h <;> assumption

theorem Ahead.isSuffix {left : List Char} (h : Ahead text name left) : left <:+ text := by
  obtain ⟨key, between, hsuffix, -⟩ := h
  rw [← List.append_assoc] at hsuffix
  exact (List.suffix_append _ left).trans hsuffix

theorem Ahead.mono {left left' : List Char} (h : Ahead text name left) (hleft : left' <:+ left) :
    Ahead text name left' := by
  obtain ⟨key, between, hsuffix, hkey⟩ := h
  obtain ⟨more, rfl⟩ := hleft
  refine ⟨key, between ++ more, ?_, hkey⟩
  rwa [List.append_assoc]

/-! ## Tables -/

namespace Entries
variable {es es' : Entries} {n : Node}

theorem AllKeyed.nil : AllKeyed text [] :=
  ⟨List.forall_mem_nil _, List.forall_mem_nil _⟩

theorem AllKeyed.set (h : es.AllKeyed text) (hline : OnLine text name n.span.start)
    (hn : Keyed text name n) : (es.set name n).AllKeyed text := by
  constructor
  · intro e he
    rcases mem_set he with rfl | he
    · exact hline
    · exact h.lines e he
  · intro e he
    rcases mem_set he with rfl | he
    · exact hn
    · exact h.inner e he

theorem AllKeyed.get? (h : es.AllKeyed text) (hn : es.get? name = some n) :
    OnLine text name n.span.start ∧ Keyed text name n := by
  induction es with
  | nil => cases hn
  | cons e es ih =>
    obtain ⟨k, node⟩ := e
    obtain ⟨hlines, hinner⟩ := h
    rw [List.forall_mem_cons] at hlines hinner
    rw [Entries.get?] at hn
    by_cases hk : k = name
    · rw [if_pos hk] at hn
      cases hn
      exact hk ▸ ⟨hlines.1, hinner.1⟩
    · rw [if_neg hk] at hn
      exact ih ⟨hlines.2, hinner.2⟩ hn

/-- A change keeps the entries on the lines of their keys. -/
def KeepsLines (text : List Char) (change : Entries → Option Entries) : Prop :=
  ∀ es es', es.AllKeyed text → change es = some es' → es'.AllKeyed text

/-- By induction on the path: a table on the way stays where it is, and a new one starts at its key. -/
theorem KeepsLines.update {change : Entries → Option Entries} (hchange : KeepsLines text change)
    (dotted : Bool) {path : List Key} (hpath : ∀ k ∈ path, OnLine text k.name k.span.start) :
    KeepsLines text (Entries.update dotted change path) := by
  induction path with
  | nil => exact hchange
  | cons k path ih =>
    obtain ⟨hk, hpath⟩ := List.forall_mem_cons.1 hpath
    have ih := ih hpath
    intro es es' hes h
    simp only [Entries.update] at h
    split at h
    · obtain ⟨inner, hinner, ⟨⟩⟩ := Option.bind_eq_some_iff.1 h
      exact hes.set hk ((ih _ _ .nil hinner).table (.inl hk) _)
    · rename_i span origin inner hget
      obtain ⟨hline, hn⟩ := hes.get? hget
      split at h
      · cases h
      · obtain ⟨inner', hinner, ⟨⟩⟩ := Option.bind_eq_some_iff.1 h
        exact hes.set hline ((ih _ _ hn.entries hinner).table hn.near _)
    · rename_i span items hget
      obtain ⟨hline, hn⟩ := hes.get? hget
      have hitems := hn.items
      split at h
      · cases h
      · split at h
        · rename_i s o inner others hreverse
          have hmem : ∀ n ∈ Node.table s o inner :: others, n ∈ items := fun n hn =>
            List.mem_reverse.1 (hreverse ▸ hn)
          have hlast := hitems _ (hmem _ List.mem_cons_self)
          obtain ⟨inner', hinner, ⟨⟩⟩ := Option.bind_eq_some_iff.1 h
          refine hes.set hline (.array hn.near ?_)
          intro n hn
          rcases List.mem_append.1 hn with hn | hn
          · exact hitems n (hmem n (List.mem_cons_of_mem _ (List.mem_reverse.1 hn)))
          · rw [List.mem_singleton.1 hn]
            exact (ih _ _ hlast.entries hinner).table hlast.near _
        · cases h
    · cases h

theorem keepsLines_add {k : Key} (hline : OnLine text k.name n.span.start) (hn : Keyed text k.name n) :
    KeepsLines text (·.add k n) := by
  intro es es' hes h
  simp only [add] at h
  split at h
  · cases h
    exact hes.set hline hn
  · cases h

theorem keepsLines_assign {path : List Key} {last : Key}
    (hpath : ∀ k ∈ path, OnLine text k.name k.span.start) (hline : OnLine text last.name n.span.start)
    (hn : Keyed text last.name n) : KeepsLines text (·.assign path last n) :=
  (keepsLines_add hline hn).update true hpath

theorem keepsLines_openTable {path : List Key} {last : Key} {span : Span}
    (hpath : ∀ k ∈ path, OnLine text k.name k.span.start) (hline : OnLine text last.name span.start) :
    KeepsLines text (·.openTable path last span) := by
  refine KeepsLines.update (fun es es' hes h => ?_) false hpath
  split at h
  · cases h
    exact hes.set hline (AllKeyed.nil.table (.inl hline) _)
  · rename_i hget
    cases h
    exact hes.set hline ((hes.get? hget).2.entries.table (.inl hline) _)
  · cases h

theorem keepsLines_openElement {path : List Key} {last : Key} {span : Span}
    (hpath : ∀ k ∈ path, OnLine text k.name k.span.start) (hline : OnLine text last.name span.start) :
    KeepsLines text (·.openElement path last span) := by
  have hnew : Keyed text last.name (.table span .header []) := AllKeyed.nil.table (.inl hline) _
  refine KeepsLines.update (fun es es' hes h => ?_) false hpath
  split at h
  · cases h
    exact hes.set hline (.array (.inl hline) (List.forall_mem_singleton.2 hnew))
  · rename_i hget
    obtain ⟨hfirst, hn⟩ := hes.get? hget
    cases h
    refine hes.set hfirst (.array hn.near ?_)
    intro n hmem
    rcases List.mem_append.1 hmem with hmem | hmem
    · exact hn.items n hmem
    · rw [List.mem_singleton.1 hmem]
      exact hnew
  · cases h

end Entries

/-! ## Keys -/

section Keys
variable {cs word rest : List Char} {k : Key}

/-- A key in what is passed over on one line stands on the line of all that is left from there on. -/
theorem KeyIn.onLine_start (h : KeyIn word rest k) (hcs : word ++ rest <:+ text) (hword : '\n' ∉ word) :
    OnLine text k.name k.span.start := by
  obtain ⟨front, key, back, rfl, hkey, hstart⟩ := h
  obtain ⟨before, rfl⟩ := hcs
  refine ⟨before, front, key ++ back, rest, key, by simp, ?_, hword, hkey, ?_⟩
  · rw [hstart, List.append_assoc]
  · exact (List.prefix_append key back).isInfix.trans (List.suffix_append front _).isInfix

theorem KeyIn.onLine_of_front (h : KeyIn word rest k) (hcs : word ++ rest <:+ text) (hword : '\n' ∉ word) :
    OnLine text k.name (word ++ rest).length := by
  obtain ⟨front, key, back, rfl, hkey, -⟩ := h
  obtain ⟨before, rfl⟩ := hcs
  refine ⟨before, [], front ++ (key ++ back), rest, key, by simp, rfl, hword, hkey, ?_⟩
  exact (List.prefix_append key back).isInfix.trans (List.suffix_append front _).isInfix

theorem KeyIn.onLine_of_back (h : KeyIn word rest k) (hcs : word ++ rest <:+ text) (hword : '\n' ∉ word) :
    OnLine text k.name rest.length := by
  obtain ⟨front, key, back, rfl, hkey, -⟩ := h
  obtain ⟨before, rfl⟩ := hcs
  refine ⟨before, front ++ (key ++ back), [], rest, key, by simp, rfl, by simpa using hword, hkey, ?_⟩
  rw [List.append_nil]
  exact (List.prefix_append key back).isInfix.trans (List.suffix_append front _).isInfix

theorem KeyIn.ahead (h : KeyIn word rest k) (hcs : word ++ rest <:+ text) : Ahead text k.name rest := by
  obtain ⟨front, key, back, rfl, hkey, -⟩ := h
  refine ⟨key, back, ?_, hkey⟩
  rw [List.append_assoc, List.append_assoc] at hcs
  exact (List.suffix_append front _).trans hcs

end Keys

/-- What the scanners make with some fuel stands near its keys, and they leave the end of the text. -/
structure ScansKeyed (text : List Char) (fuel : Nat) : Prop where
  value : ∀ {depth cs n rest name}, scanValue fuel depth cs = some (n, rest) → Ahead text name cs →
    Keyed text name n ∧ n.span.start = cs.length ∧ rest <:+ cs
  items : ∀ {depth cs ns rest name}, scanItems fuel depth cs = some (ns, rest) → Ahead text name cs →
    (∀ n ∈ ns, Keyed text name n) ∧ rest <:+ cs
  entries : ∀ {depth es cs es' rest}, scanEntries fuel depth es cs = some (es', rest) → cs <:+ text →
    es.AllKeyed text → es'.AllKeyed text ∧ rest <:+ cs
  assignment : ∀ {depth cs key n rest}, scanAssignment fuel depth cs = some ((key, n), rest) →
    cs <:+ text → (∀ k ∈ key.path, OnLine text k.name k.span.start) ∧
      OnLine text key.last.name n.span.start ∧ Keyed text key.last.name n ∧ rest <:+ cs

section Scanning
variable {fuel depth : Nat} {cs rest : List Char}

theorem ScansKeyed.succ_value (h : ScansKeyed text fuel) {n : Node}
    (hscan : scanValue (fuel + 1) depth cs = some (n, rest)) (hcs : Ahead text name cs) :
    Keyed text name n ∧ n.span.start = cs.length ∧ rest <:+ cs := by
  have hnear : Near text name cs.length := .inr ⟨cs, rfl, hcs⟩
  unfold scanValue at hscan
  split at hscan
  · rename_i r
    split at hscan
    · obtain ⟨r', hgaps, hscan⟩ := Option.bind_eq_some_iff.1 hscan
      have hr : r' <:+ '[' :: r := (isSuffix_of_gaps hgaps).trans (List.suffix_cons _ r)
      obtain ⟨⟨ns, rest'⟩, hitems, ⟨⟩⟩ := Option.bind_eq_some_iff.1 hscan
      obtain ⟨hns, hrest⟩ := h.items hitems (hcs.mono hr)
      exact ⟨.array hnear hns, rfl, hrest.trans hr⟩
    · cases hscan
  · rename_i r
    split at hscan
    · obtain ⟨r', hgaps, hscan⟩ := Option.bind_eq_some_iff.1 hscan
      have hr : r' <:+ '\x7b' :: r := (isSuffix_of_gaps hgaps).trans (List.suffix_cons _ r)
      obtain ⟨⟨es, rest'⟩, hentries, ⟨⟩⟩ := Option.bind_eq_some_iff.1 hscan
      obtain ⟨hes, hrest⟩ := h.entries hentries (hr.trans hcs.isSuffix) .nil
      exact ⟨hes.table hnear _, rfl, hrest.trans hr⟩
    · cases hscan
  · obtain ⟨⟨s, rest'⟩, hs, ⟨⟩⟩ := Option.bind_eq_some_iff.1 hscan
    exact ⟨.scalar _ hnear, rfl, Literal.isSuffix_of_scan hs⟩
  · obtain ⟨⟨s, rest'⟩, hs, ⟨⟩⟩ := Option.bind_eq_some_iff.1 hscan
    exact ⟨.scalar _ hnear, rfl, Literal.isSuffix_of_scan hs⟩
  · obtain ⟨⟨s, rest'⟩, hs, ⟨⟩⟩ := Option.bind_eq_some_iff.1 hscan
    exact ⟨.scalar _ hnear, rfl, Bare.isSuffix_of_scan hs⟩

theorem ScansKeyed.succ_items (h : ScansKeyed text fuel) {ns : List Node}
    (hscan : scanItems (fuel + 1) depth cs = some (ns, rest)) (hcs : Ahead text name cs) :
    (∀ n ∈ ns, Keyed text name n) ∧ rest <:+ cs := by
  unfold scanItems at hscan
  split at hscan
  · cases hscan
    exact ⟨List.forall_mem_nil _, List.suffix_cons _ _⟩
  · obtain ⟨⟨n, rest₁⟩, hvalue, hscan⟩ := Option.bind_eq_some_iff.1 hscan
    obtain ⟨hn, -, hrest₁⟩ := h.value hvalue hcs
    obtain ⟨r, hgaps, hscan⟩ := Option.bind_eq_some_iff.1 hscan
    have hr : r <:+ cs := (isSuffix_of_gaps hgaps).trans hrest₁
    split at hscan
    · rename_i r'
      have hr' : r' <:+ cs := (List.suffix_cons _ r').trans hr
      obtain ⟨r'', hgaps', hscan⟩ := Option.bind_eq_some_iff.1 hscan
      have hr'' : r'' <:+ cs := (isSuffix_of_gaps hgaps').trans hr'
      obtain ⟨⟨ns', rest'⟩, hitems, ⟨⟩⟩ := Option.bind_eq_some_iff.1 hscan
      obtain ⟨hns, hrest⟩ := h.items hitems (hcs.mono hr'')
      exact ⟨List.forall_mem_cons.2 ⟨hn, hns⟩, hrest.trans hr''⟩
    · cases hscan
      exact ⟨List.forall_mem_singleton.2 hn, (List.suffix_cons _ _).trans hr⟩
    · cases hscan

theorem ScansKeyed.succ_entries (h : ScansKeyed text fuel) {es es' : Entries}
    (hscan : scanEntries (fuel + 1) depth es cs = some (es', rest)) (hcs : cs <:+ text)
    (hes : es.AllKeyed text) : es'.AllKeyed text ∧ rest <:+ cs := by
  unfold scanEntries at hscan
  split at hscan
  · cases hscan
    exact ⟨hes, List.suffix_cons _ _⟩
  · obtain ⟨⟨⟨key, n⟩, rest₁⟩, hassignment, hscan⟩ := Option.bind_eq_some_iff.1 hscan
    obtain ⟨hpath, hline, hn, hrest₁⟩ := h.assignment hassignment hcs
    obtain ⟨es₁, hassign, hscan⟩ := Option.bind_eq_some_iff.1 hscan
    have hes₁ := Entries.keepsLines_assign hpath hline hn _ _ hes hassign
    obtain ⟨r, hgaps, hscan⟩ := Option.bind_eq_some_iff.1 hscan
    have hr : r <:+ cs := (isSuffix_of_gaps hgaps).trans hrest₁
    split at hscan
    · rename_i r'
      obtain ⟨r'', hgaps', hscan⟩ := Option.bind_eq_some_iff.1 hscan
      have hr'' : r'' <:+ cs := (isSuffix_of_gaps hgaps').trans ((List.suffix_cons _ r').trans hr)
      obtain ⟨hes', hrest⟩ := h.entries hscan (hr''.trans hcs) hes₁
      exact ⟨hes', hrest.trans hr''⟩
    · cases hscan
      exact ⟨hes₁, (List.suffix_cons _ _).trans hr⟩
    · cases hscan

/-- Between a dotted key and the value that it is given there are only blanks and a sign. -/
theorem ScansKeyed.succ_assignment (h : ScansKeyed text fuel) {key : DottedKey} {n : Node}
    (hscan : scanAssignment (fuel + 1) depth cs = some ((key, n), rest)) (hcs : cs <:+ text) :
    (∀ k ∈ key.path, OnLine text k.name k.span.start) ∧
      OnLine text key.last.name n.span.start ∧ Keyed text key.last.name n ∧ rest <:+ cs := by
  unfold scanAssignment at hscan
  obtain ⟨⟨key', rest₁⟩, hkey, hnext⟩ := Option.bind_eq_some_iff.1 hscan
  obtain ⟨word, rfl, hword, hkeys⟩ := exists_of_scanDottedKey hkey
  dsimp only at hnext
  split at hnext
  · rename_i r hequals
    obtain ⟨⟨n', rest₂⟩, hvalue, ⟨⟩⟩ := Option.bind_eq_some_iff.1 hnext
    obtain ⟨gap, hgap, hgapline⟩ := inLine_dropBlanks rest₁
    obtain ⟨gap', hgap', hgapline'⟩ := inLine_dropBlanks r
    have hrest₁ : rest₁ = gap ++ '=' :: gap' ++ dropBlanks r := by
      rw [hgap, hequals, List.append_assoc, List.cons_append, ← hgap']
    have hword' : '\n' ∉ word ++ (gap ++ '=' :: gap') := by simp [hword, hgapline, hgapline']
    rw [hrest₁] at hkeys hcs
    rw [← List.append_assoc word] at hcs
    have hlast := (hkeys key.last (by simp)).append
    obtain ⟨hn, hstart, hrest⟩ := h.value hvalue (hlast.ahead hcs)
    refine ⟨fun k hk => ?_, hstart ▸ hlast.onLine_of_back hcs hword', hn, ?_⟩
    · exact (hkeys k (List.mem_append_left _ hk)).append.onLine_start hcs hword'
    · rw [hrest₁, ← List.append_assoc]
      exact List.suffix_append_of_suffix hrest
  · cases hnext

theorem scansKeyed (text : List Char) (fuel : Nat) : ScansKeyed text fuel := by
  induction fuel with
  | zero => constructor <;> intros <;> simp_all [scanValue, scanItems, scanEntries, scanAssignment]
  | succ fuel ih => exact ⟨ih.succ_value, ih.succ_items, ih.succ_entries, ih.succ_assignment⟩

/-! ## Lines -/

/-- The keys of a line stand where they are written, and what it assigns or opens is on its line. -/
def Line.Lined (text : List Char) : Line → Prop
  | .assign key n => (∀ k ∈ key.path, OnLine text k.name k.span.start) ∧
      OnLine text key.last.name n.span.start ∧ Keyed text key.last.name n
  | .table key span | .element key span =>
    (∀ k ∈ key.path ++ [key.last], OnLine text k.name k.span.start) ∧ OnLine text key.last.name span.start

/-- The keys of a header stand behind its brackets, which are on the same line. -/
theorem lined_of_brackets {opening closing r rest' : List Char} {key : DottedKey}
    (h : scanDottedKey fuel (dropBlanks r) = some (key, rest)) (hclosing : dropBlanks rest = closing ++ rest')
    (hopening : '\n' ∉ opening) (hcs : opening ++ r <:+ text) :
    (∀ k ∈ key.path ++ [key.last], OnLine text k.name k.span.start) ∧
      OnLine text key.last.name (opening ++ r).length ∧ rest' <:+ opening ++ r := by
  obtain ⟨gap, hgap, hgapline⟩ := inLine_dropBlanks r
  obtain ⟨word, hword, hwordline, hkeys⟩ := exists_of_scanDottedKey h
  have hline : '\n' ∉ opening ++ gap ++ word := by simp [hopening, hgapline, hwordline]
  have heq : opening ++ r = opening ++ gap ++ word ++ rest := by
    rw [hgap, hword]
    simp
  have hlong : ∀ k ∈ key.path ++ [key.last], KeyIn (opening ++ gap ++ word) rest k := fun k hk =>
    (hkeys k hk).prepend (opening ++ gap)
  have hrest' : rest' <:+ rest := by
    have hblanks := (inLine_dropBlanks rest).isSuffix
    rw [hclosing] at hblanks
    exact (List.suffix_append closing rest').trans hblanks
  rw [heq] at hcs ⊢
  refine ⟨fun k hk => (hlong k hk).onLine_start hcs hline, ?_, List.suffix_append_of_suffix hrest'⟩
  exact (hlong key.last (by simp)).onLine_of_front hcs hline

theorem lined_of_scanHeader {line : Line} (h : scanHeader cs = some (line, rest)) (hcs : cs <:+ text) :
    line.Lined text ∧ rest <:+ cs := by
  unfold scanHeader at h
  split at h
  · obtain ⟨⟨key, rest₁⟩, hkey, hnext⟩ := Option.bind_eq_some_iff.1 h
    have hopening : '\n' ∉ ['[', '['] := by decide
    dsimp only at hnext
    split at hnext
    · rename_i hbrackets
      cases hnext
      have hclosing : dropBlanks rest₁ = [']', ']'] ++ rest := hbrackets
      obtain ⟨hkeys, hline, hrest⟩ := lined_of_brackets hkey hclosing hopening hcs
      exact ⟨⟨hkeys, hline⟩, hrest⟩
    · cases hnext
  · obtain ⟨⟨key, rest₁⟩, hkey, hnext⟩ := Option.bind_eq_some_iff.1 h
    have hopening : '\n' ∉ ['['] := by decide
    dsimp only at hnext
    split at hnext
    · rename_i hbracket
      cases hnext
      have hclosing : dropBlanks rest₁ = [']'] ++ rest := hbracket
      obtain ⟨hkeys, hline, hrest⟩ := lined_of_brackets hkey hclosing hopening hcs
      exact ⟨⟨hkeys, hline⟩, hrest⟩
    · cases hnext
  · cases h

theorem lined_of_scanStatement {line : Line} (h : scanStatement cs = some (line, rest))
    (hcs : cs <:+ text) : line.Lined text ∧ rest <:+ cs := by
  unfold scanStatement at h
  split at h
  · exact lined_of_scanHeader h hcs
  · obtain ⟨⟨⟨key, n⟩, rest'⟩, hassignment, ⟨⟩⟩ := Option.bind_eq_some_iff.1 h
    obtain ⟨hpath, hline, hn, hrest⟩ := (scansKeyed text _).assignment hassignment hcs
    exact ⟨⟨hpath, hline, hn⟩, hrest⟩

theorem lined_of_scanLines {lines : List Line} (h : scanLines fuel cs = some lines) (hcs : cs <:+ text) :
    ∀ line ∈ lines, line.Lined text := by
  induction fuel generalizing cs lines with
  | zero => cases h
  | succ fuel ih =>
    rw [scanLines] at h
    obtain ⟨r, hgaps, hnext⟩ := Option.bind_eq_some_iff.1 h
    have hr := (isSuffix_of_gaps hgaps).trans hcs
    split at hnext
    · cases hnext
      exact List.forall_mem_nil _
    · obtain ⟨⟨line, rest⟩, hstatement, hnext⟩ := Option.bind_eq_some_iff.1 hnext
      obtain ⟨hline, hrest⟩ := lined_of_scanStatement hstatement hr
      obtain ⟨r', hend, hnext⟩ := Option.bind_eq_some_iff.1 hnext
      obtain ⟨lines', hlines, ⟨⟩⟩ := Option.bind_eq_some_iff.1 hnext
      exact List.forall_mem_cons.2 ⟨hline, ih hlines ((isSuffix_of_endLine hend).trans (hrest.trans hr))⟩

end Scanning

/-! ## Documents -/

/-- The entries so far stand on the lines of their keys, and the header in force stands on its line. -/
structure Builder.Lined (text : List Char) (b : Builder) : Prop where
  root : b.root.AllKeyed text
  header : ∀ k ∈ b.header, OnLine text k.name k.span.start

theorem Builder.Lined.apply {b b' : Builder} {line : Line} (hb : b.Lined text) (hline : line.Lined text)
    (h : b.apply line = some b') : b'.Lined text := by
  cases line with
  | assign key n =>
    obtain ⟨hpath, hlast, hn⟩ := hline
    obtain ⟨es, hes, ⟨⟩⟩ := Option.bind_eq_some_iff.1 h
    exact ⟨(Entries.keepsLines_assign hpath hlast hn).update false hb.header _ _ hb.root hes, hb.header⟩
  | table key span =>
    obtain ⟨hkeys, hspan⟩ := hline
    obtain ⟨es, hes, ⟨⟩⟩ := Option.bind_eq_some_iff.1 h
    have hpath := fun k hk => hkeys k (List.mem_append_left _ hk)
    exact ⟨Entries.keepsLines_openTable hpath hspan _ _ hb.root hes, hkeys⟩
  | element key span =>
    obtain ⟨hkeys, hspan⟩ := hline
    obtain ⟨es, hes, ⟨⟩⟩ := Option.bind_eq_some_iff.1 h
    have hpath := fun k hk => hkeys k (List.mem_append_left _ hk)
    exact ⟨Entries.keepsLines_openElement hpath hspan _ _ hb.root hes, hkeys⟩

theorem Builder.Lined.foldlM {lines : List Line} {b b' : Builder} (hb : b.Lined text)
    (hlines : ∀ line ∈ lines, line.Lined text) (h : lines.foldlM Builder.apply b = some b') :
    b'.Lined text := by
  induction lines generalizing b with
  | nil =>
    cases h
    exact hb
  | cons line lines ih =>
    rw [List.foldlM_cons] at h
    obtain ⟨b₁, hb₁, hrest⟩ := Option.bind_eq_some_iff.1 h
    obtain ⟨hline, hlines⟩ := List.forall_mem_cons.1 hlines
    exact ih (hb.apply hline hb₁) hlines hrest

theorem dropMark_isSuffix (cs : List Char) : dropMark cs <:+ cs := by
  unfold dropMark
  split
  · exact List.suffix_cons _ _
  · exact List.suffix_rfl

/-- A document is a table, whose entries stand on the lines of their keys. -/
theorem allKeyed_of_read {n : Node} (h : read text = some n) :
    ∃ span es, n = .table span .header es ∧ Entries.AllKeyed text es := by
  obtain ⟨lines, hlines, hnext⟩ := Option.bind_eq_some_iff.1 h
  obtain ⟨b, hb, ⟨⟩⟩ := Option.bind_eq_some_iff.1 hnext
  have hstart : Builder.Lined text ⟨[], []⟩ := ⟨.nil, List.forall_mem_nil _⟩
  exact ⟨_, _, rfl, (hstart.foldlM (lined_of_scanLines hlines (dropMark_isSuffix text)) hb).root⟩

end SiteNav.Toml
