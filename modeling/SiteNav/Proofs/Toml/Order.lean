import SiteNav.Proofs.Toml.AsTree
import SiteNav.Proofs.Toml.Entries

/-!
# The order of tables

Whatever a text does to its tables, at every step all of them keep their entries in ascending order of
their keys. Main statement: so do all maps of the tree of a text.
-/
namespace SiteNav.Toml

/-- All maps have their entries in ascending order of their keys. -/
inductive Ordered : Tree → Prop
  | scalar (s : Scalar) : Ordered (.scalar s)
  | list {ts : List Tree} (h : ∀ t ∈ ts, Ordered t) : Ordered (.list ts)
  | map {es : List (String × Tree)} (hkeys : es.Pairwise fun e e' => e.1 < e'.1)
      (h : ∀ e ∈ es, Ordered e.2) : Ordered (.map es)

namespace Entries

/-- The entries are in order, and so are all tables in them. -/
structure AllOrdered (es : Entries) : Prop where
  sorted : es.Sorted
  inner : ∀ e ∈ es, Ordered e.2.tree

variable {es es' : Entries} {k : String} {n : Node}

theorem AllOrdered.nil : AllOrdered [] :=
  ⟨.nil, nofun⟩

theorem AllOrdered.set (h : es.AllOrdered) (hn : Ordered n.tree) (k : String) :
    (es.set k n).AllOrdered := by
  refine ⟨h.sorted.set k n, fun e he => ?_⟩
  rcases mem_set he with rfl | he
  · exact hn
  · exact h.inner e he

theorem mem_of_get? (h : es.get? k = some n) : ∃ key, (key, n) ∈ es := by
  induction es with
  | nil => cases h
  | cons e es ih =>
    obtain ⟨key, node⟩ := e
    rw [get?] at h
    split at h
    · cases h
      exact ⟨key, List.mem_cons_self⟩
    · obtain ⟨key', hmem⟩ := ih h
      exact ⟨key', List.mem_cons_of_mem _ hmem⟩

theorem AllOrdered.get? (h : es.AllOrdered) (hn : es.get? k = some n) : Ordered n.tree := by
  obtain ⟨key, hmem⟩ := mem_of_get? hn
  exact h.inner _ hmem

end Entries

open Entries

theorem ordered_array {span : Span} {ofTables : Bool} {items : List Node} :
    Ordered (Node.array span ofTables items).tree ↔ ∀ n ∈ items, Ordered n.tree := by
  rw [Node.tree, Node.itemTrees_eq]
  constructor
  · rintro (_ | h | _) n hn
    exact h _ (List.mem_map_of_mem hn)
  · exact fun h => .list (List.forall_mem_map.2 h)

theorem ordered_table {span : Span} {origin : Origin} {es : Entries} :
    Ordered (Node.table span origin es).tree ↔ es.AllOrdered := by
  rw [Node.tree, Node.entryTrees_eq]
  have hsorted : (es.map fun e => (e.1, e.2.tree)).Pairwise (fun e e' => e.1 < e'.1) ↔ es.Sorted :=
    List.pairwise_map
  constructor
  · rintro (_ | _ | ⟨hkeys, h⟩)
    exact ⟨hsorted.1 hkeys, fun e he => h _ (List.mem_map_of_mem (f := fun e => (e.1, e.2.tree)) he)⟩
  · exact fun h => .map (hsorted.2 h.sorted) (List.forall_mem_map.2 h.inner)

namespace Entries

/-- A change keeps tables in order. -/
def KeepsOrder (change : Entries → Option Entries) : Prop :=
  ∀ es es', es.AllOrdered → change es = some es' → es'.AllOrdered

/-- By induction on the path: the tables on the way are put back in their places. -/
theorem KeepsOrder.update {change : Entries → Option Entries} (hchange : KeepsOrder change)
    (dotted : Bool) (path : List Key) : KeepsOrder (Entries.update dotted change path) := by
  induction path with
  | nil => exact hchange
  | cons k path ih =>
    intro es es' hes h
    simp only [Entries.update] at h
    split at h
    · obtain ⟨inner, hinner, ⟨⟩⟩ := Option.bind_eq_some_iff.1 h
      exact hes.set (ordered_table.2 (ih _ _ .nil hinner)) _
    · rename_i span origin inner hget
      split at h
      · cases h
      · obtain ⟨inner', hinner, ⟨⟩⟩ := Option.bind_eq_some_iff.1 h
        exact hes.set (ordered_table.2 (ih _ _ (ordered_table.1 (hes.get? hget)) hinner)) _
    · rename_i span items hget
      have hitems := ordered_array.1 (hes.get? hget)
      split at h
      · cases h
      · split at h
        · rename_i s o inner others hitems_eq
          have hmem : ∀ n ∈ Node.table s o inner :: others, n ∈ items := fun n hn =>
            List.mem_reverse.1 (hitems_eq ▸ hn)
          have hinner : AllOrdered inner :=
            ordered_table.1 (hitems _ (hmem _ List.mem_cons_self))
          obtain ⟨inner', hinner', ⟨⟩⟩ := Option.bind_eq_some_iff.1 h
          refine hes.set (ordered_array.2 fun n hn => ?_) _
          rcases List.mem_append.1 hn with hn | hn
          · exact hitems n (hmem n (List.mem_cons_of_mem _ (List.mem_reverse.1 hn)))
          · rw [List.mem_singleton.1 hn]
            exact ordered_table.2 (ih _ _ hinner hinner')
        · cases h
    · cases h

theorem keepsOrder_add {n : Node} (hn : Ordered n.tree) (k : Key) : KeepsOrder (·.add k n) := by
  intro es es' hes h
  simp only [add] at h
  split at h
  · cases h
    exact hes.set hn _
  · cases h

theorem keepsOrder_assign {n : Node} (hn : Ordered n.tree) (path : List Key) (last : Key) :
    KeepsOrder (·.assign path last n) :=
  (keepsOrder_add hn last).update true path

theorem keepsOrder_openTable (path : List Key) (last : Key) (span : Span) :
    KeepsOrder (·.openTable path last span) := by
  refine KeepsOrder.update (fun es es' hes h => ?_) false path
  split at h
  · cases h
    exact hes.set (ordered_table.2 .nil) _
  · rename_i hget
    cases h
    exact hes.set (ordered_table.2 (ordered_table.1 (hes.get? hget))) _
  · cases h

theorem keepsOrder_openElement (path : List Key) (last : Key) (span : Span) :
    KeepsOrder (·.openElement path last span) := by
  refine KeepsOrder.update (fun es es' hes h => ?_) false path
  split at h
  · cases h
    refine hes.set (ordered_array.2 fun n hn => ?_) _
    rw [List.mem_singleton.1 hn]
    exact ordered_table.2 .nil
  · rename_i items hget
    cases h
    refine hes.set (ordered_array.2 fun n hn => ?_) _
    rcases List.mem_append.1 hn with hn | hn
    · exact ordered_array.1 (hes.get? hget) n hn
    · rw [List.mem_singleton.1 hn]
      exact ordered_table.2 .nil
  · cases h

end Entries

section Scanning

/-- What the scanners make with some fuel is in order. -/
structure ScansOrdered (fuel : Nat) : Prop where
  value : ∀ {depth cs n rest}, scanValue fuel depth cs = some (n, rest) → Ordered n.tree
  items : ∀ {depth cs ns rest}, scanItems fuel depth cs = some (ns, rest) →
    ∀ n ∈ ns, Ordered n.tree
  entries : ∀ {depth es cs es' rest}, es.AllOrdered →
    scanEntries fuel depth es cs = some (es', rest) → es'.AllOrdered
  assignment : ∀ {depth cs key n rest}, scanAssignment fuel depth cs = some ((key, n), rest) →
    Ordered n.tree

variable {fuel depth : Nat} {cs rest : List Char}

theorem ScansOrdered.succ_value (h : ScansOrdered fuel) {n : Node}
    (hscan : scanValue (fuel + 1) depth cs = some (n, rest)) : Ordered n.tree := by
  unfold scanValue at hscan
  split at hscan
  · split at hscan
    · obtain ⟨r, _, hscan⟩ := Option.bind_eq_some_iff.1 hscan
      obtain ⟨⟨ns, rest'⟩, hitems, ⟨⟩⟩ := Option.bind_eq_some_iff.1 hscan
      exact ordered_array.2 (h.items hitems)
    · cases hscan
  · split at hscan
    · obtain ⟨r, _, hscan⟩ := Option.bind_eq_some_iff.1 hscan
      obtain ⟨⟨es, rest'⟩, hentries, ⟨⟩⟩ := Option.bind_eq_some_iff.1 hscan
      exact ordered_table.2 (h.entries .nil hentries)
    · cases hscan
  · obtain ⟨⟨s, rest'⟩, _, ⟨⟩⟩ := Option.bind_eq_some_iff.1 hscan
    exact .scalar _
  · obtain ⟨⟨s, rest'⟩, _, ⟨⟩⟩ := Option.bind_eq_some_iff.1 hscan
    exact .scalar _
  · obtain ⟨⟨s, rest'⟩, _, ⟨⟩⟩ := Option.bind_eq_some_iff.1 hscan
    exact .scalar _

theorem ScansOrdered.succ_items (h : ScansOrdered fuel) {ns : List Node}
    (hscan : scanItems (fuel + 1) depth cs = some (ns, rest)) : ∀ n ∈ ns, Ordered n.tree := by
  unfold scanItems at hscan
  split at hscan
  · cases hscan
    exact List.forall_mem_nil _
  · obtain ⟨⟨n, rest'⟩, hvalue, hscan⟩ := Option.bind_eq_some_iff.1 hscan
    have hn := h.value hvalue
    obtain ⟨r, _, hscan⟩ := Option.bind_eq_some_iff.1 hscan
    split at hscan
    · obtain ⟨r', _, hscan⟩ := Option.bind_eq_some_iff.1 hscan
      obtain ⟨⟨ns', rest'⟩, hitems, ⟨⟩⟩ := Option.bind_eq_some_iff.1 hscan
      exact List.forall_mem_cons.2 ⟨hn, h.items hitems⟩
    · cases hscan
      exact List.forall_mem_singleton.2 hn
    · cases hscan

theorem ScansOrdered.succ_entries (h : ScansOrdered fuel) {es es' : Entries} (hes : es.AllOrdered)
    (hscan : scanEntries (fuel + 1) depth es cs = some (es', rest)) : es'.AllOrdered := by
  unfold scanEntries at hscan
  split at hscan
  · cases hscan
    exact hes
  · obtain ⟨⟨⟨key, n⟩, rest'⟩, hassignment, hscan⟩ := Option.bind_eq_some_iff.1 hscan
    obtain ⟨es₁, hassign, hscan⟩ := Option.bind_eq_some_iff.1 hscan
    have hes₁ := keepsOrder_assign (h.assignment hassignment) _ _ _ _ hes hassign
    obtain ⟨r, _, hscan⟩ := Option.bind_eq_some_iff.1 hscan
    split at hscan
    · obtain ⟨r', _, hscan⟩ := Option.bind_eq_some_iff.1 hscan
      exact h.entries hes₁ hscan
    · cases hscan
      exact hes₁
    · cases hscan

theorem ScansOrdered.succ_assignment (h : ScansOrdered fuel) {key : DottedKey} {n : Node}
    (hscan : scanAssignment (fuel + 1) depth cs = some ((key, n), rest)) : Ordered n.tree := by
  unfold scanAssignment at hscan
  obtain ⟨⟨key', rest'⟩, _, hscan⟩ := Option.bind_eq_some_iff.1 hscan
  dsimp only at hscan
  split at hscan
  · obtain ⟨⟨n', rest''⟩, hvalue, ⟨⟩⟩ := Option.bind_eq_some_iff.1 hscan
    exact h.value hvalue
  · cases hscan

theorem scansOrdered (fuel : Nat) : ScansOrdered fuel := by
  induction fuel with
  | zero => constructor <;> intros <;> simp_all [scanValue, scanItems, scanEntries, scanAssignment]
  | succ fuel ih => exact ⟨ih.succ_value, ih.succ_items, ih.succ_entries, ih.succ_assignment⟩

end Scanning

/-- The value that a line assigns is in order. -/
def Line.Orderly : Line → Prop
  | .assign _ n => Ordered n.tree
  | _ => True

theorem orderly_of_scanStatement {cs rest : List Char} {line : Line}
    (h : scanStatement cs = some (line, rest)) : line.Orderly := by
  unfold scanStatement at h
  split at h
  · unfold scanHeader at h
    split at h
    · obtain ⟨⟨key, rest'⟩, _, h⟩ := Option.bind_eq_some_iff.1 h
      dsimp only at h
      split at h
      · cases h
        trivial
      · cases h
    · obtain ⟨⟨key, rest'⟩, _, h⟩ := Option.bind_eq_some_iff.1 h
      dsimp only at h
      split at h
      · cases h
        trivial
      · cases h
    · cases h
  · obtain ⟨⟨⟨key, n⟩, rest'⟩, hassignment, ⟨⟩⟩ := Option.bind_eq_some_iff.1 h
    exact (scansOrdered _).assignment hassignment

theorem orderly_of_scanLines {fuel : Nat} {cs : List Char} {lines : List Line}
    (h : scanLines fuel cs = some lines) : ∀ line ∈ lines, line.Orderly := by
  induction fuel generalizing cs lines with
  | zero => cases h
  | succ fuel ih =>
    rw [scanLines] at h
    obtain ⟨r, _, h⟩ := Option.bind_eq_some_iff.1 h
    split at h
    · cases h
      exact nofun
    · obtain ⟨⟨line, rest⟩, hline, h⟩ := Option.bind_eq_some_iff.1 h
      obtain ⟨r', _, h⟩ := Option.bind_eq_some_iff.1 h
      obtain ⟨lines', hlines, ⟨⟩⟩ := Option.bind_eq_some_iff.1 h
      exact List.forall_mem_cons.2 ⟨orderly_of_scanStatement hline, ih hlines⟩

/-- Carrying out a line keeps the tables in order. -/
theorem Builder.allOrdered_of_apply {b b' : Builder} {line : Line} (hline : line.Orderly)
    (hb : b.root.AllOrdered) (h : b.apply line = some b') : b'.root.AllOrdered := by
  cases line with
  | assign key n =>
    obtain ⟨es, hes, ⟨⟩⟩ := Option.bind_eq_some_iff.1 h
    exact (keepsOrder_assign hline _ _).update false _ _ _ hb hes
  | table key span =>
    obtain ⟨es, hes, ⟨⟩⟩ := Option.bind_eq_some_iff.1 h
    exact keepsOrder_openTable _ _ _ _ _ hb hes
  | element key span =>
    obtain ⟨es, hes, ⟨⟩⟩ := Option.bind_eq_some_iff.1 h
    exact keepsOrder_openElement _ _ _ _ _ hb hes

theorem Builder.allOrdered_of_foldlM {lines : List Line} {b b' : Builder}
    (hlines : ∀ line ∈ lines, line.Orderly) (hb : b.root.AllOrdered)
    (h : lines.foldlM Builder.apply b = some b') : b'.root.AllOrdered := by
  induction lines generalizing b with
  | nil =>
    cases h
    exact hb
  | cons line lines ih =>
    rw [List.foldlM_cons] at h
    obtain ⟨b₁, hb₁, h⟩ := Option.bind_eq_some_iff.1 h
    obtain ⟨hline, hlines⟩ := List.forall_mem_cons.1 hlines
    exact ih hlines (allOrdered_of_apply hline hb hb₁) h

/-- A text that can be read is a table, and all tables in it are in order. -/
theorem exists_of_read {cs : List Char} {n : Node} (h : read cs = some n) :
    ∃ es, n.tree = .map es ∧ Ordered n.tree := by
  obtain ⟨lines, hlines, h⟩ := Option.bind_eq_some_iff.1 h
  obtain ⟨b, hb, ⟨⟩⟩ := Option.bind_eq_some_iff.1 h
  exact ⟨_, rfl, ordered_table.2 (Builder.allOrdered_of_foldlM (orderly_of_scanLines hlines) .nil hb)⟩

end SiteNav.Toml
