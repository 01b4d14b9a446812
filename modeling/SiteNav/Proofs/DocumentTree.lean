import SiteNav.Codec
import SiteNav.Proofs.Document.Acceptance
import SiteNav.Proofs.Json.AsTree
import SiteNav.Proofs.Toml.AsTree
import SiteNav.Proofs.Yaml.AsTree

/-!
# Documents of all formats as trees

A text of any format is a tree, if it is a document of the format at all, with the keys and scalars of
that format. What is decoded from the text is read from the tree. Only in YAML does decoding look at
more than the tree: it may have to follow too many aliases to see it.
-/
namespace SiteNav
open Document

namespace Format

def Key : Format → Type
  | json => Option String
  | toml => String
  | yaml => Option Yaml.Scalar

def Scalar : Format → Type
  | json => Option Json.Scalar
  | toml => Toml.Scalar
  | yaml => Yaml.Leaf

abbrev Tree (f : Format) : Type := Document.Tree f.Key f.Scalar

def meaning : (f : Format) → Meaning f.Key f.Scalar
  | json => Json.meaning
  | toml => Toml.meaning
  | yaml => Yaml.meaning

end Format

/-- The depth of a site, from its theme down to the texts of its items. -/
def siteDepth : Nat := 6

/-- The tree that a text is. A YAML document that is a tree is unfolded down to its leaves; one with a
list or map that holds itself is unfolded at least as deep as a site goes. -/
def tree? : (f : Format) → String → Option f.Tree
  | .json, text => Json.tree? text
  | .toml, text => (Toml.read text.toList).map (·.tree)
  | .yaml, text => (Yaml.tree? text.toList).map fun t => t.unfold (t.root.size + siteDepth) t.root

theorem ofTracked_eq {r r' : Site × List Path} (h : r.1 = r'.1 ∧ List.Forall₂ Path.Alike r.2 r'.2) :
    Decoded.ofTracked r = Decoded.ofTracked r' := by
  rw [Decoded.ofTracked, Decoded.ofTracked, h.1, Path.Alike.map_dotted_eq h.2]

/-- A YAML document with an alias in it. -/
def HasAlias (f : Format) (text : String) : Prop :=
  f = .yaml ∧ ∃ t, Yaml.tree? text.toList = some t ∧ ¬ t.root.AliasFree

/-- What decoding a document comes to, given what is read from its tree. -/
inductive Comes (f : Format) (text : String) :
    Option (Site × List Path) → Except DecodeError Decoded → Prop
  | ok (r : Site × List Path) : Comes f text (some r) (.ok (.ofTracked r))
  | error (e : DecodeError) : Comes f text none (.error e)
  | endless (r : Site × List Path) (h : HasAlias f text) :
      Comes f text (some r) (.error (.yaml .endless))

theorem Comes.of_sameOutcome {f : Format} {text : String} {ε : Type}
    {x : Except ε (Site × List Path)} {y : Option (Site × List Path)}
    (h : SameOutcome (fun r r' => r.1 = r'.1 ∧ List.Forall₂ Path.Alike r.2 r'.2) x y)
    (toError : ε → DecodeError) : Comes f text y ((x.map .ofTracked).mapError toError) := by
  cases h with
  | @ok r r' h =>
    change Comes f text (some r') (.ok (.ofTracked r))
    rw [ofTracked_eq h]
    exact .ok r'
  | error e => exact .error (toError e)

theorem decode_comes {f : Format} {text : String} {t : f.Tree} (h : tree? f text = some t) :
    Comes f text (f.meaning.dialect.readTracked t) (decode f text) := by
  cases f with
  | json =>
    obtain ⟨root, hroot, hread⟩ := Json.exists_root_of_tree? h
    rw [decode, hread]
    exact .of_sameOutcome (Json.dialect_alike.readTracked (i := 0) hroot) _
  | toml =>
    obtain ⟨n, hn, rfl⟩ := Option.map_eq_some_iff.1 h
    rw [decode, Toml.readWith, hn]
    exact .of_sameOutcome (Toml.dialect_alike.readTracked (i := 0) rfl) _
  | yaml =>
    obtain ⟨y, hy, rfl⟩ := Option.map_eq_some_iff.1 h
    simp only [decode, Yaml.readWith, hy]
    have hread : Yaml.Metered y.limit y.root.AliasFree
        (fun r r' => r.1 = r'.1 ∧ List.Forall₂ Path.Alike r.2 r'.2) (y.dialect.readTracked y.root)
        (Yaml.meaning.dialect.readTracked (y.unfold (y.root.size + siteDepth) y.root)) :=
      (y.dialect_alike _).readTracked (i := 0) ⟨_, Nat.le_add_left _ _, rfl, id⟩
    change Comes _ _ (Yaml.meaning.dialect.readTracked _) _
    cases hr : Yaml.meaning.dialect.readTracked (y.unfold (y.root.size + siteDepth) y.root) with
    | none =>
      rw [hr] at hread
      obtain ⟨e, he⟩ := hread 0 (Nat.zero_le _)
      rw [he]
      exact .error _
    | some r =>
      rw [hr] at hread
      obtain ⟨r', aliases, halike, hfree, hrun⟩ := hread
      rw [hrun 0 (Nat.zero_le _)]
      by_cases hlimit : 0 + aliases ≤ y.limit
      · rw [if_pos hlimit]
        change Comes _ _ _ (.ok (.ofTracked r'))
        rw [ofTracked_eq halike]
        exact .ok r
      · rw [if_neg hlimit]
        refine .endless r ⟨rfl, y, hy, fun h => hlimit ?_⟩
        rw [hfree h]
        exact Nat.zero_le _

end SiteNav
