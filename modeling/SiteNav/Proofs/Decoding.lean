import Mathlib
import SiteNav.Proofs.DocumentTree
import SiteNav.Proofs.Toml.Order

/-!
# What decoding accepts and ignores

Main statements: a JSON or TOML document is decoded exactly if its tree is a site, and in every format
the entries that are no part of the site are all reported and change nothing. Two limits set bounds to
that: a TOML text may not nest its values too deep, and in YAML only so many aliases are followed.
-/
namespace SiteNav
open Document

variable {f : Format} {text : String} {t : f.Tree} {s : Site} {ps : List Path} {d : Decoded}

/-- In TOML the root is a table, and all tables have their entries in ascending order of their keys. In
the other formats entries stand as they are written. -/
def Format.Arranges : (f : Format) → f.Tree → Prop
  | .toml, t => (∃ es, t = .map es) ∧ Toml.Ordered t
  | _, _ => True

theorem arranges_of_tree? (ht : tree? f text = some t) : f.Arranges t := by
  cases f with
  | json => trivial
  | yaml => trivial
  | toml =>
    obtain ⟨n, hn, rfl⟩ := Option.map_eq_some_iff.1 ht
    obtain ⟨es, hes, hordered⟩ := Toml.exists_of_read hn
    exact ⟨⟨es, hes⟩, hordered⟩

theorem exists_tree?_of_decode (h : decode f text = .ok d) : ∃ t, tree? f text = some t := by
  cases f with
  | json =>
    cases hread : Json.readWith Json.dialect.readTracked text with
    | ok r => exact Option.isSome_iff_exists.1 (Json.isSome_tree? hread)
    | error e =>
      rw [decode, hread] at h
      cases h
  | toml =>
    cases hread : Toml.read text.toList with
    | some n => exact ⟨n.tree, by rw [tree?, hread]; rfl⟩
    | none =>
      rw [decode, Toml.readWith, hread] at h
      cases h
  | yaml =>
    cases hread : Yaml.tree? text.toList with
    | some y => exact ⟨_, by rw [tree?, hread]; rfl⟩
    | none =>
      simp only [decode, Yaml.readWith, hread] at h
      cases h

theorem readTracked_of_decode (ht : tree? f text = some t) (h : decode f text = .ok d) :
    ∃ ps, f.meaning.dialect.readTracked t = some (d.site, ps) ∧ d.ignored = ps.map (·.dotted) := by
  have hcomes := decode_comes ht
  rw [h] at hcomes
  generalize hread : f.meaning.dialect.readTracked t = r at hcomes
  cases hcomes with
  | ok r => exact ⟨r.2, rfl, rfl⟩

/-- Following the aliases of a YAML document takes too long. -/
def Endless (f : Format) (text : String) : Prop :=
  HasAlias f text ∧ decode f text = .error (.yaml .endless)

theorem decode_of_readTracked (ht : tree? f text = some t)
    (h : f.meaning.dialect.readTracked t = some (s, ps)) :
    decode f text = .ok ⟨s, ps.map (·.dotted)⟩ ∨ Endless f text := by
  have hcomes := decode_comes ht
  rw [h] at hcomes
  generalize hdecode : decode f text = r at hcomes
  cases hcomes with
  | ok => exact .inl rfl
  | endless _ halias => exact .inr ⟨halias, hdecode⟩

/-- A JSON or TOML document is decoded exactly if its tree is a site, and then as that site. In TOML a
site is always a table. -/
theorem decode_ok_iff_isSite (hf : f ≠ .yaml) (ht : tree? f text = some t)
    (hwf : f.meaning.WellFormed t) :
    (f = .toml → ∃ es, t = .map es) ∧
      ∀ s, (∃ ignored, decode f text = .ok ⟨s, ignored⟩) ↔ f.meaning.IsSite t s := by
  refine ⟨?_, fun s => ⟨?_, fun hsite => ?_⟩⟩
  · rintro rfl
    exact (arranges_of_tree? ht).1
  · rintro ⟨ignored, h⟩
    obtain ⟨ps, hread, -⟩ := readTracked_of_decode ht h
    exact (Meaning.readTracked_eq_some_iff.1 hread).1.2
  · have hread := Meaning.readTracked_eq_some_iff.2 ⟨⟨hwf.legible .site t, hsite⟩, rfl⟩
    rcases decode_of_readTracked ht hread with h | ⟨⟨rfl, -⟩, -⟩
    · exact ⟨_, h⟩
    · exact absurd rfl hf

theorem decode_ok_iff_isSite_positional : ∃ ignored,
    decode .json "[\"A\", \"\", \"/\", [[\"g\", null, [[\"t\", \"/l\"]]]]]" =
      .ok ⟨⟨"A", "", "/", [⟨"g", none, [⟨"t", "/l"⟩]⟩]⟩, ignored⟩ := by
  let text (s : String) : Format.json.Tree := .scalar (some (.text s))
  let t : Format.json.Tree := .list [text "A", text "", text "/",
    .list [.list [text "g", .scalar (some .null), .list [.list [text "t", text "/l"]]]]]
  have htext : ∀ s, Format.json.meaning.IsText (text s) s := fun s => ⟨_, rfl, rfl⟩
  have hend : Format.json.meaning.MayEnd [] := ⟨rfl, fun _ => rfl⟩
  have hsite : Format.json.meaning.IsSite t ⟨"A", "", "/", [⟨"g", none, [⟨"t", "/l"⟩]⟩]⟩ :=
    .list rfl (htext _) (htext _) (htext _) <| .cons (.list hend (htext _) ⟨_, rfl, rfl⟩ <|
      .cons (.list hend (htext _) (htext _)) .nil) .nil
  exact ((decode_ok_iff_isSite (by decide) (by cbv) (by cbv)).2 _).2 hsite

/-- The paths reported are those of the strays, in the order in which they are read. Without its strays
a document is the same site, and so it is with more of them. -/
theorem ignored_eq_strays (h : decode f text = .ok d) :
    ∃ t, tree? f text = some t ∧ f.Arranges t ∧
      d.ignored = (f.meaning.strays .site [] t).map (·.dotted) ∧
      (∀ text', tree? f text' = some (f.meaning.prune .site t) →
        decode f text' = .ok ⟨d.site, []⟩ ∨ Endless f text') ∧
      ∀ text' t', f.meaning.Grows .site t t' → tree? f text' = some t' →
        decode f text' = .ok ⟨d.site, (f.meaning.strays .site [] t').map (·.dotted)⟩ ∨
          Endless f text' := by
  obtain ⟨t, ht⟩ := exists_tree?_of_decode h
  obtain ⟨ps, hread, hignored⟩ := readTracked_of_decode ht h
  refine ⟨t, ht, arranges_of_tree? ht, ?_, fun text' ht' => ?_, fun text' t' hgrows ht' => ?_⟩
  · rw [hignored, (Meaning.readTracked_eq_some_iff.1 hread).2]
  · exact decode_of_readTracked ht' (Meaning.readTracked_prune hread)
  · exact decode_of_readTracked ht' (Meaning.readTracked_of_grows hgrows hread)

set_option maxRecDepth 4000 in
theorem ignored_eq_strays_in_group :
    decode .json "[\"A\", \"\", \"/\", [\x7b\"text\": \"g\", \"x\": \"\", \"items\": []\x7d]]" =
      .ok ⟨⟨"A", "", "/", [⟨"g", none, []⟩]⟩, ["3.0.x"]⟩ ∧
    decode .json "[\"A\", \"\", \"/\", [\x7b\"text\": \"g\", \"items\": []\x7d]]" =
      .ok ⟨⟨"A", "", "/", [⟨"g", none, []⟩]⟩, []⟩ := by
  have h : decode .json "[\"A\", \"\", \"/\", [\x7b\"text\": \"g\", \"x\": \"\", \"items\": []\x7d]]" =
      .ok ⟨⟨"A", "", "/", [⟨"g", none, []⟩]⟩, ["3.0.x"]⟩ := by cbv
  obtain ⟨t, ht, -, -, hprune, -⟩ := ignored_eq_strays h
  let text (s : String) : Format.json.Tree := .scalar (some (.text s))
  have htree : t = .list [text "A", text "", text "/",
      .list [.map [(some "text", text "g"), (some "x", text ""), (some "items", .list [])]]] :=
    Option.some.inj (ht.symm.trans (by cbv))
  subst htree
  refine ⟨h, ?_⟩
  rcases hprune "[\"A\", \"\", \"/\", [\x7b\"text\": \"g\", \"items\": []\x7d]]" (by cbv) with
    h | ⟨⟨h, -⟩, -⟩
  · exact h
  · cases h

/-- A TOML text is no document if a value in it is nested deeper than eighty lists, even where nobody
asks for the value. -/
theorem decode_deep_stray :
    decode .toml "title = \"A\"\ndescription = \"\"\nbase = \"/\"\nsidebar = []\n" =
      .ok ⟨⟨"A", "", "/", []⟩, []⟩ ∧
    (decode .toml ("title = \"A\"\ndescription = \"\"\nbase = \"/\"\nsidebar = []\nx = " ++
      String.ofList (List.replicate 81 '[' ++ List.replicate 81 ']'))).isOk = false :=
  ⟨by cbv, by decide +kernel⟩

end SiteNav
