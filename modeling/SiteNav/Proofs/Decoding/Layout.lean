import SiteNav.Proofs.Decoding
import SiteNav.Proofs.Document.Relayout

/-!
# Documents with the same content

What is decoded from a text depends on how the document is laid out only in the order of the ignored keys
and the paths to them.
-/
namespace SiteNav
open Document

variable {f : Format} {text text' : String} {t t' : f.Tree} {change : List Path → List Path → Prop}

/-- Without aliases in the way, a document is decoded exactly if its tree is a site whose strays are in
nobody's way, and the keys ignored are those of the strays. -/
theorem decode_eq_ok_iff (ht : tree? f text = some t) (hfree : ¬ HasAlias f text) (d : Decoded) :
    decode f text = .ok d ↔ (f.meaning.Legible .site t ∧ f.meaning.IsSite t d.site) ∧
      d.ignored = (f.meaning.strays .site [] t).map (·.dotted) := by
  constructor
  · intro hdecode
    obtain ⟨ps, hread, hignored⟩ := readTracked_of_decode ht hdecode
    obtain ⟨hsite, rfl⟩ := Meaning.readTracked_eq_some_iff.1 hread
    exact ⟨hsite, hignored⟩
  · rintro ⟨hsite, hignored⟩
    have hread := Meaning.readTracked_eq_some_iff.2 ⟨hsite, rfl⟩
    rcases decode_of_readTracked ht hread with hdecode | hendless
    · rw [hdecode, ← hignored]
    · exact absurd hendless.1 hfree

/-- A document laid out anew is decoded as the same site, or not at all if it was not before. The keys
ignored are those of the strays, which become one another as the layout says. -/
theorem decode_relayout (ht : tree? f text = some t) (ht' : tree? f text' = some t')
    (hfree : ¬ HasAlias f text) (hfree' : ¬ HasAlias f text') (h : f.meaning.Relayout change t t') :
    (∀ s, (∃ ignored, decode f text = .ok ⟨s, ignored⟩) ↔
      ∃ ignored, decode f text' = .ok ⟨s, ignored⟩) ∧
    ∀ d d', decode f text = .ok d → decode f text' = .ok d' →
      d.ignored = (f.meaning.strays .site [] t).map (·.dotted) ∧
      d'.ignored = (f.meaning.strays .site [] t').map (·.dotted) ∧
      change (f.meaning.strays .site [] t) (f.meaning.strays .site [] t') := by
  have hfaithful := h.faithful
  refine ⟨fun s => ?_, fun d d' hd hd' => ?_⟩
  · simp only [decode_eq_ok_iff ht hfree, decode_eq_ok_iff ht' hfree', exists_and_left, exists_eq,
      and_true, hfaithful.legible, hfaithful.isSite s]
  · rw [decode_eq_ok_iff ht hfree] at hd
    rw [decode_eq_ok_iff ht' hfree'] at hd'
    exact ⟨hd.2, hd'.2, hfaithful.strays d.site hd.1.2⟩

set_option maxRecDepth 8000 in
theorem decode_relayout_group_list :
    let text := "[\"\",\"\",\"/\",[\x7b\"text\":\"\"," ++
      "\"items\":[\x7b\"x\":\"\",\"text\":\"\",\"link\":\"\"\x7d]\x7d]]"
    let text' := "[\"\",\"\",\"/\",[[\"\",null,[\x7b\"x\":\"\",\"text\":\"\",\"link\":\"\"\x7d]]]]"
    decode .json text = .ok ⟨⟨"", "", "/", [⟨"", none, [⟨"", ""⟩]⟩]⟩, ["3.0.items.0.x"]⟩ ∧
    decode .json text' = .ok ⟨⟨"", "", "/", [⟨"", none, [⟨"", ""⟩]⟩]⟩, ["3.0.2.0.x"]⟩ := by
  intro text text'
  let empty : Format.json.Tree := .scalar (some (.text ""))
  let site (t : Format.json.Tree) : Format.json.Tree :=
    .list [empty, empty, .scalar (some (.text "/")), .list [t]]
  let items : Format.json.Tree :=
    .list [.map [(some "x", empty), (some "text", empty), (some "link", empty)]]
  let group : Format.json.Tree := .map [(some "text", empty), (some "items", items)]
  let list : Format.json.Tree := .list [empty, .scalar (some .null), items]
  have hgroup : Format.json.meaning.Listed .group group list :=
    .group (by simp [Meaning.OnlyHas, Format.meaning, Json.meaning]) rfl (.inr ⟨rfl, _, rfl, rfl⟩) rfl
  have hinside :
      Format.json.meaning.Inside .group [.index 0, .index 3] .site [] (site group) (site list) :=
    .place [empty, empty, .scalar (some (.text "/"))] [] rfl (.element [] [] (.here hgroup))
  have hsite : Format.json.meaning.IsSite (site group) ⟨"", "", "/", [⟨"", none, [⟨"", ""⟩]⟩]⟩ := by
    refine .list rfl ⟨_, rfl, rfl⟩ ⟨_, rfl, rfl⟩ ⟨_, rfl, rfl⟩ (.cons ?_ .nil)
    refine .map rfl ⟨_, rfl, rfl⟩ (.inl ⟨rfl, rfl⟩) rfl (.cons ?_ .nil)
    exact .map rfl ⟨_, rfl, rfl⟩ rfl ⟨_, rfl, rfl⟩
  have hfree (text : String) : ¬ HasAlias .json text := by
    rintro ⟨h, -⟩
    cases h
  have ht : tree? .json text = some (site group) := by cbv
  have ht' : tree? .json text' = some (site list) := by cbv
  have hdecode : decode .json text =
      .ok ⟨⟨"", "", "/", [⟨"", none, [⟨"", ""⟩]⟩]⟩, ["3.0.items.0.x"]⟩ := by
    rw [decode_eq_ok_iff ht (hfree text)]
    exact ⟨⟨Meaning.WellFormed.legible .site _ rfl, hsite⟩, by decide +kernel⟩
  obtain ⟨hsame, hignored⟩ := decode_relayout ht ht' (hfree text) (hfree text') (.list rfl hinside)
  obtain ⟨ignored, hdecode'⟩ := (hsame _).1 ⟨_, hdecode⟩
  obtain ⟨-, hignored', -⟩ := hignored _ _ hdecode hdecode'
  have hpath : ignored = ["3.0.2.0.x"] := hignored'.trans (by decide +kernel)
  rw [hpath] at hdecode'
  exact ⟨hdecode, hdecode'⟩

end SiteNav
