import SiteNav.Proofs.Decoding
import SiteNav.Proofs.Document.Untracked
import SiteNav.Proofs.Json.Trailing
import SiteNav.Proofs.Loading
import SiteNav.Proofs.Yaml.Documents

/-!
# Decoding without the ignored keys

To keep track of the ignored keys, every value of a document is read through a layer that a plain
decoder does without. Main statement: that makes no difference to what is accepted nor to the site,
and neither decoder takes a text that holds more than one document.
-/
namespace SiteNav
open Document

theorem Json.dialect_concurs : Json.dialect.Alike (.concurrence Json.Error Json.Error) (fun _ => Eq) Eq
    Eq Json.dialect := by
  refine .self .refl (fun _ _ _ => .refl (fun _ => rfl) _) (fun _ _ _ _ _ => .refl (fun _ => rfl) _)
    (fun _ _ _ _ k => ?_) (fun _ _ _ _ _ _ => .error _ _) (fun _ _ _ l l' _ => ?_) (fun _ _ => .ok rfl)
  · exact .refl (R := fun (s s' : Step) => s.plain = s'.plain) (fun _ => rfl) _
  · cases l <;> cases l' <;> exact .error _ _

theorem Toml.dialect_concurs : Toml.dialect.Alike (.concurrence Toml.Error Toml.Error) (fun _ => Eq) Eq
    Eq Toml.dialect := by
  refine .self .refl (fun _ _ _ => .refl (fun _ => rfl) _) (fun _ _ _ _ _ => .refl (fun _ => rfl) _)
    (fun _ _ _ _ k => ?_) (fun _ _ _ _ _ _ => .error _ _) (fun _ _ _ l l' _ => ?_) (fun _ _ => .ok rfl)
  · exact .refl (R := fun (s s' : Step) => s.plain = s'.plain) (fun _ => rfl) _
  · cases l <;> cases l' <;> exact .error _ _

namespace Yaml

/-- Readings that follow as many aliases and concur. -/
def reading : Comparison Reading Reading :=
  (Comparison.concurrence Error Error).inStep Nat

theorem reading_refl {α : Type} {R : α → α → Prop} (hR : ∀ a, R a a) (x : Reading α) :
    reading.rel R x x :=
  fun _ => .refl (fun r => ⟨hR r.1, rfl⟩) _

theorem reading_throw {α β : Type} (R : α → β → Prop) (e e' : Error) :
    reading.rel R (throw e : Reading α) (throw e' : Reading β) :=
  fun _ => .error e e'

theorem Tree.dialect_concurs (t : Tree) : t.dialect.Alike reading (fun _ => Eq) Eq Eq t.dialect := by
  have hfollow : ∀ n, reading.rel Eq (t.follow n) (t.follow n) := fun n => reading_refl (fun _ => rfl) _
  refine .self reading_refl (fun p p' n => ?_) (fun p p' holder holder' n => ?_) (fun p p' _ _ k => ?_)
    (fun R _ _ _ _ _ => reading_throw R _ _) (fun R _ _ l l' _ => ?_) (fun _ _ => reading.pure rfl)
  · refine reading.bind (hfollow n) ?_
    rintro n _ rfl
    cases n with
    | scalar m a s => exact reading.pure rfl
    | list m a items => exact reading_throw Eq _ _
    | map m a entries => exact reading_throw Eq _ _
    | reference m number => exact reading_throw Eq _ _
    | nothing m => exact reading_throw Eq _ _
  · refine reading.bind (hfollow n) ?_
    rintro n _ rfl
    cases n with
    | scalar m a s =>
      dsimp only
      cases s.isAbsent with
      | error e => exact reading_throw Eq _ _
      | ok absent =>
        cases absent with
        | true => exact reading.pure rfl
        | false =>
          cases s.flag? with
          | none => exact reading_throw Eq _ _
          | some b => exact reading.pure rfl
    | list m a items => exact reading_throw Eq _ _
    | map m a entries => exact reading_throw Eq _ _
    | reference m number => exact reading_throw Eq _ _
    | nothing m => exact reading.pure rfl
  · refine reading.bind (hfollow k) ?_
    rintro n _ rfl
    cases n with
    | scalar m a s => cases k <;> exact reading.pure rfl
    | list m a items => exact reading_throw _ _ _
    | map m a entries => exact reading_throw _ _ _
    | reference m number => exact reading_throw _ _ _
    | nothing m => exact reading_throw _ _ _
  · cases l <;> cases l' <;> exact reading_throw R _ _

end Yaml

namespace Document

theorem Concur.map {ε ε' α β α' β' : Type} {R : α → β → Prop} {S : α' → β' → Prop} {x : Except ε α}
    {y : Except ε' β} {f : α → α'} {g : β → β'} (h : Concur R x y) (hf : ∀ a b, R a b → S (f a) (g b)) :
    Concur S (x.map f) (y.map g) := by
  cases h with
  | ok h => exact .ok (hf _ _ h)
  | error e e' => exact .error e e'

end Document

/-- What is read with tracking is decoded as the same site. -/
theorem concur_decoded {ε ε' : Type} {x : Except ε (Site × List Path)} {y : Except ε' Site}
    (h : Concur (fun r s => r.1 = s) x y) (f : ε → DecodeError) (g : ε' → DecodeError) :
    Concur (fun (d : Decoded) s => d.site = s) ((x.map .ofTracked).mapError f) (y.mapError g) := by
  cases h with
  | ok h => exact .ok h
  | error e e' => exact .error (f e) (g e')

/-- Decoding with tracking and without return the same site, or both fail. -/
theorem decode_concurs (f : Format) (text : String) :
    Concur (fun d s => d.site = s) (decode f text) (decodePart .site f text) := by
  cases f with
  | json =>
    refine concur_decoded ?_ _ _
    refine (Comparison.concurrence Json.Error Json.Error).bind
      (Json.dialect_concurs.readTracked_untracked (i := 0) rfl) fun r s h => ?_
    cases (Json.read text.toList).trailing with
    | some pos => exact .error _ _
    | none => exact .ok h
  | toml =>
    refine concur_decoded ?_ _ _
    rw [Toml.readWith, Toml.readWith]
    cases Toml.read text.toList with
    | some n => exact Toml.dialect_concurs.readTracked_untracked (i := 0) rfl
    | none => exact .error _ _
  | yaml =>
    refine concur_decoded ?_ _ _
    rw [Yaml.readWith, Yaml.readWith]
    cases Yaml.tree? text.toList with
    | some t =>
      have h := t.dialect_concurs.readTracked_untracked (i := 0) (rfl : t.root = t.root) 0
      exact Concur.map h fun _ _ h => h.1
    | none => exact .error _ _

theorem decode_ok_iff (f : Format) (text : String) (s : Site) :
    (∃ ignored, decode f text = .ok ⟨s, ignored⟩) ↔ decodePart .site f text = .ok s := by
  have h := decode_concurs f text
  constructor
  · rintro ⟨ignored, hdecode⟩
    rw [hdecode] at h
    generalize decodePart .site f text = y at h
    cases h with
    | ok h => rw [← h]
  · intro hplain
    rw [hplain] at h
    generalize decode f text = x at h
    cases h with
    | @ok d _ h => exact ⟨d.ignored, by rw [← h]⟩

theorem decodeLogged_ok_iff (f : Format) (text : String) (s : Site) :
    (decodeLogged f text).outcome = .ok s ↔ ∃ ignored, decode f text = .ok ⟨s, ignored⟩ := by
  rw [decodeLogged_outcome]
  cases decode f text with
  | error e =>
    constructor
    · rintro ⟨⟩
    · rintro ⟨_, ⟨⟩⟩
  | ok d =>
    constructor
    · intro h
      exact ⟨d.ignored, by rw [← Except.ok.inj h]⟩
    · rintro ⟨_, h⟩
      rw [Except.ok.inj h]
      rfl

/-! ## More than one document -/

/-- No decoder takes the text. -/
structure Refused (f : Format) (text : String) : Prop where
  tracked : ∀ d, decode f text ≠ .ok d
  plain : ∀ s, decodePart .site f text ≠ .ok s
  logged : ∀ s, (decodeLogged f text).outcome ≠ .ok s

theorem Refused.of_decode {f : Format} {text : String} (h : ∀ d, decode f text ≠ .ok d) :
    Refused f text where
  tracked := h
  plain s hs := by
    obtain ⟨_, hdecode⟩ := (decode_ok_iff f text s).2 hs
    exact h _ hdecode
  logged s hs := by
    obtain ⟨_, hdecode⟩ := (decodeLogged_ok_iff f text s).1 hs
    exact h _ hdecode

/-- What is decoded is no scalar. -/
theorem ne_scalar_of_decode {f : Format} {text : String} {t : f.Tree} {d : Decoded}
    (ht : tree? f text = some t) (h : decode f text = .ok d) : ∀ v, t ≠ .scalar v := by
  obtain ⟨_, hread, -⟩ := readTracked_of_decode ht h
  have hsite := (Meaning.readTracked_eq_some_iff.1 hread).1.2
  rintro v rfl
  cases hsite

theorem decode_json_append {text : String} {d : Decoded} (h : decode .json text = .ok d) (more : String) :
    ((∀ c ∈ more.toList, Json.isBlank c = true) → decode .json (text ++ more) = .ok d) ∧
      ((∃ c ∈ more.toList, Json.isBlank c = false) → Refused .json (text ++ more)) := by
  obtain ⟨t, ht⟩ := exists_tree?_of_decode h
  obtain ⟨hblank, hother⟩ :=
    Json.readWith_append ht (ne_scalar_of_decode ht h) more Json.dialect.readTracked
  refine ⟨fun hmore => ?_, fun hmore => .of_decode fun d' h' => ?_⟩
  · rw [decode, hblank hmore]
    exact h
  · obtain ⟨e, he⟩ := hother hmore
    rw [decode, he] at h'
    cases h'

theorem refused_of_not_holdsOne {text : String} (h : ¬ Yaml.HoldsOne text.toList) : Refused .yaml text := by
  refine .of_decode fun d hd => h ?_
  obtain ⟨t, ht⟩ := exists_tree?_of_decode hd
  obtain ⟨y, hy, -⟩ := Option.map_eq_some_iff.1 ht
  exact Yaml.holdsOne_of_tree? hy

theorem refused_of_another {text : String} {d : Decoded} (h : decode .yaml (text ++ "\n") = .ok d)
    {more : String} (hmore : Yaml.atGap (Yaml.unifyBreaks more.toList) = true) :
    Refused .yaml (text ++ "\n---" ++ more) := by
  obtain ⟨t, ht⟩ := exists_tree?_of_decode h
  have hscalar := ne_scalar_of_decode ht h
  obtain ⟨y, hy, rfl⟩ := Option.map_eq_some_iff.1 ht
  rw [String.toList_append] at hy
  have hroot : ∀ m, y.root ≠ .nothing m := by
    intro m hm
    refine hscalar .nothing ?_
    rw [hm, Yaml.Tree.unfold.eq_def]
    rfl
  refine .of_decode fun d' hd' => ?_
  obtain ⟨t', ht'⟩ := exists_tree?_of_decode hd'
  obtain ⟨y', hy', -⟩ := Option.map_eq_some_iff.1 ht'
  have hnone := Yaml.tree?_eq_none_of_another hmore hy hroot
  rw [String.toList_append, String.toList_append, List.append_assoc] at hy'
  cases hnone.symm.trans hy'

/-- Tracking the ignored keys changes neither what is accepted nor the site. Behind a JSON document
there may only be white space, and a YAML text may only hold one document. -/
theorem decode_refines_plain :
    (∀ f text s, ((∃ ignored, decode f text = .ok ⟨s, ignored⟩) ↔ decodePart .site f text = .ok s) ∧
      ((decodeLogged f text).outcome = .ok s ↔ decodePart .site f text = .ok s)) ∧
    (∀ text d, decode .json text = .ok d → ∀ more : String,
      ((∀ c ∈ more.toList, Json.isBlank c = true) → decode .json (text ++ more) = .ok d) ∧
      ((∃ c ∈ more.toList, Json.isBlank c = false) → Refused .json (text ++ more))) ∧
    (∀ text : String, ¬ Yaml.HoldsOne text.toList → Refused .yaml text) ∧
    ∀ text d, decode .yaml (text ++ "\n") = .ok d → ∀ more : String,
      Yaml.atGap (Yaml.unifyBreaks more.toList) = true → Refused .yaml (text ++ "\n---" ++ more) := by
  refine ⟨fun f text s => ⟨decode_ok_iff f text s, ?_⟩, fun text d h more => decode_json_append h more,
    fun text h => refused_of_not_holdsOne h, fun text d h more hmore => refused_of_another h hmore⟩
  rw [decodeLogged_ok_iff, decode_ok_iff]

set_option maxRecDepth 8000 in
theorem decode_refines_plain_further :
    decodePart .site .json "[\"\", \"\", \"/\", []]" = .ok ⟨"", "", "/", []⟩ ∧
    Refused .json "[\"\", \"\", \"/\", []] 1" ∧
    decodePart .site .yaml "title: A\ndescription: B\nbasePath: /\nsidebar: []\n" =
      .ok ⟨"A", "B", "/", []⟩ ∧
    Refused .yaml "title: A\ndescription: B\nbasePath: /\nsidebar: []\n---\n" := by
  obtain ⟨hsame, hjson, -, hyaml⟩ := decode_refines_plain
  have h : decode .json "[\"\", \"\", \"/\", []]" = .ok ⟨⟨"", "", "/", []⟩, []⟩ := by cbv
  have h' : decode .yaml ("title: A\ndescription: B\nbasePath: /\nsidebar: []" ++ "\n") =
      .ok ⟨⟨"A", "B", "/", []⟩, []⟩ := by cbv
  refine ⟨((hsame _ _ _).1).1 ⟨_, h⟩, ?_, ((hsame _ _ _).1).1 ⟨_, h'⟩, ?_⟩
  · exact (hjson _ _ h " 1").2 ⟨'1', by decide, by decide⟩
  · exact hyaml _ _ h' "\n" rfl

end SiteNav
