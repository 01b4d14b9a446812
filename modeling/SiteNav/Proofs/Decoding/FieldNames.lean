import Mathlib
import SiteNav.Codec
import SiteNav.Proofs.Json.Refusals
import SiteNav.Proofs.Toml.Refusals
import SiteNav.Proofs.Yaml.Refusals

/-!
# Fields named in messages

A document that lacks a field, or has a value of another form in one, is refused with a message that
should name the field. Main statement: a missing field is always named; a field with a value of another
form is named in TOML and YAML, with four exceptions, and in JSON the message says nothing of it.
-/
namespace SiteNav
open Document

/-- The name stands in the message. -/
def Mentions (message name : String) : Prop :=
  name.toList <:+: message.toList

instance (message name : String) : Decidable (Mentions message name) :=
  inferInstanceAs (Decidable (name.toList <:+: message.toList))

namespace Mentions
variable {a b name : String}

theorem refl (name : String) : Mentions name name :=
  List.infix_rfl

theorem append_left (h : Mentions a name) (b : String) : Mentions (a ++ b) name := by
  rw [Mentions, String.toList_append]
  exact List.infix_append_of_infix_left h

theorem append_right (h : Mentions b name) (a : String) : Mentions (a ++ b) name := by
  rw [Mentions, String.toList_append]
  exact List.infix_append_of_infix_right h

end Mentions

/-! ## Messages -/

/-- The field that a document lacks. -/
def Document.Misfit.missing? : Misfit → Option String
  | .missing name => some name
  | .noSidebar => some "sidebar"
  | _ => none

/-- A value is of another form than is asked of it; keys are not values. -/
def Document.Misfit.isMistyped : Misfit → Bool
  | .mistyped _ .name => false
  | .mistyped _ _ | .misspelled _ _ => true
  | _ => false

def DecodeError.misfit? : DecodeError → Option Misfit
  | json (.misfit m _) | toml (.misfit m _) _ | yaml (.misfit m _) => some m
  | _ => none

theorem mentions_missing {m : Misfit} {name : String} (h : m.missing? = some name) :
    Mentions m.message name := by
  cases m with
  | missing field =>
    cases h
    exact ((Mentions.refl name).append_right _).append_left _
  | noSidebar =>
    cases h
    decide
  | _ => cases h

theorem mentions_marked {message name : String} (h : Mentions message name) (text : List Char)
    (span : Toml.Span) : Mentions (Toml.marked text span message) name := by
  unfold Toml.marked
  exact (h.append_right _).append_left _

theorem mentions_misfit {e : DecodeError} {m : Misfit} {name : String} (he : e.misfit? = some m)
    (h : Mentions m.message name) : Mentions e.message name := by
  cases e with
  | json e =>
    rcases e with _ | ⟨m', _ | pos⟩ <;> cases he
    · exact h.append_right _
    · exact ((((h.append_left _).append_left _).append_left _).append_left _).append_right _
  | toml e text =>
    rcases e with _ | ⟨m', _ | span⟩ | _ <;> cases he
    · exact (h.append_left _).append_right _
    · exact (mentions_marked h text.toList span).append_right _
  | yaml e =>
    rcases e with _ | ⟨m', _ | ⟨p, mark⟩⟩ | _ <;> cases he
    · exact h.append_right _
    · exact ((h.append_right _).append_left _).append_right _

/-! ## Paths -/

theorem mentions_bracketed {s : Step} {p : Path} (h : s ∈ p) : Mentions p.bracketed s.written := by
  fun_induction Path.bracketed p with
  | case1 => cases h
  | case2 s' =>
    rw [List.mem_singleton] at h
    exact h ▸ .refl _
  | case3 i p _ ih =>
    rcases List.mem_cons.1 h with rfl | h
    · exact (Mentions.refl _).append_right _
    · exact (ih h).append_left _
  | case4 s' p _ _ ih =>
    rcases List.mem_cons.1 h with rfl | h
    · exact (Mentions.refl _).append_right _
    · exact ((ih h).append_left _).append_left _

theorem mentions_written {s : Step} (h : ∀ name, s ≠ .reference name) : Mentions s.written s.plain := by
  cases s with
  | key name => exact .refl name
  | index i => exact ((Mentions.refl _).append_right _).append_left _
  | reference name => exact absurd rfl (h name)

theorem mentions_placed {s : Step} {p : Path} (h : s ∈ p) (message : String) (mark : Yaml.Mark) :
    Mentions (Yaml.placed message p mark) s.written := by
  have hp : p.isEmpty = false := by
    cases p with
    | nil => cases h
    | cons s' p => rfl
  rw [Yaml.placed, hp]
  exact (((mentions_bracketed h).append_left _).append_left _).append_left _

/-! ## Documents -/

/-- A document: what there is to see in it, and the errors that its values are refused with. -/
structure Seen where
  {ν κ : Type}
  sight : Sight ν κ
  root : ν
  /-- The error is one for a value at a path that is not of the form. -/
  refuses : Form → Path → ν → DecodeError → Prop

/-- In JSON a value without a fault is refused. In YAML the error is at the path of the value, or at that
of the structure around a flag. -/
def seen? (text : String) : Format → Option Seen
  | .json => some ⟨Json.sight, (Json.read text.toList).root, fun fm _ n e =>
      ∃ m pos, n.refuse (.mistyped · fm.expected) = .misfit m pos ∧ e = .json (.misfit m pos)⟩
  | .toml => (Toml.read text.toList).map fun root => ⟨Toml.sight, root, fun fm _ n e =>
      e = .toml (n.refuse (.mistyped · fm.expected)) text⟩
  | .yaml => (Yaml.tree? text.toList).map fun t => ⟨t.sight, t.root, fun fm p n e =>
      (∃ m n', t.resolve? n = some n' ∧ e = .yaml (.misfit m (some (p, n'.mark)))) ∨
      fm = .flag ∧ ∃ s mark, e = .yaml (.misfit (.misspelled s "null") (some (p.tail, mark)))⟩

/-- The errors for a value at a path that do not name the field given by a step. -/
inductive Unnamed (text : String) (step : Step) (p : Path) : DecodeError → Prop
  /-- There is nothing in it but what the value is, what is asked for, and the place. -/
  | json (found : Found) (expected : Expected) (pos : Json.Pos) :
      Unnamed text step p (.json (.misfit (.mistyped found expected) (some pos)))
  /-- The key is shown as it is written, with escapes. -/
  | escaped {key : List Char} {e : Toml.Error} (hkey : Toml.SpellsKey key step.plain) (hescape : '\\' ∈ key)
      (hshown : key <:+: (e.message text.toList).toList) : Unnamed text step p (.toml e text)
  /-- An element of a list does not start on the line of the key, and its own line is shown. -/
  | element {e : Toml.Error} {span : Toml.Span} {message : String} {i : Nat} {above : Path}
      (hp : p = .index i :: above) (hline : ¬Toml.OnLine text.toList step.plain span.start)
      (hshown : e.message text.toList = Toml.marked text.toList span message) :
      Unnamed text step p (.toml e text)
  /-- The key is an alias, which is left out of the path. -/
  | alias {name : String} {m : Misfit} (mark : Yaml.Mark) (hstep : step = .reference name) :
      Unnamed text step p (.yaml (.misfit m (some (p, mark))))
  /-- A flag is declared null, but is not, and only the structure around it is named. -/
  | notNull {above : Path} (s : String) (mark : Yaml.Mark) (hp : p = step :: above) :
      Unnamed text step p (.yaml (.misfit (.misspelled s "null") (some (above, mark))))

/-- An error for a field that is missing names the field, and an error for a value of another form is the
one that some value is refused with. Whatever value in a field that is, the error names the innermost
such field, unless it is one of those that do not. -/
structure NamesFields (text : String) (d : Seen) (e : DecodeError) : Prop where
  missing : ∀ name, e.misfit?.bind Misfit.missing? = some name →
    d.sight.Lacks d.root name ∧ Mentions e.message name
  mistyped : e.misfit?.any Misfit.isMistyped = true →
    ∃ fm o p n, d.sight.Asks d.root fm o p n ∧ ¬d.sight.Fits fm n ∧ d.refuses fm p n e
  named : ∀ fm step p n, d.sight.Asks d.root fm (some step) p n → ¬d.sight.Fits fm n →
    d.refuses fm p n e → Mentions e.message step.plain ∨ Unnamed text step p e

/-! ## What errors are for -/

/-- An error is for a value of another form, for fields that are missing, or for neither. -/
inductive Seen.Blames (d : Seen) (e : DecodeError) : Prop
  | other (hmissing : e.misfit?.bind Misfit.missing? = none)
      (hmistyped : e.misfit?.any Misfit.isMistyped = false)
  | fields {m : Misfit} (he : e.misfit? = some m) (h : d.sight.Amiss d.root m)
  | mistyped {m : Misfit} {fm : Form} {o : Option Step} {p : Path} {n : d.ν} (he : e.misfit? = some m)
      (hm : m.missing? = none) (h : d.sight.Asks d.root fm o p n) (hn : ¬d.sight.Fits fm n)
      (hrefuses : d.refuses fm p n e)

namespace Seen.Blames
variable {d : Seen} {e : DecodeError} (h : d.Blames e)
include h

theorem lacks {name : String} (hname : e.misfit?.bind Misfit.missing? = some name) :
    d.sight.Lacks d.root name ∧ Mentions e.message name := by
  cases h with
  | other hmissing =>
    rw [hmissing] at hname
    cases hname
  | @fields m he hamiss =>
    rw [he, Option.bind_some] at hname
    refine ⟨?_, mentions_misfit he (mentions_missing hname)⟩
    cases hamiss <;> cases hname <;> assumption
  | mistyped he hm =>
    rw [he, Option.bind_some, hm] at hname
    cases hname

theorem exists_refuses (hmistyped : e.misfit?.any Misfit.isMistyped = true) :
    ∃ fm o p n, d.sight.Asks d.root fm o p n ∧ ¬d.sight.Fits fm n ∧ d.refuses fm p n e := by
  cases h with
  | other _ hnone =>
    rw [hnone] at hmistyped
    cases hmistyped
  | fields he hamiss =>
    rw [he] at hmistyped
    cases hamiss <;> cases hmistyped
  | mistyped _ _ hasks hn hrefuses => exact ⟨_, _, _, _, hasks, hn, hrefuses⟩

end Seen.Blames

section Formats
variable {text : String} {d : Seen}

theorem blames_json {e : Json.Error} (hd : seen? text .json = some d)
    (h : Json.Refusal (Json.read text.toList).root e) : d.Blames (.json e) := by
  cases hd
  cases h with
  | fault f => exact .other rfl rfl
  | fields pos h => exact .fields rfl h
  | mistyped hasks hn hrefuse => exact .mistyped rfl rfl hasks hn ⟨_, _, hrefuse, rfl⟩

theorem blames_toml {root : Toml.Node} {e : Toml.Error} (hroot : Toml.read text.toList = some root)
    (hd : seen? text .toml = some d) (h : Toml.Refusal root e) : d.Blames (.toml e text) := by
  rw [seen?, hroot] at hd
  cases hd
  cases h with
  | overflow what span => exact .other rfl rfl
  | fields span h => exact .fields rfl h
  | @mistyped fm o p n found hasks hn hfound =>
    have hrefuse : n.refuse (.mistyped · fm.expected) =
        .misfit (.mistyped found fm.expected) (some n.span) := by
      rw [Toml.Node.refuse, hfound]
    exact .mistyped rfl rfl hasks hn (congrArg (DecodeError.toml · text) hrefuse.symm)

theorem blames_yaml {t : Yaml.Tree} {e : Yaml.Error} (ht : Yaml.tree? text.toList = some t)
    (hd : seen? text .yaml = some d) (h : Yaml.Refusal t e) : d.Blames (.yaml e) := by
  rw [seen?, ht] at hd
  cases hd
  cases h with
  | malformed => exact .other rfl rfl
  | endless => exact .other rfl rfl
  | key found place => exact .other rfl rfl
  | fields place h => exact .fields rfl h
  | mistyped found hasks hn hn' => exact .mistyped rfl rfl hasks hn (.inl ⟨_, _, hn', rfl⟩)
  | misspelled s declared hasks hn hn' => exact .mistyped rfl rfl hasks hn (.inl ⟨_, _, hn', rfl⟩)
  | notNull s mark hasks hn => exact .mistyped rfl rfl hasks hn (.inr ⟨rfl, _, _, rfl⟩)

/-! ## What errors for values show -/

variable {fm : Form} {step : Step} {p : Path} {e : DecodeError}

theorem named_json (hd : seen? text .json = some d) {n : d.ν} (h : d.refuses fm p n e) :
    Mentions e.message step.plain ∨ Unnamed text step p e := by
  cases hd
  obtain ⟨m, pos, hrefuse, rfl⟩ := h
  rcases n with ⟨_, _, _ | _⟩ | _ | _ | _ <;> cases hrefuse <;> exact .inr (.json ..)

theorem named_toml (hd : seen? text .toml = some d) {n : d.ν}
    (hasks : d.sight.Asks d.root fm (some step) p n) (h : d.refuses fm p n e) :
    Mentions e.message step.plain ∨ Unnamed text step p e := by
  obtain ⟨root, hroot, rfl⟩ := Option.map_eq_some_iff.1 hd
  obtain ⟨span, es, rfl, hes⟩ := Toml.allKeyed_of_read hroot
  obtain ⟨-, hplace⟩ := Toml.keyed_of_asks hes hasks
  obtain ⟨message, hmessage⟩ := n.exists_message_refuse (.mistyped · fm.expected) text.toList
  cases h
  by_cases hline : Toml.OnLine text.toList step.plain n.span.start
  · obtain ⟨key, hkey, hshown⟩ := hline.exists_isInfix message
    rw [← hmessage] at hshown
    by_cases hescape : '\\' ∈ key
    · exact .inr (.escaped hkey hescape hshown)
    · have hname : Mentions ((n.refuse (.mistyped · fm.expected)).message text.toList) step.plain :=
        (hkey.isInfix hescape).trans hshown
      exact .inl (hname.append_right _)
  · obtain ⟨i, above, hp⟩ := hplace.resolve_left hline
    exact .inr (.element hp hline hmessage)

/-- Only an alias is left out of a path. -/
theorem named_yaml (hd : seen? text .yaml = some d) {n : d.ν}
    (hasks : d.sight.Asks d.root fm (some step) p n) (h : d.refuses fm p n e) :
    Mentions e.message step.plain ∨ Unnamed text step p e := by
  obtain ⟨t, -, rfl⟩ := Option.map_eq_some_iff.1 hd
  obtain ⟨m, n', -, rfl⟩ | ⟨rfl, s, mark, rfl⟩ := h
  · by_cases halias : ∃ name, step = .reference name
    · obtain ⟨name, rfl⟩ := halias
      exact .inr (.alias _ rfl)
    · have hwritten := mentions_written fun name hname => halias ⟨name, hname⟩
      have hmessage : Mentions (Yaml.placed m.message p n'.mark) step.plain :=
        List.IsInfix.trans hwritten (mentions_placed hasks.step_mem m.message n'.mark)
      exact .inl (hmessage.append_right _)
  · obtain ⟨above, rfl⟩ := hasks.exists_of_flag
    exact .inr (.notNull s mark rfl)

end Formats

theorem exists_of_decode {ε : Type} {x : Except ε (Site × List Path)} {toError : ε → DecodeError}
    {e : DecodeError} (h : (x.map Decoded.ofTracked).mapError toError = .error e) :
    ∃ e', x = .error e' ∧ e = toError e' := by
  cases x with
  | ok r => cases h
  | error e' =>
    cases h
    exact ⟨e', rfl, rfl⟩

/-- A document whose structures are maps is refused with an error that names the field that it is for,
but for those errors for values of another form that do not. -/
theorem decode_names_fields {f : Format} {text : String} {e : DecodeError} {d : Seen}
    (h : decode f text = .error e) (hd : seen? text f = some d) (hmaps : ¬d.sight.Listed d.root) :
    NamesFields text d e := by
  cases f with
  | json =>
    obtain ⟨e', hread, rfl⟩ := exists_of_decode h
    have hrefusal : Json.Refusal (Json.read text.toList).root e' := by
      cases hd
      exact Json.refusal_of_readWith hmaps hread
    have hblames := blames_json hd hrefusal
    exact ⟨fun _ => hblames.lacks, hblames.exists_refuses, fun _ _ _ _ _ _ => named_json hd⟩
  | toml =>
    obtain ⟨e', hread, rfl⟩ := exists_of_decode h
    have hlisted : ∀ root, Toml.read text.toList = some root → ¬Toml.sight.Listed root := by
      intro root hroot
      rw [seen?, hroot] at hd
      cases hd
      exact hmaps
    have hblames : d.Blames (.toml e' text) := by
      rcases Toml.refusal_of_readWith hlisted hread with rfl | ⟨root, hroot, hrefusal⟩
      · exact .other rfl rfl
      · exact blames_toml hroot hd hrefusal
    exact ⟨fun _ => hblames.lacks, hblames.exists_refuses, fun _ _ _ _ hasks _ => named_toml hd hasks⟩
  | yaml =>
    obtain ⟨e', hread, rfl⟩ := exists_of_decode h
    have hblames : d.Blames (.yaml e') := by
      rcases Yaml.refusal_of_readWith hread with rfl | ⟨t, ht, hrefusal⟩
      · exact .other rfl rfl
      · exact blames_yaml ht hd hrefusal
    exact ⟨fun _ => hblames.lacks, hblames.exists_refuses, fun _ _ _ _ hasks _ => named_yaml hd hasks⟩

set_option maxRecDepth 8000 in
theorem decode_names_fields_items :
    let text := "sidebar:\n- text: G\n  items: x\n"
    ∃ e d, decode .yaml text = .error e ∧ seen? text .yaml = some d ∧ ¬d.sight.Listed d.root ∧
      NamesFields text d e ∧ Mentions e.message "items" := by
  intro text
  have hdecode : decode .yaml text = .error (.yaml (.misfit (.mistyped (.text "x") .list)
      (some ([.key "items", .index 0, .key "sidebar"], ⟨2, 9⟩)))) := by cbv
  have hseen : (seen? text .yaml).isSome = true := by
    rw [seen?, Option.isSome_map]
    cbv
  obtain ⟨d, hd⟩ := Option.isSome_iff_exists.1 hseen
  have hmaps : ¬d.sight.Listed d.root := by
    obtain ⟨t, -, rfl⟩ := Option.map_eq_some_iff.1 hd
    exact fun h => Bool.false_ne_true h.1
  exact ⟨_, d, hdecode, hd, hmaps, decode_names_fields hdecode hd hmaps, by decide +kernel⟩

set_option maxRecDepth 8000 in
/-- A title that is a flag is not named in JSON. -/
theorem decode_title_unnamed :
    let text := "\x7b\"title\": true\x7d"
    ∃ e, ∃ d : Seen, ∃ n, decode .json text = .error e ∧ seen? text .json = some d ∧
      ¬d.sight.Listed d.root ∧ d.sight.Asks d.root .text (some (.key "title")) [.key "title"] n ∧
      ¬d.sight.Fits .text n ∧ d.refuses .text [.key "title"] n e ∧ ¬Mentions e.message "title" := by
  intro text
  let title : Json.Node := .scalar ⟨1, 10⟩ ⟨1, 14⟩ (.ok (.bool true))
  let root : Json.Node := .map ⟨1, 0⟩ [(⟨.ok "title", ⟨1, 8⟩⟩, title)] (.closed ⟨1, 15⟩)
  have hroot : (Json.read text.toList).root = root := by cbv
  have hdecode : decode .json text =
      .error (.json (.misfit (.mistyped (.bool true) .text) (some ⟨1, 14⟩))) := by cbv
  have hd : seen? text .json = some ⟨Json.sight, root, fun fm _ n e =>
      ∃ m pos, n.refuse (.mistyped · fm.expected) = .misfit m pos ∧ e = .json (.misfit m pos)⟩ := by
    rw [seen?, hroot]
  have htitle : Form.member? Form.siteMembers (some (Step.key "title").plain) =
      some ⟨"title", [], true, .text⟩ := rfl
  have hasks : Json.sight.Asks root .text (some (.key "title")) [.key "title"] title :=
    Sight.Asks.field .root rfl List.mem_cons_self rfl htitle
  have hforms : ∀ {fm o p n}, Json.sight.Asks root fm o p n → fm = .site ∧ n = root ∨ fm = .text := by
    intro fm o p n h
    induction h with
    | root => exact .inl ⟨rfl, rfl⟩
    | field hn hview hv hstep hs ih =>
      rcases ih with ⟨hfm, rfl⟩ | hfm <;> cases hfm
      cases hview
      rw [List.mem_singleton] at hv
      cases hv
      cases hstep
      cases htitle.symm.trans hs
      exact .inr rfl
    | element hn hview hv ih => rcases ih with ⟨hfm, -⟩ | hfm <;> cases hfm
  have hmaps : ¬Json.sight.Listed root := by
    rintro ⟨-, r, members, o, p, n, n', ns, hn, hview⟩
    rcases hforms hn with ⟨-, rfl⟩ | hfm
    · cases hview
    · cases hfm
  have hfits : ¬Json.sight.Fits .text title := Bool.false_ne_true
  exact ⟨_, _, title, hdecode, hd, hmaps, hasks, hfits, ⟨_, _, rfl, rfl⟩, by decide +kernel⟩

end SiteNav
