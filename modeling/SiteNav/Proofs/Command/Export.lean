import SiteNav.Proofs.Command.Agreement
import SiteNav.Proofs.Json.Tree
import SiteNav.Proofs.Toml.Tables
import SiteNav.Proofs.Yaml.Ending

/-!
# Exporting what was exported

A document is exported with a line feed at its end. What is read back from it is the site that was
loaded, so a file that holds the document is exported as the same text again and is checked with the
same warnings. In YAML there is one exception: the line feed becomes part of a last link that ends in
several breaks and no line feed.
-/
namespace SiteNav
open Document
open Command (endLine)

section Decode
variable {text : String} {s : Site}

theorem decode_json_of_shows {root : Json.Node} (hread : Json.read text.toList = ⟨root, none⟩)
    (hshow : Json.dialect.Shows root (.ofSite s)) : decode .json text = .ok ⟨s, []⟩ := by
  simp only [decode, Json.readWith, hread, Json.dialect.readTracked_of_shows s root hshow]
  rfl

theorem decode_toml_of_shows {root : Toml.Node} (hread : Toml.read text.toList = some root)
    (hshow : Toml.dialect.Shows root (.ofSite s)) : decode .toml text = .ok ⟨s, []⟩ := by
  simp only [decode, Toml.readWith, hread, Toml.dialect.readTracked_of_shows s root hshow]
  rfl

theorem decode_yaml_of_shows {t : Yaml.Tree} (hread : Yaml.tree? text.toList = some t)
    (hshow : t.dialect.Shows t.root (.ofSite s)) : decode .yaml text = .ok ⟨s, []⟩ := by
  simp only [decode, Yaml.readWith, hread, t.dialect.readTracked_of_shows s t.root hshow]
  rfl

end Decode

section EndLine

theorem getLast?_endLine (text : String) : (endLine text).toList.getLast? = some '\n' := by
  rw [endLine]
  split
  · assumption
  · simp

theorem endLine_of_getLast? {text : String} (h : text.toList.getLast? = some '\n') :
    endLine text = text :=
  if_pos h

theorem endLine_of_ne {text : String} (h : text.toList.getLast? ≠ some '\n') :
    endLine text = text ++ "\n" :=
  if_neg h

theorem toList_encode_yaml (s : Site) : (encode .yaml s).toList = Yaml.Written.site s :=
  String.toList_ofList

theorem decode_endLine {f : Format} {s : Site} (h : ¬(f = .yaml ∧ Yaml.TakesLine s)) :
    decode f (endLine (encode f s)) = .ok ⟨s, []⟩ := by
  cases f with
  | json =>
    have hblank : ∃ ws : List Char, (∀ c ∈ ws, Json.isBlank c = true) ∧
        (endLine (encode .json s)).toList = Json.Written.content 0 (.ofSite s) ++ ws := by
      rw [endLine]
      split
      · exact ⟨[], nofun, by simp [encode, Json.write]⟩
      · exact ⟨['\n'], List.forall_mem_singleton.2 rfl, by simp [encode, Json.write]⟩
    obtain ⟨ws, hws, htext⟩ := hblank
    obtain ⟨root, hread, hshow⟩ := Json.read_append hws (.ofSite s)
    exact decode_json_of_shows (htext ▸ hread) hshow
  | toml =>
    have htext : (encode .toml s).toList = Toml.writeChars s := String.toList_ofList
    obtain ⟨root, hread, hshow⟩ := Toml.exists_read_writeChars s
    rw [endLine_of_getLast? (htext ▸ Toml.getLast?_writeChars s)]
    exact decode_toml_of_shows (htext ▸ hread) hshow
  | yaml =>
    have htext := toList_encode_yaml s
    cases hline : Yaml.endsInLine (Yaml.Written.site s) with
    | true =>
      obtain ⟨t, hread, hshow⟩ := Yaml.exists_tree_site s
      rw [endLine_of_getLast? (htext ▸ Yaml.endsInLine_iff.1 hline)]
      exact decode_yaml_of_shows (htext ▸ hread) hshow
    | false =>
      have hne : (encode .yaml s).toList.getLast? ≠ some '\n' := by
        rw [htext, ne_eq, ← Yaml.endsInLine_iff, hline]
        decide
      obtain ⟨t, hread, hshow⟩ := Yaml.exists_tree_newline hline fun htakes => h ⟨rfl, htakes⟩
      rw [endLine_of_ne hne]
      refine decode_yaml_of_shows ?_ hshow
      rwa [String.toList_append, htext]

/-- Where the line feed is taken for a part of the last link, the longer link is written the same. -/
theorem encode_lengthened {s : Site} (h : Yaml.TakesLine s) :
    encode .yaml (Yaml.lengthened s) = endLine (encode .yaml s) := by
  have htext := toList_encode_yaml s
  have hne : (encode .yaml s).toList.getLast? ≠ some '\n' := by
    rw [htext, ne_eq, ← Yaml.endsInLine_iff, h.endsInLine_eq_false]
    decide
  rw [endLine_of_ne hne, ← String.toList_inj, toList_encode_yaml, h.site_lengthened,
    String.toList_append, htext]
  rfl

theorem decode_endLine_of_takesLine {s : Site} (h : Yaml.TakesLine s) :
    decode .yaml (endLine (encode .yaml s)) = .ok ⟨Yaml.lengthened s, []⟩ := by
  obtain ⟨t, hread, hshow⟩ := Yaml.exists_tree_site (Yaml.lengthened s)
  rw [← encode_lengthened h]
  refine decode_yaml_of_shows ?_ hshow
  rwa [toList_encode_yaml]

end EndLine

namespace Command

def verdict (strict : Bool) (s : Site) : String :=
  if s.validate.passes strict then s.validate.tally else "Error: " ++ s.validate.tally

theorem lines_reported (before : List Entry) (strict : Bool) (s : Site) :
    (reported before strict s).lines = Outcome.lines ⟨0, "", before⟩ ++
      (s.validate.issues.map (·.describe) ++ [size s, verdict strict s]) := by
  simp only [reported, verdict]
  split <;> simp [failed, Outcome.lines, List.filterMap_append]

theorem lines_check {w : Workspace} {config basePath : Option String} (strict : Bool) {path : String}
    {s : Site} (hpath : (w.resolve config).outcome = .ok path) (hs : (w.readSite path).outcome = .ok s) :
    (check w config basePath strict).lines = ("Checking " ++ path) ::
      ((s.withBasePath basePath).validate.issues.map (·.describe) ++
        [size (s.withBasePath basePath), verdict strict (s.withBasePath basePath)]) := by
  simp only [check, hpath, hs, lines_reported]
  simp [Outcome.lines, logged, List.filterMap_append, List.filterMap_map]

/-- A command is asked about the file at a path, which holds a text, with no override. -/
structure Visits (i : Invocation) (v : Verb) (o : Options) (path text : String) : Prop where
  arguments : readArguments i.arguments = .ok (v, o)
  resolve : (i.workspace.resolve o.config).outcome = .ok path
  status : i.workspace.status path = .file text.toUTF8
  basePath : (o.basePath <|> i.basePath) = none

theorem Visits.readSite_outcome {i : Invocation} {v : Verb} {o : Options} {path text : String}
    {f : Format} {d : Decoded} (h : Visits i v o path text) (hformat : Format.ofPath? path = some f)
    (hread : decode f text = .ok d) : (i.workspace.readSite path).outcome = .ok d.site := by
  rw [Workspace.readSite_outcome h.status hformat, hread]
  rfl

/-- A text is a site in some format, and whatever file of that format holds it is exported as the same
text and checked with no findings but the warnings of the site. -/
structure Keeps (f : Format) (text : String) (s : Site) : Prop where
  decode_eq : decode f text = .ok ⟨s, []⟩
  print_eq : ∀ {j p path}, Visits j .print p path text → Format.ofPath? path = some f →
    p.format.getD .json = f → (run j).exitCode = 0 ∧ (run j).output = text
  check_eq : ∀ {j p path}, Visits j .check p path text → Format.ofPath? path = some f →
    (run j).lines = ("Checking " ++ path) ::
      (s.validate.warnings.map (·.describe) ++ [size s, verdict p.strict s])

theorem print_of_ok {w : Workspace} {config basePath : Option String} {s : Site} (f : Format)
    (h : (w.load config basePath).outcome = .ok s) :
    ∃ entries, print w config basePath f = ⟨0, endLine (encode f s), entries⟩ := by
  simp only [print, h]
  exact ⟨_, rfl⟩

/-- A site without errors is kept by the text that is printed for it, if it is read from that. -/
theorem keeps_of_decode {f : Format} {text : String} {s : Site} (hvalid : s.validate.hasErrors = false)
    (htext : endLine (encode f s) = text) (hread : decode f text = .ok ⟨s, []⟩) : Keeps f text s where
  decode_eq := hread
  print_eq := by
    intro j p path hvisits hformat hf
    have hs := hvisits.readSite_outcome hformat hread
    have hload := Workspace.load_of_findSite (Workspace.findSite_outcome hvisits.resolve hs) hvalid
    obtain ⟨entries, hprint⟩ := print_of_ok f hload
    rw [run_of_arguments hvisits.arguments]
    simp [execute, hvisits.basePath, hf, hprint, htext]
  check_eq := by
    intro j p path hvisits hformat
    have hs := hvisits.readSite_outcome hformat hread
    rw [run_of_arguments hvisits.arguments]
    simp only [execute, hvisits.basePath]
    rw [lines_check p.strict hvisits.resolve hs, Site.withBasePath, Report.issues_eq_warnings hvalid]

/-- Where the last link takes in the line feed that ends the document, the site with the longer link is
what is kept. -/
theorem keeps_lengthened {s : Site} (h : Yaml.TakesLine s)
    (hvalid : (Yaml.lengthened s).validate.hasErrors = false) :
    Keeps .yaml (endLine (encode .yaml s)) (Yaml.lengthened s) := by
  refine keeps_of_decode hvalid ?_ (decode_endLine_of_takesLine h)
  rw [encode_lengthened h, endLine_of_getLast? (getLast?_endLine _)]

/-- A document that is exported is read back as the site that was loaded and is kept by further exports
and checks, unless its last link takes in the line feed that ends the document. -/
theorem print_keeps {i : Invocation} {o : Options} (h : readArguments i.arguments = .ok (.print, o))
    (hexit : (run i).exitCode = 0) :
    ∃ s, (i.workspace.load o.config (o.basePath <|> i.basePath)).outcome = .ok s ∧
      (run i).output.toList.getLast? = some '\n' ∧
      (¬(o.format.getD .json = .yaml ∧ Yaml.TakesLine s) →
        Keeps (o.format.getD .json) (run i).output s) ∧
      (o.format.getD .json = .yaml ∧ Yaml.TakesLine s →
        decode .yaml (run i).output = .ok ⟨Yaml.lengthened s, []⟩ ∧
        ((Yaml.lengthened s).validate.hasErrors = false →
          Keeps .yaml (run i).output (Yaml.lengthened s))) := by
  rw [run_of_arguments h] at hexit ⊢
  simp only [execute] at hexit ⊢
  obtain ⟨s, r, hreported⟩ := (exitCode_print _ _ _ _).1 hexit
  have hload : (i.workspace.load o.config (o.basePath <|> i.basePath)).outcome = .ok s := by
    rw [Workspace.load_outcome, hreported]
    rfl
  have hvalid := Workspace.hasErrors_of_load hload
  obtain ⟨entries, hprint⟩ := print_of_ok (o.format.getD .json) hload
  simp only [hprint]
  refine ⟨s, hload, getLast?_endLine _, fun hkeeps => ?_, ?_⟩
  · exact keeps_of_decode hvalid rfl (decode_endLine hkeeps)
  · rintro ⟨hyaml, htakes⟩
    rw [hyaml]
    exact ⟨decode_endLine_of_takesLine htakes, keeps_lengthened htakes⟩

/-- A base path is given, and the links are found under a theme. The text is exported once more. -/
theorem print_keeps_override :
    let text := "title = \"T\"\ndescription = \"\"\nbase = \"/\"\n[[themeConfig.sidebar]]\n" ++
      "text = \"g\"\n[[themeConfig.sidebar.items]]\ntext = \"t\"\nlink = \"/a\"\n"
    let i : Invocation :=
      ⟨⟨⟨fun _ => .file text.toUTF8⟩, "/d"⟩, ["export", "-fyaml", "-c", "nav.toml"], some "/b", none⟩
    let j : Invocation :=
      ⟨⟨⟨fun _ => .file (run i).output.toUTF8⟩, "/d"⟩, ["export", "--format=yaml", "-cnav.yml"], none, none⟩
    (∃ o, readArguments i.arguments = .ok (.print, o)) ∧ (run i).exitCode = 0 ∧
      Keeps .yaml (run i).output ⟨"T", "", "/b", [⟨"g", none, [⟨"t", "/a"⟩]⟩]⟩ ∧
      (run j).exitCode = 0 ∧ (run j).output = (run i).output := by
  intro text i j
  have hi : readArguments i.arguments =
      .ok (.print, { config := some "nav.toml", format := some .yaml }) := by
    rfl
  have hfound : (i.workspace.load (some "nav.toml") (some "/b")).outcome =
      .ok ⟨"T", "", "/b", [⟨"g", none, [⟨"t", "/a"⟩]⟩]⟩ :=
    eq_ok_of_toOption (by decide +kernel)
  obtain ⟨entries, hprint⟩ := print_of_ok .yaml hfound
  have hexit : (run i).exitCode = 0 := by
    rw [run_of_arguments hi]
    exact congrArg Outcome.exitCode hprint
  have hends : ¬Yaml.TakesLine ⟨"T", "", "/b", [⟨"g", none, [⟨"t", "/a"⟩]⟩]⟩ := by
    rintro ⟨link, c, d, hlink, hopen⟩
    obtain rfl := Option.some.inj hlink
    exact absurd hopen.endsIn_isBreak (by decide)
  obtain ⟨s, hload, -, hkeeps, -⟩ := print_keeps hi hexit
  obtain rfl := Except.ok.inj (hfound.symm.trans hload)
  have hkept := hkeeps fun h => hends h.2
  have hvisits : Visits j .print { config := some "nav.yml", format := some .yaml } "nav.yml"
      (run i).output := ⟨rfl, rfl, rfl, rfl⟩
  exact ⟨⟨_, hi⟩, hexit, hkept, hkept.print_eq hvisits (by decide) rfl⟩

/-- A link that ends in two breaks, a line feed and a line separator, is not read back. -/
theorem decode_print_ne :
    let text := "title = \"T\"\ndescription = \"D\"\nbasePath = \"/\"\n[[sidebar]]\n" ++
      "text = \"G\"\n[[sidebar.items]]\ntext = \"t\"\nlink = \"/a\\n\\u2028\"\n"
    let i : Invocation :=
      ⟨⟨⟨fun _ => .file text.toUTF8⟩, "/d"⟩, ["export", "-fyaml", "-c", "nav.toml"], none, none⟩
    (run i).exitCode = 0 ∧ ∃ s, (i.workspace.load (some "nav.toml") none).outcome = .ok s ∧
      decode .yaml (run i).output ≠ .ok ⟨s, []⟩ := by
  intro text i
  have hi : readArguments i.arguments =
      .ok (.print, { config := some "nav.toml", format := some .yaml }) := by
    rfl
  have hload : (i.workspace.load (some "nav.toml") none).outcome =
      .ok ⟨"T", "D", "/", [⟨"G", none, [⟨"t", "/a\n\u2028"⟩]⟩]⟩ :=
    eq_ok_of_toOption (by decide +kernel)
  obtain ⟨entries, hprint⟩ := print_of_ok .yaml hload
  have hrun : run i = ⟨0, endLine (encode .yaml ⟨"T", "D", "/", [⟨"G", none, [⟨"t", "/a\n\u2028"⟩]⟩]⟩),
      entries⟩ := (run_of_arguments hi).trans hprint
  have htakes : Yaml.TakesLine ⟨"T", "D", "/", [⟨"G", none, [⟨"t", "/a\n\u2028"⟩]⟩]⟩ :=
    ⟨_, '\u2028', '\n', rfl,
      ⟨⟨by decide, ⟨['/', 'a'], by decide⟩, by decide, by decide⟩, by decide⟩⟩
  rw [hrun]
  refine ⟨rfl, _, hload, fun hread => ?_⟩
  rw [decode_endLine_of_takesLine htakes] at hread
  exact htakes.lengthened_ne (congrArg Decoded.site (Except.ok.inj hread))

end Command

end SiteNav
