import SiteNav.Proofs.Document.Blame
import SiteNav.Proofs.Toml.KeyLines
import SiteNav.Toml.Dialect

/-!
# What TOML documents are refused for

A document is refused for a number that is too large, for fields that its structures lack or repeat, or
for a value that is not of the form that is asked of it. The message for a value shows the line that it
starts on. Main statements: there is nothing else to refuse it for, and the line shown has the key of a
refused value on it, unless that is an element of a list.
-/
namespace SiteNav.Toml
open Document

/-- A date is seen as a map with an entry for itself. -/
def sight : Sight Node String where
  view n := some <|
    match n with
    | .array _ _ items => (n, .list items)
    | .table _ _ entries => (n, .map entries)
    | .scalar _ .date => (n, .map [("$__toml_private_datetime", n)])
    | _ => (n, .scalar)
  step k := some (.key k)
  isText
    | .scalar _ (.text _) => true
    | _ => false
  isFlag
    | .scalar _ (.bool _) => true
    | _ => false
  positional := true

inductive Refusal (root : Node) : Error → Prop
  | overflow (what : String) (span : Span) : Refusal root (.overflow what span)
  | fields {m : Misfit} (span : Option Span) (h : sight.Amiss root m) : Refusal root (.misfit m span)
  | mistyped {fm : Form} {o : Option Step} {p : Path} {n : Node} {found : Found}
      (h : sight.Asks root fm o p n) (hn : ¬sight.Fits fm n) (hfound : n.found = .ok found) :
      Refusal root (.misfit (.mistyped found fm.expected) (some n.span))

section Refusals
variable {root n : Node} {fm : Form} {o : Option Step} {p : Path}

theorem eq_overflow_of_found {e : Error} (h : n.found = .error e) : ∃ what, e = .overflow what n.span := by
  unfold Node.found at h
  split at h
  · split at h
    · cases h
    · cases h
    · cases h
    · cases h
    · cases h
      exact ⟨_, rfl⟩
    · split_ifs at h
      cases h
      exact ⟨_, rfl⟩
  · cases h
  · cases h

theorem refusal_of_found {e : Error} (h : n.found = .error e) : Refusal root e := by
  obtain ⟨what, rfl⟩ := eq_overflow_of_found h
  exact .overflow what n.span

theorem refusal_refuse (h : sight.Asks root fm o p n) (hn : ¬sight.Fits fm n) :
    Refusal root (n.refuse (.mistyped · fm.expected)) := by
  rw [Node.refuse]
  cases hfound : n.found with
  | ok found => exact .mistyped h hn hfound
  | error e => exact refusal_of_found hfound

mutual

/-- A value that is skipped can only hold a number that is too large. -/
theorem refusal_of_skip : ∀ n : Node,
    (Guarantee.failing (Refusal root)).holds (fun _ => True) n.skip
  | .scalar span value => by
    rw [Node.skip]
    cases hfound : (Node.scalar span value).found with
    | ok found => trivial
    | error e => exact refusal_of_found hfound
  | .array _ _ items => refusal_of_skipItems items
  | .table _ _ entries => refusal_of_skipEntries entries

theorem refusal_of_skipItems : ∀ ns : List Node,
    (Guarantee.failing (Refusal root)).holds (fun _ => True) (Node.skipItems ns)
  | [] => trivial
  | n :: ns => Guarantee.bind _ (refusal_of_skip n) fun _ _ => refusal_of_skipItems ns

theorem refusal_of_skipEntries : ∀ es : List (String × Node),
    (Guarantee.failing (Refusal root)).holds (fun _ => True) (Node.skipEntries es)
  | [] => trivial
  | (_, n) :: es => Guarantee.bind _ (refusal_of_skip n) fun _ _ => refusal_of_skipEntries es

end

theorem dialect_blames (root : Node) : dialect.Blames (.failing (Refusal root)) sight root where
  view {_ _ _ n} _ := by
    cases n with
    | scalar span value => cases value <;> rfl
    | array _ _ _ | table _ _ _ => rfl
  text {_ _ n} h := by
    cases n with
    | scalar span value =>
      cases value with
      | text s => trivial
      | integer _ | floating _ | bool _ | date => exact refusal_refuse h Bool.false_ne_true
    | array _ _ _ | table _ _ _ => exact refusal_refuse h Bool.false_ne_true
  flag {_ _ n} holder h := by
    cases n with
    | scalar span value =>
      cases value with
      | bool b => trivial
      | integer _ | floating _ | text _ | date => exact refusal_refuse h Bool.false_ne_true
    | array _ _ _ | table _ _ _ => exact refusal_refuse h Bool.false_ne_true
  key _ _ _ := rfl
  mistyped _ _ _ _ n _ _ h hview hn := by
    rcases n with ⟨_, _ | _ | _ | _ | _⟩ | _ | _ <;> cases hview <;> exact refusal_refuse h hn
  missing _ _ _ _ h := .fields _ (.missing h)
  repeated _ _ _ _ name := .fields _ (.repeated name)
  twoSidebars _ := .fields _ .twoSidebars
  noSidebar _ h := .fields _ (.noSidebar h)
  close _ := trivial
  skip n := refusal_of_skip n
  note _ := trivial
  positional := rfl

/-- A document whose structures are maps is refused for a number that is too large, for the fields of a
structure, or for a value of another form than is asked of it. -/
theorem refusal_of_readWith {text : String} {e : Error}
    (hmaps : ∀ root, read text.toList = some root → ¬sight.Listed root)
    (h : readWith dialect.readTracked text = .error e) :
    e = .malformed ∨ ∃ root, read text.toList = some root ∧ Refusal root e := by
  rw [readWith] at h
  cases hroot : read text.toList with
  | none =>
    rw [hroot] at h
    cases h
    exact .inl rfl
  | some root =>
    rw [hroot] at h
    have hread := (dialect_blames root).readTracked (hmaps root hroot)
    dsimp only at h
    rw [h] at hread
    exact .inr ⟨root, rfl, hread⟩

end Refusals

/-! ## Keys of refused values -/

theorem member?_date {r : Record} {members : List (Member Form)} (h : Form.record r members ∈ Form.all) :
    Form.member? members (some "$__toml_private_datetime") = none := by
  rcases Form.members_of_mem_all h with rfl | rfl | rfl | rfl
  all_goals
    simp [Form.member?, Member.answersTo, Form.siteMembers, Form.themeMembers, Form.groupMembers,
      Form.itemMembers]

/-- By induction on the way to the value: the entries of each table on it stand on the lines of their
keys, and an array has its elements on its own line or behind. -/
theorem keyed_of_asks {text : List Char} {span : Span} {origin : Origin} {es : Entries}
    (hes : es.AllKeyed text) {fm : Form} {step : Step} {p : Path} {n : Node}
    (h : sight.Asks (.table span origin es) fm (some step) p n) :
    Keyed text step.plain n ∧ (OnLine text step.plain n.span.start ∨ ∃ i q, p = .index i :: q) := by
  generalize ho : some step = o at h
  induction h generalizing step with
  | root => cases ho
  | @field r members o p n n' v inner k step' s hn hview hv hstep hs ih =>
    cases ho
    cases hstep
    have hinner : Entries.AllKeyed text inner := by
      cases o with
      | none =>
        obtain ⟨-, -, rfl⟩ := hn.eq_root
        cases hview
        exact hes
      | some above =>
        have hkeyed := (ih rfl).1
        rcases n with ⟨_, _ | _ | _ | _ | _⟩ | _ | _ <;> cases hview
        · rw [List.mem_singleton] at hv
          cases hv
          cases hs.symm.trans (member?_date hn.form_mem)
        · exact hkeyed.entries
    exact ⟨hinner.inner _ hv, .inl (hinner.lines _ hv)⟩
  | @element fm o p n n' v ns i hn hview hv ih =>
    have hkeyed := (ih ho).1
    rcases n with ⟨_, _ | _ | _ | _ | _⟩ | _ | _ <;> cases hview
    exact ⟨hkeyed.items v (List.mem_of_getElem? hv), .inr ⟨i, p, rfl⟩⟩

/-! ## The line in a message -/

theorem currentLine_append {back : List Char} (h : '\n' ∉ back) (after : List Char) :
    currentLine (back ++ after) = back ++ currentLine after := by
  induction back with
  | nil => rfl
  | cons c back ih =>
    rw [List.mem_cons, not_or] at h
    rw [List.cons_append, currentLine, if_neg (Ne.symm h.1), ih h.2, List.cons_append]

theorem content_excerptFrom {front : List Char} (h : '\n' ∉ front) (rest : List Char) (line column : Nat)
    (content : List Char) :
    (excerptFrom line column content front.length (front ++ rest)).content =
      content ++ front ++ currentLine rest := by
  induction front generalizing column content with
  | nil =>
    rw [List.append_nil]
    rfl
  | cons c front ih =>
    rw [List.mem_cons, not_or] at h
    rw [List.cons_append, List.length_cons, excerptFrom, if_neg (Ne.symm h.1), ih h.2]
    simp

/-- By induction on what is left before the line, of which something may be on it, too. -/
theorem exists_of_excerptFrom {front : List Char} (h : '\n' ∉ front) (before rest : List Char)
    (line column : Nat) (content : List Char) :
    ∃ start, (excerptFrom line column content (before ++ front).length
      (before ++ (front ++ rest))).content = start ++ front ++ currentLine rest := by
  induction before generalizing line column content with
  | nil => exact ⟨content, content_excerptFrom h rest line column content⟩
  | cons c before ih =>
    rw [List.cons_append, List.cons_append, List.length_cons, excerptFrom]
    by_cases hc : c = '\n'
    · rw [if_pos hc]
      exact ih ..
    · rw [if_neg hc]
      exact ih ..

/-- A message shows the whole line. -/
theorem content_isInfix_marked (text : List Char) (span : Span) (message : String) :
    (excerptFrom 1 0 [] (text.length - span.start) text).content <:+:
      (marked text span message).toList := by
  unfold marked
  simp only [String.toList_append, String.toList_ofList]
  iterate 6 refine List.infix_append_of_infix_left ?_
  exact List.infix_append_right

/-- Whatever is asked of a value, the message shows the line that it starts on. -/
theorem Node.exists_message_refuse (n : Node) (expected : Found → Misfit) (text : List Char) :
    ∃ message, (n.refuse expected).message text = marked text n.span message := by
  rw [Node.refuse]
  cases hfound : n.found with
  | ok found => exact ⟨_, rfl⟩
  | error e =>
    obtain ⟨what, rfl⟩ := eq_overflow_of_found hfound
    exact ⟨_, rfl⟩

/-- The key on the line of a span is shown in a message about the span. -/
theorem OnLine.exists_isInfix {text : List Char} {name : String} {span : Span}
    (h : OnLine text name span.start) (message : String) :
    ∃ key, SpellsKey key name ∧ key <:+: (marked text span message).toList := by
  obtain ⟨before, front, back, after, key, htext, hstart, hline, hkey, hshown⟩ := h
  rw [List.mem_append, not_or] at hline
  have hbefore : text.length - span.start = (before ++ front).length := by
    rw [htext, hstart]
    simp only [List.length_append]
    omega
  obtain ⟨start, hcontent⟩ := exists_of_excerptFrom hline.1 before (back ++ after) 1 0 []
  rw [currentLine_append hline.2] at hcontent
  refine ⟨key, hkey, hshown.trans ?_⟩
  have hexcerpt : front ++ back <:+: (excerptFrom 1 0 [] (text.length - span.start) text).content := by
    rw [hbefore, htext, hcontent]
    exact ⟨start, currentLine after, by simp⟩
  exact hexcerpt.trans (content_isInfix_marked text span message)

end SiteNav.Toml
