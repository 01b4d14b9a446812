import SiteNav.Command.Arguments

/-!
# Arguments as requests

The arguments of a command spell requests: a switch is turned on, or an option is given a value. How
they are spelled does not depend on the requests before them, so reading the arguments is serving
their requests one after the other, up to the first that cannot be served. Main statement: arguments
that ask for the same but perhaps for verbosity are read alike but for verbosity.
-/
namespace SiteNav.Command

inductive Request where
  | turnOn (s : Switch)
  | set (s : Setting) (value : String)
  /-- Something that the command does not know. -/
  | unknown
  deriving DecidableEq

namespace Verb

/-- The requests of one-letter options written together, and the option that waits for its value. -/
def letters (v : Verb) : List Char → List Request × Option Setting
  | [] => ([], none)
  | c :: cs =>
    match v.short? c with
    | none => ([.unknown], none)
    | some (.switch s) => (.turnOn s :: (v.letters cs).1, (v.letters cs).2)
    | some (.setting s) =>
      match cs with
      | [] => ([], some s)
      | '=' :: value => ([.set s (String.ofList value)], none)
      | value => ([.set s (String.ofList value)], none)

/-- The request of an option written out, with what follows an equals sign, and the option if it waits
for its value. -/
def word (v : Verb) (body : List Char) : List Request × Option Setting :=
  let name := body.takeWhile (· ≠ '=')
  match v.long? (String.ofList name), body.drop name.length with
  | some (.switch s), [] => ([.turnOn s], none)
  | some (.setting s), [] => ([], some s)
  | some (.setting s), _ :: value => ([.set s (String.ofList value)], none)
  | _, _ => ([.unknown], none)

/-- The requests of some arguments; `waiting` is the option that still needs its value. -/
def requests (v : Verb) (waiting : Option Setting) : List String → List Request
  | [] => if waiting.isSome then [.unknown] else []
  | arg :: rest =>
    match waiting, arg.toList with
    | some s, _ =>
      if Options.looksLikeOption arg then [.unknown] else .set s arg :: v.requests none rest
    | none, ['-', '-'] => if rest.isEmpty then [] else [.unknown]
    | none, '-' :: '-' :: body => (v.word body).1 ++ v.requests (v.word body).2 rest
    | none, '-' :: c :: cs => (v.letters (c :: cs)).1 ++ v.requests (v.letters (c :: cs)).2 rest
    | none, _ => [.unknown]

end Verb

namespace Options
variable {v : Verb} {o p : Options} {r : Request}

def serve (v : Verb) (o : Options) : Request → Except Stop Options
  | .turnOn s => o.turnOn v s
  | .set s value => o.set value s
  | .unknown => .error .misuse

theorem foldlM_single (o : Options) (r : Request) : [r].foldlM (serve v) o = serve v o r := by
  rw [List.foldlM_cons]
  cases serve v o r <;> rfl

theorem readLetters_eq (v : Verb) (o : Options) (cs : List Char) : readLetters v o cs =
    ((v.letters cs).1.foldlM (serve v) o).map fun o => (o, (v.letters cs).2) := by
  induction cs generalizing o with
  | nil => rfl
  | cons c cs ih =>
    rw [readLetters, Verb.letters]
    cases hc : v.short? c with
    | none => rfl
    | some choice =>
      cases choice with
      | switch s =>
        simp only [List.foldlM_cons, serve]
        cases o.turnOn v s with
        | error e => rfl
        | ok o' => exact ih o'
      | setting s =>
        simp only
        split
        · rfl
        · next value =>
          simp only [foldlM_single, serve]
          cases o.set (String.ofList value) s <;> rfl
        · simp only [foldlM_single, serve]
          cases o.set (String.ofList cs) s <;> rfl

theorem readName_eq (v : Verb) (o : Options) (body : List Char) : readName v o body =
    ((v.word body).1.foldlM (serve v) o).map fun o => (o, (v.word body).2) := by
  simp only [readName, Verb.word]
  generalize v.long? _ = choice, List.drop _ body = attached
  rcases choice with _ | s | s
  · rfl
  · cases attached with
    | nil =>
      simp only [foldlM_single, serve]
      cases o.turnOn v s <;> rfl
    | cons c value => rfl
  · cases attached with
    | nil => rfl
    | cons c value =>
      simp only [foldlM_single, serve]
      cases o.set (String.ofList value) s <;> rfl

/-- Reading arguments is serving their requests. -/
theorem readAll_eq (v : Verb) (waiting : Option Setting) (o : Options) (args : List String) :
    readAll v waiting o args = (v.requests waiting args).foldlM (serve v) o := by
  induction args generalizing waiting o with
  | nil => cases waiting <;> rfl
  | cons arg rest ih =>
    unfold readAll Verb.requests
    generalize arg.toList = spelling
    split
    · next s =>
      cases looksLikeOption arg with
      | true =>
        simp only [reduceIte]
        rfl
      | false =>
        simp only [Bool.false_eq_true, reduceIte, List.foldlM_cons, serve]
        cases o.set arg s with
        | error e => rfl
        | ok o' => exact ih none o'
    · cases rest with
      | nil =>
        simp only [List.isEmpty_nil]
        rfl
      | cons _ _ =>
        simp only [List.isEmpty_cons]
        rfl
    · next body _ =>
      simp only [List.foldlM_append, readName_eq]
      cases (v.word body).1.foldlM (serve v) o with
      | error e => rfl
      | ok o' => exact ih _ o'
    · next c cs _ _ =>
      simp only [List.foldlM_append, readLetters_eq]
      cases (v.letters (c :: cs)).1.foldlM (serve v) o with
      | error e => rfl
      | ok o' => exact ih _ o'
    · simp only [foldlM_single, serve]

/-! ## Verbosity -/

def withVerbose (b : Bool) (o : Options) : Options :=
  { o with verbose := b }

def quiet : Options → Options :=
  withVerbose false

theorem quiet_default : ({} : Options).quiet = {} := rfl

theorem serve_verbose (h : o.verbose = false) :
    serve v o (.turnOn .verbose) = .ok (o.withVerbose true) := by
  simp [serve, turnOn, h, withVerbose]

/-- No other request asks whether the command is verbose, or changes it. -/
theorem serve_withVerbose (hr : r ≠ .turnOn .verbose) (b : Bool) :
    serve v (o.withVerbose b) r = (serve v o r).map (withVerbose b) := by
  rcases r with (_ | _ | _) | ⟨_ | _ | _, value⟩ | _
  · simp only [serve, turnOn, apply_ite (Except.map _)]
    rfl
  · exact absurd rfl hr
  · rfl
  · simp only [serve, set, apply_ite (Except.map _)]
    rfl
  · simp only [serve, set, apply_ite (Except.map _)]
    rfl
  · simp only [serve, set, withVerbose]
    split <;> rfl
  · rfl

theorem verbose_of_serve (hr : r ≠ .turnOn .verbose) (h : serve v o r = .ok p) :
    p.verbose = o.verbose := by
  have hp : serve v o r = .ok (p.withVerbose o.verbose) := by
    have hserve := serve_withVerbose (v := v) (o := o) hr o.verbose
    rwa [h] at hserve
  rw [Except.ok.inj (h.symm.trans hp)]
  rfl

/-- Requests are served alike without the one for verbosity, if they do not repeat it. -/
theorem foldlM_serve_quiet {rs : List Request}
    (h : rs.count (.turnOn .verbose) + o.verbose.toNat ≤ 1) :
    (rs.foldlM (serve v) o).map quiet =
      (rs.filter (· ≠ .turnOn .verbose)).foldlM (serve v) o.quiet := by
  induction rs generalizing o with
  | nil => rfl
  | cons r rs ih =>
    by_cases hr : r = .turnOn .verbose
    · subst hr
      rw [List.count_cons_self] at h
      have hverbose : o.verbose = false := by
        cases hv : o.verbose with
        | false => rfl
        | true => simp [hv] at h
      rw [List.foldlM_cons, serve_verbose hverbose, List.filter_cons_of_neg (by simp)]
      exact ih (o := o.withVerbose true) (by simpa [hverbose, withVerbose] using h)
    · rw [List.count_cons_of_ne hr] at h
      rw [List.foldlM_cons, List.filter_cons_of_pos (by simpa using hr), List.foldlM_cons, quiet,
        serve_withVerbose hr]
      cases hserve : serve v o r with
      | error e => rfl
      | ok p => exact ih (by rwa [verbose_of_serve hr hserve])

end Options

/-- Arguments that are not refused ask for a command, for help or for the version. -/
def Understood (args : List String) : Prop :=
  readArguments args ≠ .error .misuse

/-- The same arguments, or arguments of one command that ask for the same in the same order, but that
each may ask, once and anywhere, to be verbose. -/
inductive DifferInVerbosity : List String → List String → Prop
  | same (args : List String) : DifferInVerbosity args args
  | asked (v : Verb) {args args' : List String}
      (hsame : (v.requests none args).filter (· ≠ .turnOn .verbose) =
        (v.requests none args').filter (· ≠ .turnOn .verbose))
      (honce : (v.requests none args).count (.turnOn .verbose) ≤ 1)
      (honce' : (v.requests none args').count (.turnOn .verbose) ≤ 1) :
      DifferInVerbosity (v.name :: args) (v.name :: args')

theorem readArguments_name (v : Verb) (args : List String) : readArguments (v.name :: args) =
    ((v.requests none args).foldlM (Options.serve v) {}).map fun o => (v, o) := by
  rw [← Options.readAll_eq]
  cases v <;> rfl

theorem readArguments_quiet (v : Verb) {args : List String}
    (honce : (v.requests none args).count (.turnOn .verbose) ≤ 1) :
    (readArguments (v.name :: args)).map (Prod.map id Options.quiet) =
      (((v.requests none args).filter (· ≠ .turnOn .verbose)).foldlM (Options.serve v) {}).map
        fun o => (v, o) := by
  have hserve := Options.foldlM_serve_quiet (v := v) (o := {}) (by simpa using honce)
  rw [Options.quiet_default] at hserve
  rw [readArguments_name, ← hserve]
  cases (v.requests none args).foldlM (Options.serve v) {} <;> rfl

theorem DifferInVerbosity.readArguments_eq {args args' : List String}
    (h : DifferInVerbosity args args') :
    (readArguments args).map (Prod.map id Options.quiet) =
      (readArguments args').map (Prod.map id Options.quiet) := by
  cases h with
  | same => rfl
  | asked v hsame honce honce' =>
    rw [readArguments_quiet v honce, readArguments_quiet v honce', hsame]

theorem DifferInVerbosity.symm {args args' : List String} (h : DifferInVerbosity args args') :
    DifferInVerbosity args' args := by
  cases h with
  | same => exact .same _
  | asked v hsame honce honce' => exact .asked v hsame.symm honce' honce

theorem DifferInVerbosity.understood {args args' : List String} (h : DifferInVerbosity args args')
    (hargs : Understood args) : Understood args' := by
  intro hargs'
  have hread := h.readArguments_eq
  rw [hargs'] at hread
  cases hstop : readArguments args with
  | ok vo =>
    rw [hstop] at hread
    cases hread
  | error stop =>
    rw [hstop] at hread
    cases hread
    exact hargs hstop

/-- Arguments that are known, and leave no option without its value, ask for what they ask for
whatever comes after them. Two hyphens would end the options. -/
theorem Verb.requests_append (v : Verb) {waiting : Option Setting} {args : List String}
    (hend : "--" ∉ args) (hknown : .unknown ∉ v.requests waiting args) (rest : List String) :
    v.requests waiting (args ++ rest) = v.requests waiting args ++ v.requests none rest := by
  induction args generalizing waiting with
  | nil =>
    cases waiting with
    | none => rfl
    | some s => exact absurd (List.mem_singleton_self _) hknown
  | cons arg args ih =>
    have hend' : "--" ∉ args := fun h => hend (List.mem_cons_of_mem _ h)
    rw [List.cons_append, requests.eq_def v waiting (arg :: (args ++ rest)),
      requests.eq_def v waiting (arg :: args)]
    rw [requests.eq_def] at hknown
    simp only at hknown ⊢
    split at hknown
    · split at hknown
      · exact absurd (List.mem_singleton_self _) hknown
      · next hvalue =>
        rw [if_neg hvalue, if_neg hvalue, ih hend' fun h => hknown (List.mem_cons_of_mem _ h),
          List.cons_append]
    · next heq =>
      obtain rfl : arg = "--" := String.toList_injective heq
      exact absurd List.mem_cons_self hend
    · rw [ih hend' fun h => hknown (List.mem_append_right _ h), List.append_assoc]
    · rw [ih hend' fun h => hknown (List.mem_append_right _ h), List.append_assoc]
    · exact absurd (List.mem_singleton_self _) hknown

/-- The switch can be put wherever an option can stand. -/
theorem DifferInVerbosity.insert (v : Verb) {args rest : List String} {arg : String}
    (harg : arg = "--verbose" ∨ arg = "-v") (hend : "--" ∉ args)
    (hknown : .unknown ∉ v.requests none args)
    (hquiet : .turnOn .verbose ∉ v.requests none (args ++ rest)) :
    DifferInVerbosity (v.name :: (args ++ rest)) (v.name :: (args ++ arg :: rest)) := by
  have hswitch : v.requests none (arg :: rest) = .turnOn .verbose :: v.requests none rest := by
    rcases harg with rfl | rfl <;> cases v <;> rfl
  have hcount := List.count_eq_zero_of_not_mem hquiet
  rw [v.requests_append hend hknown, List.count_append] at hcount
  refine .asked v ?_ (by rw [List.count_eq_zero_of_not_mem hquiet]; exact Nat.zero_le 1) ?_
  · rw [v.requests_append hend hknown, v.requests_append hend hknown, hswitch]
    simp
  · rw [v.requests_append hend hknown, hswitch, List.count_append, List.count_cons_self]
    omega

end SiteNav.Command
