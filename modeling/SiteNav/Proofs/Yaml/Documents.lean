import SiteNav.Proofs.Yaml.Scanning.Lines
import SiteNav.Proofs.Yaml.SingleDocument

/-!
# Texts of more than one document

All tokens of a text that ends in a line break, but its end, are there again if a document begins
behind it, in the same order and with the mark of that document behind them. Main statement: what is
one document with that is but directives and a document, so a text that holds something of its own is
no document with another one behind it.
-/
namespace SiteNav.Yaml
variable {rest : List Char}

namespace Outline
variable {o o' : Outline} {t u : Tail}

theorem ahead_before (hrest : Opens rest) (h : t.Lined) (hahead : o.ahead t = some (o', u)) :
    u.Lined ∧ o.ahead (t.before rest) = some (o', u.before rest) := by
  obtain ⟨hlined, hskip⟩ := skipGap_before hrest o.inFlow o.keyAllowed h fun _ => rfl
  obtain ⟨o₁, hexpire, ho⟩ := Option.map_eq_some_iff.1 hahead
  cases ho
  refine ⟨hlined, ?_⟩
  rw [ahead, Tail.before, hskip]
  exact Option.map_eq_some_iff.2 ⟨o₁, hexpire, rfl⟩

theorem not_isBreak_of_ahead {c : Char} {cs : List Char} (hahead : o.ahead t = some (o', u))
    (hu : u.chars = c :: cs) : isBreak c = false := by
  obtain ⟨o₁, hexpire, ho⟩ := Option.map_eq_some_iff.1 hahead
  cases ho
  exact not_isBreak_of_skipGap hu

theorem next_before (hrest : Opens rest) {m : Mark} {c : Char} {cs : List Char} (hc : isBreak c = false)
    (h : Ended (c :: cs)) (hnext : o.next m c cs = some (o', t)) :
    t.Lined ∧ o.next m c (cs ++ rest) = some (o', t.before rest) := by
  rw [next_eq] at hnext ⊢
  obtain ⟨⟨p, u⟩, hpiece, hmap⟩ := Option.bind_eq_some_iff.1 hnext
  obtain ⟨o₁, htake, ho⟩ := Option.map_eq_some_iff.1 hmap
  obtain ⟨ht, hpiece'⟩ := piece?_before hrest hc h p u hpiece
  cases ho
  exact ⟨ht, Option.bind_eq_some_iff.2 ⟨_, hpiece', Option.map_eq_some_iff.2 ⟨_, htake, rfl⟩⟩⟩

/-- The mark of a document's beginning comes where the text has ended, and ends the same blocks. -/
theorem tokens_of_finish (hrest : Opens rest) {m : Mark} {fuel : Nat} {ts ts' : List Token}
    (hm : m.column = 0) (hfinish : o.finish m = some ts) (hround : Round fuel ts' o ⟨m, rest⟩) :
    ∃ earlier m' d, ts = earlier ++ [⟨m', .streamEnd⟩] ∧ d.lexeme = .document .start ∧
      (earlier ++ [d]).Sublist ts' := by
  obtain ⟨o₁, hdrop, hts⟩ := Option.bind_eq_some_iff.1 hfinish
  rw [if_pos hm] at hdrop hts
  cases hts
  cases hrest with
  | @intro more hmore =>
    have hboundary : boundary? m ('-' :: '-' :: '-' :: more) = some .start :=
      boundary?_eq_some_iff.2 ⟨hm, more, rfl, hmore⟩
    cases hround with
    | last hend _ => cases hend
    | piece hchars hnext hread =>
      cases hchars
      rw [next, if_neg (fun h => absurd h.2 (by decide)), hboundary] at hnext
      obtain ⟨o₂, hstart, ho⟩ := Option.map_eq_some_iff.1 hnext
      cases ho
      rw [boundary, hdrop] at hstart
      cases hstart
      obtain ⟨o₃, m', hgrows, rfl⟩ := grows_read hread
      refine ⟨o₁.tokens.reverse, m, ⟨m, .document .start⟩, List.reverse_cons, rfl, ?_⟩
      rw [← List.reverse_cons]
      exact (hgrows.kept.trans (List.sublist_cons_self _ _)).reverse

/-- All tokens of a text but the end are there again, and a document's mark behind them. -/
theorem tokens_of_read (hrest : Opens rest) {fuel fuel' : Nat} {ts ts' : List Token} (h : t.Lined)
    (hread : o.read fuel t = some ts) (hread' : o.read fuel' (t.before rest) = some ts') :
    ∃ earlier m d, ts = earlier ++ [⟨m, .streamEnd⟩] ∧ d.lexeme = .document .start ∧
      (earlier ++ [d]).Sublist ts' := by
  induction fuel generalizing fuel' o t with
  | zero => cases hread
  | succ fuel ih =>
    cases fuel' with
    | zero => cases hread'
    | succ fuel' =>
      obtain ⟨o₁, u, hahead, hround⟩ := round_of_read hread
      obtain ⟨o₂, u', hahead', hround'⟩ := round_of_read hread'
      obtain ⟨hu, heq⟩ := ahead_before hrest h hahead
      rw [heq] at hahead'
      cases hahead'
      -- The rounds are the same until the short text ends; only then the mark is read.
      cases hround with
      | last hend hfinish =>
        rw [Tail.before, hend, List.nil_append] at hround'
        exact tokens_of_finish hrest (hu.column_eq_zero hend) hfinish hround'
      | piece hchars hnext hread =>
        have hended : Ended u.chars :=
          hu.resolve_right fun h => List.cons_ne_nil _ _ (hchars.symm.trans h.1)
        rw [hchars] at hended
        obtain ⟨hlined, hnext'⟩ := next_before hrest (not_isBreak_of_ahead hahead hchars) hended hnext
        cases hround' with
        | last hend _ =>
          rw [Tail.before, hchars] at hend
          cases hend
        | piece hchars' hnext₂ hread' =>
          rw [Tail.before, hchars] at hchars'
          cases hchars'
          cases hnext'.symm.trans hnext₂
          exact ih hlined hread hread'

end Outline

/-- Before the mark of a document's beginning there are only directives. -/
theorem IsSingle.isDirective_of_sublist {ts earlier : List Token} {d : Token} (h : IsSingle ts)
    (hsub : (earlier ++ [d]).Sublist ts) (hd : d.lexeme = .document .start) :
    ∀ t ∈ earlier, t.lexeme.IsDirective := by
  have hlast {body closing : List Token} (hbody : ∀ t ∈ body, ¬ t.lexeme.IsMark)
      (hclosing : ∀ t ∈ closing, t.lexeme = .document .stop) : d ∉ body ++ closing := by
    intro hmem
    rcases List.mem_append.1 hmem with hmem | hmem
    · exact hbody d hmem (by rw [hd]; trivial)
    · cases hd.symm.trans (hclosing d hmem)
  cases h with
  | bare hbody hclosing =>
    have hmem : d ∈ earlier ++ [d] := List.mem_append_right _ (List.mem_singleton_self d)
    exact absurd (hsub.subset hmem) (hlast hbody hclosing)
  | @opened ds body closing start hds hstart hbody hclosing =>
    -- The mark itself is neither one of the directives nor behind a mark of a beginning.
    obtain ⟨before, behind, heq, hbefore, hbehind⟩ := List.sublist_append_iff.1 hsub
    rcases List.eq_nil_or_concat behind with rfl | ⟨between, x, rfl⟩
    · rw [List.append_nil] at heq
      have hmem : d ∈ before := heq ▸ List.mem_append_right _ (List.mem_singleton_self d)
      have hdirective := hds d (hbefore.subset hmem)
      rw [hd] at hdirective
      exact hdirective.elim
    · rw [List.concat_eq_append] at hbehind
      rw [List.concat_eq_append, ← List.append_assoc] at heq
      obtain ⟨rfl, hx⟩ := List.append_inj' heq rfl
      cases hx
      cases between with
      | nil =>
        rw [List.append_nil]
        exact fun t ht => hds t (hbefore.subset ht)
      | cons b between =>
        have hmem : d ∈ between ++ [d] := List.mem_append_right _ (List.mem_singleton_self d)
        exact absurd (hbehind.tail.subset hmem) (hlast hbody hclosing)

theorem exists_unifyBreaks_eq (cs : List Char) :
    ∃ cs', ∀ more, unifyBreaks (cs ++ '\n' :: more) = cs' ++ '\n' :: unifyBreaks more := by
  fun_induction unifyBreaks cs with
  | case1 =>
    refine ⟨[], fun more => ?_⟩
    rw [List.nil_append, List.nil_append, unifyBreaks, if_neg (by decide)]
    rintro _ ⟨⟩
  | case2 cs ih =>
    obtain ⟨cs', h⟩ := ih
    refine ⟨'\n' :: cs', fun more => ?_⟩
    rw [List.cons_append, List.cons_append, unifyBreaks, h, List.cons_append]
  | case3 c cs hpair ih =>
    by_cases hreturn : c = '\r' ∧ cs = []
    · obtain ⟨rfl, rfl⟩ := hreturn
      exact ⟨[], fun more => by rw [List.cons_append, List.nil_append, List.nil_append, unifyBreaks]⟩
    · obtain ⟨cs', h⟩ := ih
      refine ⟨(if c = '\r' ∨ c = '\x85' then '\n' else c) :: cs', fun more => ?_⟩
      rw [List.cons_append, unifyBreaks, h, List.cons_append]
      intro tl hc heq
      cases cs with
      | nil => exact hreturn ⟨hc, rfl⟩
      | cons d cs =>
        obtain ⟨rfl, -⟩ := List.cons.inj heq
        exact hpair cs hc rfl

theorem read_of_tokens? {cs : List Char} {ts : List Token} (h : tokens? cs = some ts) :
    Outline.empty.read ((unifyBreaks cs).length + 1) ⟨.start, unifyBreaks cs⟩ = some ts := by
  rw [tokens?] at h
  split at h
  · cases h
  · exact h

theorem eq_nil_of_tokens? {cs : List Char} {tokens behind : List Token} {e : Token}
    (h : tokens? cs = some (tokens ++ e :: behind)) (he : e.lexeme = .streamEnd) : behind = [] := by
  obtain ⟨o, m, hgrows, hts⟩ := Outline.grows_read (read_of_tokens? h)
  rw [List.reverse_cons] at hts
  rcases List.eq_nil_or_concat behind with rfl | ⟨between, x, rfl⟩
  · rfl
  · rw [List.concat_eq_append, ← List.cons_append, ← List.append_assoc] at hts
    obtain ⟨htokens, -⟩ := List.append_inj' hts rfl
    have hmem : e ∈ o.tokens.reverse := htokens ▸ List.mem_append_right _ List.mem_cons_self
    rcases hgrows.fresh e (List.mem_reverse.1 hmem) with hnil | hne
    · cases hnil
    · exact absurd he hne

/-- The tokens of the text, up to its end, are those of one document. -/
def HoldsOne (cs : List Char) : Prop :=
  ∃ tokens e, tokens? cs = some (tokens ++ [e]) ∧ e.lexeme = .streamEnd ∧ IsSingle tokens

theorem holdsOne_of_tree? {cs : List Char} {t : Tree} (h : tree? cs = some t) : HoldsOne cs := by
  obtain ⟨tokens, e, behind, htokens, he, hsingle⟩ := isSingle_of_tree? h
  cases eq_nil_of_tokens? htokens he
  exact ⟨tokens, e, htokens, he, hsingle⟩

/-- Behind a text that ends in a line break a document begins, and the whole is a tree: then there are
only directives before it. -/
theorem isDirective_of_tree? {cs more : List Char} {ts : List Token} {t : Tree}
    (hmore : atGap (unifyBreaks more) = true) (htokens : tokens? (cs ++ ['\n']) = some ts)
    (htree : tree? (cs ++ '\n' :: '-' :: '-' :: '-' :: more) = some t) :
    ∃ ds e, ts = ds ++ [e] ∧ e.lexeme = .streamEnd ∧ ∀ d ∈ ds, d.lexeme.IsDirective := by
  obtain ⟨tokens, e, htokens', he, hsingle⟩ := holdsOne_of_tree? htree
  obtain ⟨cs', hcs'⟩ := exists_unifyBreaks_eq cs
  have hread := read_of_tokens? htokens
  have hread' := read_of_tokens? htokens'
  have hdashes : unifyBreaks ('-' :: '-' :: '-' :: more) = '-' :: '-' :: '-' :: unifyBreaks more := rfl
  rw [hcs'] at hread
  rw [hcs', hdashes] at hread'
  have hlined : Tail.Lined ⟨.start, cs' ++ '\n' :: unifyBreaks []⟩ :=
    .inl ⟨'\n', by rw [unifyBreaks, List.getLast?_concat]; rfl, rfl⟩
  have hbefore : Tail.before ⟨.start, cs' ++ '\n' :: unifyBreaks []⟩
      ('-' :: '-' :: '-' :: unifyBreaks more) =
      ⟨.start, cs' ++ '\n' :: '-' :: '-' :: '-' :: unifyBreaks more⟩ := by
    rw [unifyBreaks, Tail.before, List.append_assoc]
    rfl
  obtain ⟨earlier, m, d, rfl, hd, hsub⟩ :=
    Outline.tokens_of_read (.intro hmore) hlined hread (hbefore ▸ hread')
  refine ⟨earlier, _, rfl, rfl, hsingle.isDirective_of_sublist ?_ hd⟩
  have hne : d ≠ e := by
    rintro rfl
    cases hd.symm.trans he
  -- The last token is the end of the text, so the mark is one of those before it.
  have hreverse := hsub.reverse
  rw [List.reverse_append, List.reverse_append] at hreverse
  rw [← List.reverse_sublist, List.reverse_append]
  cases hreverse with
  | cons _ h => exact h
  | cons_cons _ _ => exact absurd rfl hne

/-- A text with something in it is no document any more if another one begins behind it. -/
theorem tree?_eq_none_of_another {cs more : List Char} {t : Tree}
    (hmore : atGap (unifyBreaks more) = true) (h : tree? (cs ++ ['\n']) = some t)
    (hroot : ∀ m, t.root ≠ .nothing m) :
    tree? (cs ++ '\n' :: '-' :: '-' :: '-' :: more) = none := by
  cases hanother : tree? (cs ++ '\n' :: '-' :: '-' :: '-' :: more) with
  | none => rfl
  | some t' =>
    obtain ⟨ts, htokens, h⟩ := Option.bind_eq_some_iff.1 h
    obtain ⟨⟨root, s⟩, hrun, ht⟩ := Option.bind_eq_some_iff.1 h
    obtain ⟨ds, e, rfl, he, hds⟩ := isDirective_of_tree? hmore htokens hanother
    obtain ⟨m, hm⟩ := Builder.root_of_directives hrun rfl hds he
    cases ht
    exact absurd hm (hroot m)

end SiteNav.Yaml
