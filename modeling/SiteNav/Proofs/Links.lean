import Mathlib.Data.List.DropRight
import SiteNav.Proofs.Validation.Validity

/-!
# Links under a base path

A base path is a stem with any number of slashes behind it, and only the stem counts when a link is put
under it. Main statements: base paths act on links, one after the other as the one put under the other,
and different links stay different; the links of a valid site stay below its base path, but two slashes
at the start of the one or the other still name a host.
-/
namespace SiteNav

/-- The base path is the stem with slashes behind it, and the stem does not end in one. -/
structure IsStem (base stem : List Char) : Prop where
  slashes : ∃ n, base = stem ++ List.replicate n '/'
  bare : stem.getLast? ≠ some '/'

/-- What starts with two slashes names a host. -/
def NamesHost (target : List Char) : Prop :=
  ['/', '/'] <+: target

/-! ## Stems -/

theorem dropTrailingSlashes_append_replicate (cs : List Char) (n : Nat) :
    dropTrailingSlashes (cs ++ List.replicate n '/') = dropTrailingSlashes cs := by
  induction n with
  | zero => rw [List.replicate_zero, List.append_nil]
  | succ n ih =>
    rw [List.replicate_succ', ← List.append_assoc]
    exact (List.rdropWhile_concat_pos _ _ _ rfl).trans ih

theorem dropTrailingSlashes_eq_self {cs : List Char} (h : cs.getLast? ≠ some '/') :
    dropTrailingSlashes cs = cs := by
  apply List.rdropWhile_eq_self_iff.2
  intro hne hlast
  apply h
  rw [List.getLast?_eq_some_getLast hne, eq_of_beq hlast]

/-- By induction from the end of the base path, where its slashes stand. -/
theorem exists_isStem (base : List Char) : ∃ stem, IsStem base stem := by
  induction base using List.reverseRecOn with
  | nil => exact ⟨[], ⟨0, rfl⟩, by simp⟩
  | append_singleton cs c ih =>
    by_cases hc : c = '/'
    · obtain ⟨stem, ⟨n, rfl⟩, hbare⟩ := ih
      refine ⟨stem, ⟨n + 1, ?_⟩, hbare⟩
      rw [hc, List.replicate_succ', List.append_assoc]
    · exact ⟨cs ++ [c], ⟨0, (List.append_nil _).symm⟩, by simpa using hc⟩

namespace IsStem
variable {base stem : List Char}

theorem dropTrailingSlashes_eq (h : IsStem base stem) : dropTrailingSlashes base = stem := by
  obtain ⟨⟨n, rfl⟩, hbare⟩ := h
  rw [dropTrailingSlashes_append_replicate, dropTrailingSlashes_eq_self hbare]

theorem joinLink_eq (h : IsStem base stem) {link : List Char} (hlink : ['/'] <+: link) :
    joinLink base link = stem ++ link := by
  obtain ⟨rest, rfl⟩ := hlink
  rw [List.singleton_append, joinLink, h.dropTrailingSlashes_eq]

theorem append_replicate (h : IsStem base stem) (n : Nat) :
    IsStem (base ++ List.replicate n '/') stem := by
  obtain ⟨⟨k, rfl⟩, hbare⟩ := h
  refine ⟨⟨k + n, ?_⟩, hbare⟩
  rw [List.append_assoc, List.replicate_append_replicate]

theorem self (h : IsStem base stem) : IsStem stem stem :=
  ⟨⟨0, (List.append_nil _).symm⟩, h.bare⟩

theorem append {outer outerStem : List Char} (houter : IsStem outer outerStem) (h : IsStem base stem) :
    IsStem (outerStem ++ base) (outerStem ++ stem) := by
  obtain ⟨⟨n, rfl⟩, hbare⟩ := h
  refine ⟨⟨n, (List.append_assoc ..).symm⟩, ?_⟩
  rw [List.getLast?_append]
  cases hlast : stem.getLast? with
  | none => exact houter.bare
  | some c => rwa [hlast] at hbare

/-- Of a base path that starts with a slash nothing is left, or more than that slash. -/
theorem eq_nil_or_slash (h : IsStem base stem) (hbase : ['/'] <+: base) :
    stem = [] ∨ ∃ c cs, stem = '/' :: c :: cs := by
  obtain ⟨⟨n, rfl⟩, hbare⟩ := h
  rcases stem with _ | ⟨d, _ | ⟨c, cs⟩⟩
  · exact .inl rfl
  · rw [List.cons_append, List.cons_prefix_cons] at hbase
    rw [← hbase.1] at hbare
    exact absurd rfl hbare
  · rw [List.cons_append, List.cons_prefix_cons] at hbase
    exact .inr ⟨c, cs, by rw [hbase.1]⟩

end IsStem

/-! ## Joined links -/

theorem joinLink_eq_self {link : List Char} (h : ¬['/'] <+: link) (base : List Char) :
    joinLink base link = link := by
  rw [joinLink]
  intro rest hrest
  apply h
  rw [hrest]
  exact List.prefix_append ['/'] rest

theorem joinLink_congr {base base' stem : List Char} (h : IsStem base stem) (h' : IsStem base' stem)
    (link : List Char) : joinLink base link = joinLink base' link := by
  by_cases hlink : ['/'] <+: link
  · rw [h.joinLink_eq hlink, h'.joinLink_eq hlink]
  · rw [joinLink_eq_self hlink, joinLink_eq_self hlink]

/-- A stem that starts with a slash, if it is anything, is put before what starts with one. -/
theorem slash_isPrefix_append {base stem link : List Char} (h : IsStem base stem)
    (hbase : base = [] ∨ ['/'] <+: base) (hlink : ['/'] <+: link) : ['/'] <+: stem ++ link := by
  rcases hbase with rfl | hbase
  · obtain ⟨⟨n, hn⟩, -⟩ := h
    rw [(List.append_eq_nil_iff.1 hn.symm).1]
    exact hlink
  · obtain rfl | ⟨c, cs, rfl⟩ := h.eq_nil_or_slash hbase
    · exact hlink
    · exact List.prefix_append ['/'] _

/-- Under one base path and then another is under the one put under the other. -/
theorem joinLink_joinLink {inner : List Char} (h : ['/'] <+: inner) (outer link : List Char) :
    joinLink outer (joinLink inner link) = joinLink (joinLink outer inner) link := by
  by_cases hlink : ['/'] <+: link
  · obtain ⟨innerStem, hinner⟩ := exists_isStem inner
    obtain ⟨outerStem, houter⟩ := exists_isStem outer
    have hjoined : IsStem (joinLink outer inner) (outerStem ++ innerStem) := by
      rw [houter.joinLink_eq h]
      exact houter.append hinner
    have hrooted := slash_isPrefix_append hinner (.inr h) hlink
    rw [hinner.joinLink_eq hlink, houter.joinLink_eq hrooted, hjoined.joinLink_eq hlink,
      List.append_assoc]
  · rw [joinLink_eq_self hlink, joinLink_eq_self hlink, joinLink_eq_self hlink]

theorem slash_isPrefix_joinLink_iff {base : List Char} (h : base = [] ∨ ['/'] <+: base)
    (link : List Char) : ['/'] <+: joinLink base link ↔ ['/'] <+: link := by
  by_cases hlink : ['/'] <+: link
  · obtain ⟨stem, hstem⟩ := exists_isStem base
    rw [hstem.joinLink_eq hlink]
    exact iff_of_true (slash_isPrefix_append hstem h hlink) hlink
  · rw [joinLink_eq_self hlink]

/-- What stands for itself does not start with a slash, and what is put under the base path does. -/
theorem joinLink_injective {base : List Char} (h : base = [] ∨ ['/'] <+: base) :
    Function.Injective (joinLink base) := by
  intro link link' heq
  have hsame : ['/'] <+: link ↔ ['/'] <+: link' := by
    rw [← slash_isPrefix_joinLink_iff h link, heq, slash_isPrefix_joinLink_iff h link']
  by_cases hlink : ['/'] <+: link
  · obtain ⟨stem, hstem⟩ := exists_isStem base
    rw [hstem.joinLink_eq hlink, hstem.joinLink_eq (hsame.1 hlink)] at heq
    exact List.append_cancel_left heq
  · rwa [joinLink_eq_self hlink, joinLink_eq_self (mt hsame.2 hlink)] at heq

/-- Two slashes count at the start of the base path if more than slashes stands there, and else at the
start of the link. -/
theorem namesHost_append_iff {base stem : List Char} (h : IsStem base stem) (hbase : ['/'] <+: base)
    (link : List Char) :
    NamesHost (stem ++ link) ↔ (stem ≠ [] ∧ NamesHost base) ∨ (stem = [] ∧ NamesHost link) := by
  obtain ⟨n, hn⟩ := h.slashes
  obtain rfl | ⟨c, cs, rfl⟩ := h.eq_nil_or_slash hbase
  · simp
  · simp [NamesHost, hn, List.cons_prefix_cons]

/-! ## Links of sites -/

namespace Site

theorem toList_resolveLink (s : Site) (link : String) :
    (s.resolveLink link).toList = joinLink s.basePath.toList link.toList :=
  String.toList_ofList

theorem valid_of_no_error (s : Site) (h : ∀ i ∈ s.validate.issues, i.severity ≠ .error) : s.Valid :=
  s.hasErrors_validate_iff.1 ((Report.hasErrors_eq_false_iff _).2 h)

theorem resolveLink_congr {s s' : Site} {stem : List Char} (h : IsStem s.basePath.toList stem)
    (h' : IsStem s'.basePath.toList stem) (link : String) : s.resolveLink link = s'.resolveLink link := by
  rw [resolveLink, resolveLink, joinLink_congr h h']

theorem resolveLink_injective {s : Site} (h : s.basePath = "" ∨ startsWithSlash s.basePath = true) :
    Function.Injective s.resolveLink := by
  have hbase : s.basePath.toList = [] ∨ ['/'] <+: s.basePath.toList :=
    h.imp (fun hempty => by rw [hempty]; rfl) (startsWithSlash_iff _).1
  intro link link' heq
  have hjoined := congrArg String.toList heq
  rw [toList_resolveLink, toList_resolveLink] at hjoined
  exact String.toList_inj.1 (joinLink_injective hbase hjoined)

/-- Without errors in a site, the link of an item is put under the base path: it goes on with a slash
behind the stem, and it starts with a slash. It starts with one only, unless the base path starts with
two and holds more than slashes, or holds nothing else and the link starts with two. -/
theorem resolveLink_stays_below (s : Site) (h : ∀ i ∈ s.validate.issues, i.severity ≠ .error) :
    ∃ stem, IsStem s.basePath.toList stem ∧ ∀ g ∈ s.sidebar, ∀ it ∈ g.items,
      stem ++ ['/'] <+: (s.resolveLink it.link).toList ∧ ['/'] <+: (s.resolveLink it.link).toList ∧
        (NamesHost (s.resolveLink it.link).toList ↔
          (stem ≠ [] ∧ NamesHost s.basePath.toList) ∨ (stem = [] ∧ NamesHost it.link.toList)) := by
  have hvalid := s.valid_of_no_error h
  obtain ⟨stem, hstem⟩ := exists_isStem s.basePath.toList
  refine ⟨stem, hstem, ?_⟩
  intro g hg it hit
  have hlink := (hvalid.groups g hg).relative it hit
  rw [toList_resolveLink, hstem.joinLink_eq hlink]
  exact ⟨(List.prefix_append_right_inj stem).2 hlink,
    slash_isPrefix_append hstem (.inr hvalid.absolute) hlink, namesHost_append_iff hstem hvalid.absolute _⟩

/-- A link with two slashes under a base path with a name in it. -/
theorem resolveLink_stays_below_docs :
    (∀ i ∈ (⟨"T", "D", "/docs//", [⟨"G", none, [⟨"a", "//a"⟩]⟩]⟩ : Site).validate.issues,
      i.severity ≠ .error) ∧
    ∃ stem, IsStem "/docs//".toList stem ∧ stem ++ ['/'] <+: "/docs//a".toList ∧
      (NamesHost "/docs//a".toList ↔
        (stem ≠ [] ∧ NamesHost "/docs//".toList) ∨ (stem = [] ∧ NamesHost "//a".toList)) := by
  have h : ∀ i ∈ (⟨"T", "D", "/docs//", [⟨"G", none, [⟨"a", "//a"⟩]⟩]⟩ : Site).validate.issues,
      i.severity ≠ .error := by decide
  obtain ⟨stem, hstem, hbelow⟩ := resolveLink_stays_below _ h
  obtain ⟨hstart, -, hhost⟩ := hbelow _ List.mem_cons_self _ List.mem_cons_self
  exact ⟨h, stem, hstem, hstart, hhost⟩

/-- Nothing is reported of either site, and yet the link in it names a host: nothing looks at a second
slash, be it in the link or in the base path. -/
theorem resolveLink_names_host :
    (⟨"T", "D", "/", [⟨"G", none, [⟨"a", "//host/a"⟩]⟩]⟩ : Site).validate.issues = [] ∧
      NamesHost ((⟨"T", "D", "/", [⟨"G", none, [⟨"a", "//host/a"⟩]⟩]⟩ : Site).resolveLink
        "//host/a").toList ∧
    (⟨"T", "D", "//host/", [⟨"G", none, [⟨"a", "/a"⟩]⟩]⟩ : Site).validate.issues = [] ∧
      NamesHost ((⟨"T", "D", "//host/", [⟨"G", none, [⟨"a", "/a"⟩]⟩]⟩ : Site).resolveLink
        "/a").toList := by
  unfold NamesHost
  decide

/-- Base paths act on links: one after the other as the first put under the second. Slashes at the end
of a base path do not count. Under an absolute or empty base path different links stay different, and so
do the links of each group of a valid site. -/
theorem resolveLink_acts (s : Site) :
    (∀ (outer : Site) (link : String), startsWithSlash s.basePath = true →
      outer.resolveLink (s.resolveLink link) =
        (s.withBasePath (some (outer.resolveLink s.basePath))).resolveLink link) ∧
    (∀ n link, (s.withBasePath (some (s.basePath ++ String.ofList (List.replicate n '/')))).resolveLink link =
      s.resolveLink link) ∧
    (∃ stem, IsStem s.basePath.toList stem ∧
      ∀ link, (s.withBasePath (some (String.ofList stem))).resolveLink link = s.resolveLink link) ∧
    (s.basePath = "" ∨ startsWithSlash s.basePath = true → Function.Injective s.resolveLink ∧
      ∀ link link', startsWithSlash link = true → startsWithSlash link' = false →
        s.resolveLink link ≠ s.resolveLink link') ∧
    ((∀ i ∈ s.validate.issues, i.severity ≠ .error) → ∀ g ∈ s.sidebar,
      (g.items.map fun it => s.resolveLink it.link).Nodup) := by
  refine ⟨fun outer link h => ?_, fun n link => ?_, ?_, fun h => ⟨resolveLink_injective h, ?_⟩, ?_⟩
  · rw [← String.toList_inj]
    simp only [toList_resolveLink, withBasePath]
    exact joinLink_joinLink ((startsWithSlash_iff _).1 h) _ _
  · obtain ⟨stem, hstem⟩ := exists_isStem s.basePath.toList
    refine resolveLink_congr ?_ hstem link
    rw [withBasePath, String.toList_append, String.toList_ofList]
    exact hstem.append_replicate n
  · obtain ⟨stem, hstem⟩ := exists_isStem s.basePath.toList
    refine ⟨stem, hstem, fun link => resolveLink_congr ?_ hstem link⟩
    rw [withBasePath, String.toList_ofList]
    exact hstem.self
  · intro link link' hlink hlink' heq
    rw [resolveLink_injective h heq, hlink'] at hlink
    cases hlink
  · intro hvalid g hg
    have hvalid := s.valid_of_no_error hvalid
    have hinjective := resolveLink_injective (.inr ((startsWithSlash_iff _).2 hvalid.absolute))
    have hdistinct := ((hvalid.groups g hg).distinct).map hinjective
    rwa [List.map_map] at hdistinct

/-- Two links of a group under `/b`, and that under `/a`. -/
theorem resolveLink_acts_nested :
    (⟨"T", "D", "/a//", []⟩ : Site).resolveLink
        ((⟨"T", "D", "/b", [⟨"G", none, [⟨"x", "/x"⟩, ⟨"y", "/y"⟩]⟩]⟩ : Site).resolveLink "/x") =
      ((⟨"T", "D", "/b", [⟨"G", none, [⟨"x", "/x"⟩, ⟨"y", "/y"⟩]⟩]⟩ : Site).withBasePath
        (some ((⟨"T", "D", "/a//", []⟩ : Site).resolveLink "/b"))).resolveLink "/x" ∧
    Function.Injective (⟨"T", "D", "/b", [⟨"G", none, [⟨"x", "/x"⟩, ⟨"y", "/y"⟩]⟩]⟩ : Site).resolveLink ∧
    ([⟨"x", "/x"⟩, ⟨"y", "/y"⟩].map fun it : Item =>
      (⟨"T", "D", "/b", [⟨"G", none, [⟨"x", "/x"⟩, ⟨"y", "/y"⟩]⟩]⟩ : Site).resolveLink it.link).Nodup := by
  obtain ⟨hnested, -, -, hinjective, hdistinct⟩ :=
    resolveLink_acts ⟨"T", "D", "/b", [⟨"G", none, [⟨"x", "/x"⟩, ⟨"y", "/y"⟩]⟩]⟩
  exact ⟨hnested _ _ (by decide), (hinjective (.inr (by decide))).1,
    hdistinct (by decide) _ List.mem_cons_self⟩

end Site

end SiteNav
