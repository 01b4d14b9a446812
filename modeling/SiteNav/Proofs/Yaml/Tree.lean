import SiteNav.Proofs.Document.Shows
import SiteNav.Proofs.Yaml.Written
import SiteNav.Yaml.Dialect

/-!
# Trees of written sites

From the tokens of a content a node is built that spells the content, whatever tokens come after them.
Only a list that is no block of its own looks at what follows: no dash may be next. Each token takes at
most two of the steps that the builder has.
-/
namespace SiteNav.Yaml
open Document

namespace Builder
variable {m : Mark} {fuel : Nat} {tokens : List Token} {anchors : List (String × Nat)}
  {handles : List (String × String)} {src src' : Source} {dashes : Bool} {t : Token} {n : Node}
  {ns : List Node} {es : List (Node × Node)}

theorem node_scalar (m : Mark) (style : Style) (text : String) :
    node (fuel + 1) true dashes ⟨⟨m, .scalar style text⟩ :: tokens, anchors, handles⟩ =
      some (.scalar m none ⟨text, style, none⟩, ⟨tokens, anchors, handles⟩) := rfl

theorem node_brackets (m m' : Mark) :
    node (fuel + 2) true dashes ⟨⟨m, .flowList⟩ :: ⟨m', .flowListEnd⟩ :: tokens, anchors, handles⟩ =
      some (.list m none [], ⟨tokens, anchors, handles⟩) := rfl

theorem node_dash (h : dashEntries fuel ⟨⟨m, .dash⟩ :: tokens, anchors, handles⟩ = some (ns, src)) :
    node (fuel + 1) true true ⟨⟨m, .dash⟩ :: tokens, anchors, handles⟩ =
      some (.list m none ns, src) := by
  change (dashEntries fuel ⟨⟨m, .dash⟩ :: tokens, anchors, handles⟩).bind _ = _
  rw [h]
  rfl

theorem node_blockList (h : blockItems fuel ⟨tokens, anchors, handles⟩ = some (ns, src)) :
    node (fuel + 1) true dashes ⟨⟨m, .blockList⟩ :: tokens, anchors, handles⟩ =
      some (.list m none ns, src) := by
  change (blockItems fuel ⟨tokens, anchors, handles⟩).bind _ = _
  rw [h]
  rfl

theorem node_blockMap (h : blockEntries fuel ⟨tokens, anchors, handles⟩ = some (es, src)) :
    node (fuel + 1) true dashes ⟨⟨m, .blockMap⟩ :: tokens, anchors, handles⟩ =
      some (.map m none es, src) := by
  change (blockEntries fuel ⟨tokens, anchors, handles⟩).bind _ = _
  rw [h]
  rfl

theorem dashEntries_dash (ht : endsEntry t.lexeme = false) (hdash : t.lexeme ≠ .dash)
    (hn : node fuel true false ⟨t :: tokens, anchors, handles⟩ = some (n, src))
    (hns : dashEntries fuel src = some (ns, src')) :
    dashEntries (fuel + 1) ⟨⟨m, .dash⟩ :: t :: tokens, anchors, handles⟩ = some (n :: ns, src') := by
  have hstep : dashEntries (fuel + 1) ⟨⟨m, .dash⟩ :: t :: tokens, anchors, handles⟩ =
      (node fuel true false ⟨t :: tokens, anchors, handles⟩).bind fun r =>
        (dashEntries fuel r.2).bind fun r' => some (r.1 :: r'.1, r'.2) := by
    obtain ⟨m', x⟩ := t
    cases x <;> first | rfl | exact absurd rfl hdash | cases ht
  rw [hstep, hn, Option.bind_some, hns]
  rfl

theorem dashEntries_end (ht : t.lexeme ≠ .dash) :
    dashEntries (fuel + 1) ⟨t :: tokens, anchors, handles⟩ =
      some ([], ⟨t :: tokens, anchors, handles⟩) := by
  obtain ⟨m', x⟩ := t
  cases x <;> first | rfl | exact absurd rfl ht

theorem blockItems_dash (ht : endsEntry t.lexeme = false) (hdash : t.lexeme ≠ .dash)
    (hn : node fuel true false ⟨t :: tokens, anchors, handles⟩ = some (n, src))
    (hns : blockItems fuel src = some (ns, src')) :
    blockItems (fuel + 1) ⟨⟨m, .dash⟩ :: t :: tokens, anchors, handles⟩ = some (n :: ns, src') := by
  have hstep : blockItems (fuel + 1) ⟨⟨m, .dash⟩ :: t :: tokens, anchors, handles⟩ =
      (node fuel true false ⟨t :: tokens, anchors, handles⟩).bind fun r =>
        (blockItems fuel r.2).bind fun r' => some (r.1 :: r'.1, r'.2) := by
    obtain ⟨m', x⟩ := t
    cases x <;> first | rfl | exact absurd rfl hdash | cases ht
  rw [hstep, hn, Option.bind_some, hns]
  rfl

theorem blockItems_end : blockItems (fuel + 1) ⟨⟨m, .blockEnd⟩ :: tokens, anchors, handles⟩ =
    some ([], ⟨tokens, anchors, handles⟩) := rfl

theorem blockEntries_key (m mk mv : Mark) (k : String) (ht : endsEntry t.lexeme = false)
    (hn : node (fuel + 1) true true ⟨t :: tokens, anchors, handles⟩ = some (n, src))
    (hes : blockEntries (fuel + 1) src = some (es, src')) :
    blockEntries (fuel + 2)
      ⟨⟨m, .key⟩ :: ⟨mk, .scalar .plain k⟩ :: ⟨mv, .value⟩ :: t :: tokens, anchors, handles⟩ =
        some ((.scalar mk none ⟨k, .plain, none⟩, n) :: es, src') := by
  have hstep : blockEntries (fuel + 2)
      ⟨⟨m, .key⟩ :: ⟨mk, .scalar .plain k⟩ :: ⟨mv, .value⟩ :: t :: tokens, anchors, handles⟩ =
        (node (fuel + 1) true true ⟨t :: tokens, anchors, handles⟩).bind fun r =>
          (blockEntries (fuel + 1) r.2).bind fun r' =>
            some ((.scalar mk none ⟨k, .plain, none⟩, r.1) :: r'.1, r'.2) := by
    obtain ⟨m', x⟩ := t
    cases x <;> first | rfl | cases ht
  rw [hstep, hn, Option.bind_some, hes]
  rfl

theorem blockEntries_end : blockEntries (fuel + 1) ⟨⟨m, .blockEnd⟩ :: tokens, anchors, handles⟩ =
    some ([], ⟨tokens, anchors, handles⟩) := rfl

theorem document_blockMap {m' : Mark} {rest : List Token}
    (h : node (fuel + 1) true false ⟨⟨m, .blockMap⟩ :: tokens, anchors, handles⟩ =
      some (n, ⟨⟨m', .streamEnd⟩ :: rest, anchors, handles⟩)) :
    document (fuel + 1) ⟨⟨m, .blockMap⟩ :: tokens, anchors, handles⟩ =
      some (n, ⟨⟨m', .streamEnd⟩ :: rest, anchors, handles⟩) := by
  change (node (fuel + 1) true false ⟨⟨m, .blockMap⟩ :: tokens, anchors, handles⟩).bind _ = _
  rw [h]
  rfl

end Builder

section Contents
variable {anchors : List (String × Nat)} {handles : List (String × String)} {later : List Lexeme}

/-- A list that is no block of its own ends here. -/
def EndsDashes (later : List Lexeme) : Prop :=
  ∃ x xs, later = x :: xs ∧ x ≠ .dash

theorem exists_ofContent_cons (dashes : Bool) (c : Content) :
    ∃ x xs, Lexeme.ofContent dashes c = x :: xs ∧ Builder.endsEntry x = false ∧
      (dashes = false → x ≠ .dash) := by
  cases c with
  | flag b => exact ⟨_, _, rfl, rfl, nofun⟩
  | text s => exact ⟨_, _, rfl, rfl, nofun⟩
  | map es => exact ⟨_, _, rfl, rfl, nofun⟩
  | list cs =>
    cases cs with
    | nil => exact ⟨_, _, rfl, rfl, nofun⟩
    | cons c cs =>
      cases dashes with
      | false => exact ⟨_, _, rfl, rfl, nofun⟩
      | true => exact ⟨_, _, rfl, rfl, nofun⟩

theorem length_ofItems_cons (c : Content) (cs : List Content) : (Lexeme.ofItems (c :: cs)).length =
    (Lexeme.ofContent false c).length + (Lexeme.ofItems cs).length + 1 := by
  simp [Lexeme.ofItems]

theorem endsDashes_ofEntries (es : List (String × Content)) (later : List Lexeme) :
    EndsDashes (Lexeme.ofEntries es ++ .blockEnd :: later) := by
  cases es with
  | nil => exact ⟨_, _, rfl, nofun⟩
  | cons e es => exact ⟨_, _, rfl, nofun⟩

namespace Node

mutual

/-- A node is what is read where a content is written: there are no anchors, tags and aliases, keys are
plain, and every text is in the style that was chosen for it. -/
inductive Spells : Node → Content → Prop
  | flag (m : Mark) (b : Bool) :
      Spells (scalar m none ⟨if b then "true" else "false", .plain, none⟩) (.flag b)
  | text (m : Mark) (s : String) :
      Spells (scalar m none ⟨s, (Written.style s).found, none⟩) (.text s)
  | list (m : Mark) {ns : List Node} {cs : List Content} (h : List.Forall₂ Spells ns cs) :
      Spells (list m none ns) (.list cs)
  | map (m : Mark) {entries : List (Node × Node)} {es : List (String × Content)}
      (h : SpellEntries entries es) : Spells (map m none entries) (.map es)

inductive SpellEntries : List (Node × Node) → List (String × Content) → Prop
  | nil : SpellEntries [] []
  | cons (m : Mark) (k : String) {n : Node} {c : Content} {entries : List (Node × Node)}
      {es : List (String × Content)} (hn : Spells n c) (h : SpellEntries entries es) :
      SpellEntries ((scalar m none ⟨k, .plain, none⟩, n) :: entries) ((k, c) :: es)

end

mutual

theorem Spells.shows (t : Tree) : ∀ (c : Content) {n : Node}, n.Spells c → t.dialect.Shows n c
  | .flag b, _, .flag _ _ => fun _ _ => by cases b <;> rfl
  | .text _, _, .text _ _ => fun _ => rfl
  | .list cs, _, .list _ h => ⟨_, _, rfl, rfl, showsItems_of_spells t cs h⟩
  | .map es, _, .map _ h => ⟨_, _, _, rfl, rfl, .refl _, SpellEntries.shows t es h⟩

theorem showsItems_of_spells (t : Tree) : ∀ (cs : List Content) {ns : List Node},
    List.Forall₂ Spells ns cs → t.dialect.ShowsItems ns cs
  | [], _, .nil => trivial
  | c :: cs, _, .cons h hs => ⟨h.shows t c, showsItems_of_spells t cs hs⟩

theorem SpellEntries.shows (t : Tree) : ∀ (es : List (String × Content))
    {entries : List (Node × Node)}, SpellEntries entries es → t.dialect.ShowsEntries entries es
  | [], _, .nil => trivial
  | (_, c) :: es, _, .cons _ _ h hs => ⟨fun _ _ => rfl, h.shows t c, hs.shows t es⟩

end

end Node

theorem exists_token {tokens : List Token} {x : Lexeme} {xs : List Lexeme}
    (h : tokens.map (·.lexeme) = x :: xs) :
    ∃ m rest, tokens = ⟨m, x⟩ :: rest ∧ rest.map (·.lexeme) = xs := by
  obtain ⟨⟨m, y⟩, rest, rfl, rfl, hrest⟩ := List.map_eq_cons_iff.1 h
  exact ⟨m, rest, rfl, hrest⟩

theorem exists_token_ofContent {tokens : List Token} {dashes : Bool} {c : Content}
    (h : tokens.map (·.lexeme) = Lexeme.ofContent dashes c ++ later) : ∃ t rest, tokens = t :: rest ∧
      Builder.endsEntry t.lexeme = false ∧ (dashes = false → t.lexeme ≠ .dash) := by
  obtain ⟨x, xs, hx, hvalue, hdash⟩ := exists_ofContent_cons dashes c
  rw [hx] at h
  obtain ⟨m, rest, rfl, _⟩ := exists_token h
  exact ⟨_, rest, rfl, hvalue, hdash⟩

mutual

/-- By induction on the content: the tokens of the content are taken, and those after them are left. -/
theorem exists_node (dashes : Bool) : ∀ (c : Content) (tokens : List Token) (fuel : Nat)
    (later : List Lexeme), tokens.map (·.lexeme) = Lexeme.ofContent dashes c ++ later →
    2 * (Lexeme.ofContent dashes c).length + 1 < fuel → (dashes = true → EndsDashes later) →
    ∃ n rest, Builder.node fuel true dashes ⟨tokens, anchors, handles⟩ =
        some (n, ⟨rest, anchors, handles⟩) ∧
      rest.map (·.lexeme) = later ∧ n.Spells c
  | .flag b, tokens, fuel + 1, later, htokens, _, _ => by
    obtain ⟨m, rest, rfl, hrest⟩ := exists_token htokens
    exact ⟨_, rest, Builder.node_scalar m _ _, hrest, .flag m b⟩
  | .text s, tokens, fuel + 1, later, htokens, _, _ => by
    obtain ⟨m, rest, rfl, hrest⟩ := exists_token htokens
    exact ⟨_, rest, Builder.node_scalar m _ _, hrest, .text m s⟩
  | .map es, tokens, fuel + 1, later, htokens, hfuel, _ => by
    obtain ⟨m, inner, rfl, hinner⟩ := exists_token htokens
    have hentries := hinner.trans (List.append_assoc (Lexeme.ofEntries es) [.blockEnd] later)
    have hlength : (Lexeme.ofContent dashes (.map es)).length = (Lexeme.ofEntries es).length + 2 := by
      simp [Lexeme.ofContent]
    obtain ⟨entries, rest, hread, hrest, hspells⟩ :=
      exists_entries es inner fuel later hentries (by omega)
    exact ⟨_, rest, Builder.node_blockMap hread, hrest, .map m hspells⟩
  | .list [], tokens, fuel + 2, later, htokens, _, _ => by
    obtain ⟨m, inner, rfl, hinner⟩ := exists_token htokens
    obtain ⟨m', rest, rfl, hrest⟩ := exists_token hinner
    exact ⟨_, rest, Builder.node_brackets m m', hrest, .list m .nil⟩
  | .list (c :: cs), tokens, fuel + 1, later, htokens, hfuel, hlater => by
    cases dashes with
    | true =>
      obtain ⟨m, inner, rfl, hinner⟩ := exists_token htokens
      obtain ⟨ns, rest, hread, hrest, hspells⟩ := exists_items (c :: cs) (⟨m, .dash⟩ :: inner) fuel later
        htokens (Nat.lt_of_succ_lt_succ hfuel) (hlater rfl)
      exact ⟨_, rest, Builder.node_dash hread, hrest, .list m hspells⟩
    | false =>
      obtain ⟨m, inner, rfl, hinner⟩ := exists_token htokens
      have hitems := hinner.trans (List.append_assoc (Lexeme.ofItems (c :: cs)) [.blockEnd] later)
      have hlength : (Lexeme.ofContent false (.list (c :: cs))).length =
          (Lexeme.ofItems (c :: cs)).length + 2 := by
        simp [Lexeme.ofContent]
      obtain ⟨ns, rest, hread, hrest, hspells⟩ :=
        exists_blockItems (c :: cs) inner fuel later hitems (by omega)
      exact ⟨_, rest, Builder.node_blockList hread, hrest, .list m hspells⟩

theorem exists_items : ∀ (cs : List Content) (tokens : List Token) (fuel : Nat)
    (later : List Lexeme), tokens.map (·.lexeme) = Lexeme.ofItems cs ++ later →
    2 * (Lexeme.ofItems cs).length < fuel → EndsDashes later → ∃ ns rest,
      Builder.dashEntries fuel ⟨tokens, anchors, handles⟩ = some (ns, ⟨rest, anchors, handles⟩) ∧
        rest.map (·.lexeme) = later ∧ List.Forall₂ Node.Spells ns cs
  | [], tokens, fuel + 1, later, htokens, _, hlater => by
    obtain ⟨x, xs, rfl, hx⟩ := hlater
    obtain ⟨m, rest, rfl, hrest⟩ := exists_token htokens
    exact ⟨[], _, Builder.dashEntries_end hx, htokens, .nil⟩
  | c :: cs, tokens, fuel + 1, later, htokens, hfuel, hlater => by
    obtain ⟨m, inner, rfl, hinner⟩ := exists_token htokens
    have hone := hinner.trans (List.append_assoc (Lexeme.ofContent false c) _ _)
    obtain ⟨t, inner', rfl, hvalue, hdash⟩ := exists_token_ofContent hone
    have hlength := length_ofItems_cons c cs
    obtain ⟨n, rest, hread, hrest, hone'⟩ := exists_node false c _ fuel _ hone (by omega) nofun
    obtain ⟨ns, rest', hreads, hrest', hmany⟩ :=
      exists_items cs rest fuel later hrest (by omega) hlater
    exact ⟨n :: ns, rest', Builder.dashEntries_dash hvalue (hdash rfl) hread hreads, hrest',
      .cons hone' hmany⟩

theorem exists_blockItems : ∀ (cs : List Content) (tokens : List Token) (fuel : Nat)
    (later : List Lexeme), tokens.map (·.lexeme) = Lexeme.ofItems cs ++ .blockEnd :: later →
    2 * (Lexeme.ofItems cs).length < fuel → ∃ ns rest,
      Builder.blockItems fuel ⟨tokens, anchors, handles⟩ = some (ns, ⟨rest, anchors, handles⟩) ∧
        rest.map (·.lexeme) = later ∧ List.Forall₂ Node.Spells ns cs
  | [], tokens, fuel + 1, later, htokens, _ => by
    obtain ⟨m, rest, rfl, hrest⟩ := exists_token htokens
    exact ⟨[], rest, Builder.blockItems_end, hrest, .nil⟩
  | c :: cs, tokens, fuel + 1, later, htokens, hfuel => by
    obtain ⟨m, inner, rfl, hinner⟩ := exists_token htokens
    have hone := hinner.trans (List.append_assoc (Lexeme.ofContent false c) _ _)
    obtain ⟨t, inner', rfl, hvalue, hdash⟩ := exists_token_ofContent hone
    have hlength := length_ofItems_cons c cs
    obtain ⟨n, rest, hread, hrest, hone'⟩ := exists_node false c _ fuel _ hone (by omega) nofun
    obtain ⟨ns, rest', hreads, hrest', hmany⟩ :=
      exists_blockItems cs rest fuel later hrest (by omega)
    exact ⟨n :: ns, rest', Builder.blockItems_dash hvalue (hdash rfl) hread hreads, hrest',
      .cons hone' hmany⟩

theorem exists_entries : ∀ (es : List (String × Content)) (tokens : List Token) (fuel : Nat)
    (later : List Lexeme), tokens.map (·.lexeme) = Lexeme.ofEntries es ++ .blockEnd :: later →
    2 * (Lexeme.ofEntries es).length < fuel → ∃ entries rest,
      Builder.blockEntries fuel ⟨tokens, anchors, handles⟩ =
        some (entries, ⟨rest, anchors, handles⟩) ∧
      rest.map (·.lexeme) = later ∧ Node.SpellEntries entries es
  | [], tokens, fuel + 1, later, htokens, _ => by
    obtain ⟨m, rest, rfl, hrest⟩ := exists_token htokens
    exact ⟨[], rest, Builder.blockEntries_end, hrest, .nil⟩
  | (k, c) :: es, tokens, fuel + 2, later, htokens, hfuel => by
    obtain ⟨m, inner₁, rfl, h₁⟩ := exists_token htokens
    obtain ⟨mk, inner₂, rfl, h₂⟩ := exists_token h₁
    obtain ⟨mv, inner₃, rfl, h₃⟩ := exists_token h₂
    have hone := h₃.trans (List.append_assoc (Lexeme.ofContent true c) _ _)
    obtain ⟨t, inner', rfl, hvalue, _⟩ := exists_token_ofContent hone
    have hlength : (Lexeme.ofEntries ((k, c) :: es)).length =
        (Lexeme.ofContent true c).length + (Lexeme.ofEntries es).length + 3 := by
      simp [Lexeme.ofEntries]
    obtain ⟨n, rest, hread, hrest, hone'⟩ := exists_node true c _ (fuel + 1) _ hone (by omega)
      fun _ => endsDashes_ofEntries es later
    obtain ⟨entries, rest', hreads, hrest', hmany⟩ :=
      exists_entries es rest (fuel + 1) later hrest (by omega)
    exact ⟨_, rest', Builder.blockEntries_key m mk mv k hvalue hread hreads, hrest',
      .cons mk k hone' hmany⟩

end

end Contents

/-- From the tokens of a site a node is built that spells its content. -/
theorem exists_tree_of_reads {cs : List Char} {s : Site}
    (hprintable : ∀ c ∈ cs, Written.isPrintable c = true)
    (h : Reads true [] ⟨.start, cs⟩ (Lexeme.ofContent false (.ofSite s) ++ [.streamEnd])) :
    ∃ t, tree? cs = some t ∧ t.root.Spells (.ofSite s) := by
  obtain ⟨tokens, htokens, hlexemes⟩ := exists_tokens_of_reads hprintable h
  have hlength : tokens.length = (Lexeme.ofContent false (.ofSite s)).length + 1 := by
    have hmap := congrArg List.length hlexemes
    simpa using hmap
  have hbuilt : ∃ root rest, Builder.node (3 * tokens.length + 3) true false
      ⟨tokens, [], Builder.standardHandles⟩ = some (root, ⟨rest, [], Builder.standardHandles⟩) ∧
        rest.map (·.lexeme) = [.streamEnd] ∧ root.Spells (.ofSite s) :=
    exists_node false (.ofSite s) tokens _ _ hlexemes (by omega) nofun
  obtain ⟨root, rest, hnode, hrest, hspells⟩ := hbuilt
  obtain ⟨m, inner, rfl, _⟩ := exists_token hlexemes
  obtain ⟨m', after, rfl, _⟩ := exists_token hrest
  refine ⟨⟨root, root.anchored⟩, ?_, hspells⟩
  have hdocument := Builder.document_blockMap hnode
  rw [tree?, htokens]
  simp only [Option.bind_eq_bind, Option.bind_some, StateT.run, hdocument]
  rfl

theorem exists_tree_spells (s : Site) : ∃ t, tree? (Written.site s) = some t ∧
    t.root.Spells (.ofSite s) :=
  exists_tree_of_reads (isPrintable_site s) (reads_site s)

/-- What is written for a site is read as a node that shows its content. -/
theorem exists_tree_site (s : Site) : ∃ t, tree? (Written.site s) = some t ∧
    t.dialect.Shows t.root (.ofSite s) :=
  let ⟨t, hread, hspells⟩ := exists_tree_spells s
  ⟨t, hread, hspells.shows t _⟩

end SiteNav.Yaml
