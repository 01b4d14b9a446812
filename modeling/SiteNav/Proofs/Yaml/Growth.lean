import Mathlib.Tactic.SplitIfs
import SiteNav.Yaml.Outline

/-!
# Outlines that grow

Whatever is read, an outline keeps its tokens in order. New ones are put in front of them or among
them, and the token for the end of the text is only put there when the text ends.
-/
namespace SiteNav.Yaml.Outline

/-- The tokens are kept in order, and none of the new ones is the end of the text. -/
structure Grows (o o' : Outline) : Prop where
  kept : o.tokens.Sublist o'.tokens
  fresh : ∀ t ∈ o'.tokens, t ∈ o.tokens ∨ t.lexeme ≠ .streamEnd

namespace Grows
variable {o o' o'' : Outline} {m : Mark}

theorem of_tokens_eq (h : o'.tokens = o.tokens) : o.Grows o' where
  kept := h ▸ List.Sublist.refl _
  fresh _ ht := .inl (h ▸ ht)

theorem trans (h : o.Grows o') (h' : o'.Grows o'') : o.Grows o'' where
  kept := h.kept.trans h'.kept
  fresh t ht := by
    rcases h'.fresh t ht with ht' | hx
    · exact h.fresh t ht'
    · exact .inr hx

theorem emit (h : o.Grows o') {x : Lexeme} (hx : x ≠ .streamEnd) : o.Grows (o'.emit m x) := by
  refine h.trans ⟨List.sublist_cons_self .., fun t ht => ?_⟩
  rcases List.mem_cons.1 ht with rfl | ht
  · exact .inr hx
  · exact .inl ht

theorem insert (h : o.Grows o') (position : Nat) (hx : x ≠ .streamEnd) :
    o.Grows (o'.insert position m x) := by
  refine h.trans ⟨?_, fun t ht => ?_⟩
  · let later := o'.tokens.length - position
    have hsub := (List.sublist_cons_self ⟨m, x⟩ (o'.tokens.drop later)).append_left (o'.tokens.take later)
    rwa [List.take_append_drop] at hsub
  · rcases List.mem_append.1 ht with ht | ht
    · exact .inl (List.mem_of_mem_take ht)
    · rcases List.mem_cons.1 ht with rfl | ht
      · exact .inr hx
      · exact .inl (List.mem_of_mem_drop ht)

theorem allowKey (h : o.Grows o') (b : Bool) : o.Grows (o'.allowKey b) :=
  h.trans (.of_tokens_eq rfl)

theorem endBlocks (h : o.Grows o') (m : Mark) (deeper : Nat → Bool) : o.Grows (o'.endBlocks m deeper) := by
  rw [Outline.endBlocks]
  split
  · exact h
  · refine h.trans ⟨List.sublist_append_right .., fun t ht => ?_⟩
    rcases List.mem_append.1 ht with ht | ht
    · obtain ⟨_, -, rfl⟩ := List.mem_map.1 ht
      exact .inr (by rintro ⟨⟩)
    · exact .inl ht

theorem beginBlock (h : o.Grows o') (m : Mark) (position : Nat) (hx : x ≠ .streamEnd) :
    o.Grows (o'.beginBlock m position x) := by
  rw [Outline.beginBlock]
  split
  · exact h
  · exact (h.insert position hx).trans (.of_tokens_eq rfl)

theorem dropCandidate (h : o.Grows o') (hdrop : o'.dropCandidate = some o'') : o.Grows o'' := by
  rw [Outline.dropCandidate] at hdrop
  split at hdrop
  · split at hdrop
    · cases hdrop
    · cases hdrop
      exact h.trans (.of_tokens_eq rfl)
  · cases hdrop
    exact h

theorem noteCandidate (h : o.Grows o') (hnote : o'.noteCandidate m = some o'') : o.Grows o'' := by
  rw [Outline.noteCandidate] at hnote
  split at hnote
  · obtain ⟨o₁, hdrop, hnote⟩ := Option.bind_eq_some_iff.1 hnote
    cases hnote
    exact (h.dropCandidate hdrop).trans (.of_tokens_eq rfl)
  · cases hnote
    exact h

theorem expire (h : o.Grows o') (hexpire : o'.expire m = some o'') : o.Grows o'' := by
  obtain ⟨candidate, -, hexpire⟩ := Option.bind_eq_some_iff.1 hexpire
  obtain ⟨outer, -, hexpire⟩ := Option.bind_eq_some_iff.1 hexpire
  cases hexpire
  exact h.trans (.of_tokens_eq rfl)

end Grows

/-! ## Tokens of the text -/

variable {o o' : Outline} {m : Mark} {x : Lexeme}

theorem Grows.refl (o : Outline) : o.Grows o :=
  .of_tokens_eq rfl

theorem grows_boundary {b : Boundary} (h : o.boundary m b = some o') : o.Grows o' := by
  obtain ⟨o₁, hdrop, h⟩ := Option.bind_eq_some_iff.1 h
  cases h
  exact ((((Grows.refl o).endBlocks m _).dropCandidate hdrop).allowKey false).emit (by rintro ⟨⟩)

theorem grows_directive (hx : x ≠ .streamEnd) (h : o.directive m x = some o') : o.Grows o' := by
  obtain ⟨o₁, hdrop, h⟩ := Option.bind_eq_some_iff.1 h
  cases h
  exact ((((Grows.refl o).endBlocks m _).dropCandidate hdrop).allowKey false).emit hx

theorem grows_openBracket (hx : x ≠ .streamEnd) (h : o.openBracket m x = some o') : o.Grows o' := by
  obtain ⟨o₁, hnote, h⟩ := Option.bind_eq_some_iff.1 h
  cases h
  have hopen :
      o.Grows { o₁ with candidate := none, outer := o₁.candidate :: o₁.outer, keyAllowed := true } :=
    ((Grows.refl o).noteCandidate hnote).trans (.of_tokens_eq rfl)
  exact hopen.emit hx

theorem grows_closeBracket (hx : x ≠ .streamEnd) (h : o.closeBracket m x = some o') : o.Grows o' := by
  obtain ⟨o₁, hdrop, h⟩ := Option.bind_eq_some_iff.1 h
  have hgrows := (Grows.refl o).dropCandidate hdrop
  split at h
  · next c outer _ =>
    cases h
    have hclose : o.Grows { o₁ with candidate := c, outer, keyAllowed := false } :=
      hgrows.trans (.of_tokens_eq rfl)
    exact hclose.emit hx
  · cases h
    exact (hgrows.allowKey false).emit hx

theorem grows_comma (h : o.comma m = some o') : o.Grows o' := by
  obtain ⟨o₁, hdrop, h⟩ := Option.bind_eq_some_iff.1 h
  cases h
  exact (((Grows.refl o).dropCandidate hdrop).allowKey true).emit (by rintro ⟨⟩)

theorem grows_dash (h : o.dash m = some o') : o.Grows o' := by
  rw [dash] at h
  split at h
  · cases h
  · obtain ⟨o₁, hdrop, h⟩ := Option.bind_eq_some_iff.1 h
    cases h
    have hbegin := (Grows.refl o).beginBlock (x := .blockList) m o.tokens.length (by rintro ⟨⟩)
    exact ((hbegin.dropCandidate hdrop).allowKey true).emit (by rintro ⟨⟩)

theorem grows_key (h : o.key m = some o') : o.Grows o' := by
  rw [key] at h
  split at h
  · cases h
  · obtain ⟨o₁, hdrop, h⟩ := Option.bind_eq_some_iff.1 h
    cases h
    have hbegin := (Grows.refl o).beginBlock (x := .blockMap) m o.tokens.length (by rintro ⟨⟩)
    exact ((hbegin.dropCandidate hdrop).allowKey _).emit (by rintro ⟨⟩)

theorem grows_value (h : o.value m = some o') : o.Grows o' := by
  rw [value] at h
  split at h
  · next c hc =>
    cases h
    have hinsert : o.Grows ({ o with candidate := none }.insert c.position c.mark .key) :=
      (Grows.of_tokens_eq rfl : o.Grows { o with candidate := none }).insert c.position (by rintro ⟨⟩)
    exact ((hinsert.beginBlock c.mark c.position (by rintro ⟨⟩)).allowKey false).emit (by rintro ⟨⟩)
  · split at h
    · cases h
    · cases h
      exact (((Grows.refl o).beginBlock m _ (by rintro ⟨⟩)).allowKey _).emit (by rintro ⟨⟩)

theorem grows_content (hx : x ≠ .streamEnd) (h : o.content m x = some o') : o.Grows o' := by
  obtain ⟨o₁, hnote, h⟩ := Option.bind_eq_some_iff.1 h
  cases h
  exact (((Grows.refl o).noteCandidate hnote).allowKey false).emit hx

theorem grows_blockScalar (hx : x ≠ .streamEnd) (h : o.blockScalar m x = some o') : o.Grows o' := by
  obtain ⟨o₁, hdrop, h⟩ := Option.bind_eq_some_iff.1 h
  cases h
  exact (((Grows.refl o).dropCandidate hdrop).allowKey true).emit hx

/-! ## Pieces of the text -/

/-- What starts at a place of the text, and what has to be done with the outline there. -/
inductive Piece where
  | directive (x : Lexeme)
  | boundary (b : Boundary)
  | openBracket (x : Lexeme)
  | closeBracket (x : Lexeme)
  | comma
  | dash
  | key
  | value
  | content (x : Lexeme)
  | blockScalar (x : Lexeme)
  /-- A scalar without quotes, and whether line breaks follow it. -/
  | plain (text : String) (lines : Bool)

namespace Piece

def lexeme : Piece → Lexeme
  | directive x | openBracket x | closeBracket x | content x | blockScalar x => x
  | boundary b => .document b
  | comma => .comma
  | dash => .dash
  | key => .key
  | value => .value
  | plain s _ => .scalar .plain s

def take (o : Outline) (m : Mark) : Piece → Option Outline
  | directive x => o.directive m x
  | boundary b => o.boundary m b
  | openBracket x => o.openBracket m x
  | closeBracket x => o.closeBracket m x
  | comma => o.comma m
  | dash => o.dash m
  | key => o.key m
  | value => o.value m
  | content x => o.content m x
  | blockScalar x => o.blockScalar m x
  | plain s lines => (o.content m (.scalar .plain s)).map (·.allowKey lines)

theorem grows_take {p : Piece} (hp : p.lexeme ≠ .streamEnd) (h : p.take o m = some o') : o.Grows o' := by
  cases p with
  | directive x => exact grows_directive hp h
  | boundary b => exact grows_boundary h
  | openBracket x => exact grows_openBracket hp h
  | closeBracket x => exact grows_closeBracket hp h
  | comma => exact grows_comma h
  | dash => exact grows_dash h
  | key => exact grows_key h
  | value => exact grows_value h
  | content x => exact grows_content hp h
  | blockScalar x => exact grows_blockScalar hp h
  | plain s lines =>
    obtain ⟨o₁, hcontent, rfl⟩ := Option.map_eq_some_iff.1 h
    exact (grows_content hp hcontent).allowKey lines

end Piece

/-- Reads the piece that starts with `c`. Of the outline it only matters whether a bracket is open and
how far the block around it is indented. -/
def piece? (flow : Bool) (least : Nat) (m : Mark) (c : Char) (cs : List Char) :
    Option (Piece × Tail) :=
  let here : Tail := ⟨m, c :: cs⟩
  let after : Tail := ⟨m.past c, cs⟩
  if m.column = 0 ∧ c = '%' then do
    let (x, t) ← Directive.read? after
    return (.directive x, ← Block.restOfLine t)
  else match boundary? m (c :: cs) with
  | some b => some (.boundary b, ⟨⟨m.line, m.column + 3⟩, cs.drop 2⟩)
  | none =>
    if c = '[' then some (.openBracket .flowList, after)
    else if c = '{' then some (.openBracket .flowMap, after)
    else if c = ']' then some (.closeBracket .flowListEnd, after)
    else if c = '}' then some (.closeBracket .flowMapEnd, after)
    else if c = ',' then some (.comma, after)
    else if c = '-' ∧ atGap cs then some (.dash, after)
    else if c = '?' ∧ (flow ∨ atGap cs) then some (.key, after)
    else if c = ':' ∧ (flow ∨ atGap cs) then some (.value, after)
    else if c = '*' then (anchorName? after).map fun (name, t) => (.content (.reference name), t)
    else if c = '&' then (anchorName? after).map fun (name, t) => (.content (.anchor name), t)
    else if c = '!' then (Tag.read? flow here).map fun (x, t) => (.content x, t)
    else if (c = '|' ∨ c = '>') ∧ !flow then
      (Block.scan (c == '>') least after).map fun (s, t) =>
        (.blockScalar (.scalar (if c = '>' then .folded else .literal) s), t)
    else if c = '\'' then
      (Quoted.single after).map fun (s, t) => (.content (.scalar .single s), t)
    else if c = '"' then
      (Quoted.double after).map fun (s, t) => (.content (.scalar .double s), t)
    else if Plain.begins flow c cs then
      (Plain.scan flow least here).map fun (s, lines, t) => (.plain s lines, t)
    else none

theorem ite_eq_bind {α β : Type} {p : Prop} [Decidable p] {a b : Option β} {x y : Option α}
    {f : α → Option β} (ha : a = x.bind f) (hb : b = y.bind f) :
    (if p then a else b) = (if p then x else y).bind f := by
  split
  · exact ha
  · exact hb

theorem next_eq (o : Outline) (m : Mark) (c : Char) (cs : List Char) : o.next m c cs =
    (piece? o.inFlow o.least m c cs).bind fun (p, t) => (p.take o m).map fun o' => (o', t) := by
  have hscan {α : Type} (p : α → Piece) (r : Option (α × Tail)) :
      (r.bind fun (a, t) => ((p a).take o m).bind fun o' => some (o', t)) =
      (r.map fun (a, t) => (p a, t)).bind fun (p, t) => (p.take o m).map fun o' => (o', t) := by
    cases r with
    | none => rfl
    | some r => exact Option.map_eq_bind.symm
  rw [next, piece?]
  refine ite_eq_bind ?_ ?_
  · rcases Directive.read? ⟨m.past c, cs⟩ with _ | ⟨x, t⟩
    · rfl
    cases hrest : Block.restOfLine t with
    | none => simp [hrest]
    | some t' =>
      simp only [Option.bind_eq_bind, Option.bind_some, hrest]
      exact Option.map_eq_bind.symm
  cases boundary? m (c :: cs) with
  | some b => rfl
  | none =>
    refine ite_eq_bind rfl <| ite_eq_bind rfl <| ite_eq_bind rfl <| ite_eq_bind rfl <|
      ite_eq_bind rfl <| ite_eq_bind rfl <| ite_eq_bind rfl <| ite_eq_bind rfl <|
      ite_eq_bind ?_ <| ite_eq_bind ?_ <| ite_eq_bind ?_ <| ite_eq_bind ?_ <| ite_eq_bind ?_ <|
      ite_eq_bind ?_ <| ite_eq_bind ?_ rfl
    · exact hscan (fun name => .content (.reference name)) _
    · exact hscan (fun name => .content (.anchor name)) _
    · exact hscan .content _
    · exact hscan (fun s => .blockScalar (.scalar (if c = '>' then .folded else .literal) s)) _
    · exact hscan (fun s => .content (.scalar .single s)) _
    · exact hscan (fun s => .content (.scalar .double s)) _
    · rcases Plain.scan o.inFlow o.least ⟨m, c :: cs⟩ with _ | ⟨s, lines, t⟩
      · rfl
      · cases h : o.content m (.scalar .plain s) with
        | none => simp [h, Piece.take]
        | some o' => simp [h, Piece.take]

/-! ## The end of the text -/

theorem ne_streamEnd_of_directive {t t' : Tail} {x : Lexeme} (h : Directive.read? t = some (x, t')) :
    x ≠ .streamEnd := by
  rw [Directive.read?] at h
  dsimp only at h
  split_ifs at h
  · obtain ⟨major, -, h⟩ := Option.bind_eq_some_iff.1 h
    obtain ⟨u, -, h⟩ := Option.bind_eq_some_iff.1 h
    obtain ⟨minor, -, h⟩ := Option.bind_eq_some_iff.1 h
    cases h
    rintro ⟨⟩
  · obtain ⟨⟨handle, u⟩, -, h⟩ := Option.bind_eq_some_iff.1 h
    dsimp only at h
    split_ifs at h
    obtain ⟨⟨expansion, v⟩, -, h⟩ := Option.bind_eq_some_iff.1 h
    dsimp only at h
    split_ifs at h
    cases h
    rintro ⟨⟩

theorem ne_streamEnd_of_tag {flow : Bool} {t t' : Tail} {x : Lexeme}
    (h : Tag.read? flow t = some (x, t')) : x ≠ .streamEnd := by
  obtain ⟨⟨tag, u⟩, hform, h⟩ := Option.bind_eq_some_iff.1 h
  dsimp only at h
  split_ifs at h
  cases h
  rw [Tag.form?] at hform
  split at hform
  · obtain ⟨r, -, hform⟩ := Option.bind_eq_some_iff.1 hform
    dsimp only at hform
    split_ifs at hform
    obtain ⟨v, -, hform⟩ := Option.bind_eq_some_iff.1 hform
    cases hform
    rintro ⟨⟩
  · obtain ⟨handle, -, hform⟩ := Option.bind_eq_some_iff.1 hform
    obtain ⟨suffix, -, hform⟩ := Option.bind_eq_some_iff.1 hform
    dsimp only at hform
    split_ifs at hform
    · cases hform
      rintro ⟨⟩
    · cases hform
      rintro ⟨⟩
    · cases hform
      rintro ⟨⟩

/-- If a piece is read, it is not the end of the text. -/
def Goes (r : Option (Piece × Tail)) : Prop :=
  ∀ p t, r = some (p, t) → p.lexeme ≠ .streamEnd

namespace Goes

theorem some {p : Piece} {t : Tail} (hp : p.lexeme ≠ .streamEnd) : Goes (some (p, t)) := by
  intro _ _ h
  cases h
  exact hp

theorem map {α : Type} (f : α → Piece) {r : Option (α × Tail)}
    (hf : ∀ a t, r = .some (a, t) → (f a).lexeme ≠ .streamEnd) :
    Goes (r.map fun (a, t) => (f a, t)) := by
  intro p t h
  obtain ⟨⟨a, t'⟩, hr, h⟩ := Option.map_eq_some_iff.1 h
  cases h
  exact hf a t hr

theorem ite {c : Prop} [Decidable c] {r r' : Option (Piece × Tail)} (h : Goes r) (h' : Goes r') :
    Goes (if c then r else r') := by
  split
  · exact h
  · exact h'

end Goes

theorem goes_piece? (flow : Bool) (least : Nat) (m : Mark) (c : Char) (cs : List Char) :
    Goes (piece? flow least m c cs) := by
  rw [piece?]
  refine .ite ?_ ?_
  · intro p t h
    obtain ⟨⟨x, u⟩, hread, h⟩ := Option.bind_eq_some_iff.1 h
    obtain ⟨u', -, h⟩ := Option.bind_eq_some_iff.1 h
    cases h
    exact ne_streamEnd_of_directive hread
  cases boundary? m (c :: cs) with
  | some b => exact .some (by rintro ⟨⟩)
  | none =>
    refine .ite (.some (by rintro ⟨⟩)) <| .ite (.some (by rintro ⟨⟩)) <| .ite (.some (by rintro ⟨⟩)) <|
      .ite (.some (by rintro ⟨⟩)) <| .ite (.some (by rintro ⟨⟩)) <| .ite (.some (by rintro ⟨⟩)) <|
      .ite (.some (by rintro ⟨⟩)) <| .ite (.some (by rintro ⟨⟩)) <| .ite ?_ <| .ite ?_ <| .ite ?_ <|
      .ite ?_ <| .ite ?_ <| .ite ?_ <| .ite ?_ ?_
    · exact .map (fun name => .content (.reference name)) (by rintro _ _ - ⟨⟩)
    · exact .map (fun name => .content (.anchor name)) (by rintro _ _ - ⟨⟩)
    · exact .map .content fun x t h => ne_streamEnd_of_tag h
    · exact .map (fun s => .blockScalar (.scalar _ s)) (by rintro _ _ - ⟨⟩)
    · exact .map (fun s => .content (.scalar .single s)) (by rintro _ _ - ⟨⟩)
    · exact .map (fun s => .content (.scalar .double s)) (by rintro _ _ - ⟨⟩)
    · intro p t h
      obtain ⟨⟨s, lines, t'⟩, -, h⟩ := Option.map_eq_some_iff.1 h
      cases h
      rintro ⟨⟩
    · rintro _ _ ⟨⟩

theorem grows_next {c : Char} {cs : List Char} {t : Tail} (h : o.next m c cs = some (o', t)) :
    o.Grows o' := by
  rw [next_eq] at h
  obtain ⟨⟨p, u⟩, hpiece, h⟩ := Option.bind_eq_some_iff.1 h
  obtain ⟨o₁, htake, h⟩ := Option.map_eq_some_iff.1 h
  cases h
  exact p.grows_take (goes_piece? _ _ _ _ _ _ _ hpiece) htake

/-- The outline where the next piece starts, with what is left of the text there. -/
def ahead (o : Outline) (t : Tail) : Option (Outline × Tail) :=
  let (keyAllowed, t) := skipGap o.inFlow o.keyAllowed false t.mark t.chars
  ((o.allowKey keyAllowed).expire t.mark).map fun o =>
    (o.endBlocks t.mark fun i => t.mark.column < i, t)

/-- The rounds of reading: the last one finds the end of the text, and any other a piece. -/
inductive Round (fuel : Nat) (ts : List Token) (o : Outline) : Tail → Prop
  | last {t : Tail} : t.chars = [] → o.finish t.mark = some ts → Round fuel ts o t
  | piece {t t' : Tail} {c : Char} {cs : List Char} {o' : Outline} : t.chars = c :: cs →
      o.next t.mark c cs = some (o', t') → o'.read fuel t' = some ts → Round fuel ts o t

theorem round_of_read {fuel : Nat} {t : Tail} {ts : List Token} (h : o.read (fuel + 1) t = some ts) :
    ∃ o₁ u, o.ahead t = some (o₁, u) ∧ Round fuel ts o₁ u := by
  obtain ⟨o₁, hexpire, h⟩ := Option.bind_eq_some_iff.1 h
  refine ⟨_, _, Option.map_eq_some_iff.2 ⟨o₁, hexpire, rfl⟩, ?_⟩
  dsimp only at h
  split at h
  · next hend => exact .last hend h
  · next c cs hchars =>
    obtain ⟨⟨o', t'⟩, hnext, hread⟩ := Option.bind_eq_some_iff.1 h
    exact .piece hchars hnext hread

theorem grows_ahead {t u : Tail} (h : o.ahead t = some (o', u)) : o.Grows o' := by
  obtain ⟨o₁, hexpire, h⟩ := Option.map_eq_some_iff.1 h
  cases h
  exact (((Grows.refl o).allowKey _).expire hexpire).endBlocks _ _

/-- The tokens at the end are those of an outline, which all the outlines before have grown to. -/
theorem grows_read {fuel : Nat} {t : Tail} {ts : List Token} (h : o.read fuel t = some ts) :
    ∃ o' m, o.Grows o' ∧ ts = (⟨m, .streamEnd⟩ :: o'.tokens).reverse := by
  induction fuel generalizing o t with
  | zero => cases h
  | succ fuel ih =>
    obtain ⟨o₁, u, hahead, hround⟩ := round_of_read h
    have hgrows := grows_ahead hahead
    cases hround with
    | last _ hfinish =>
      obtain ⟨o₂, hdrop, hfinish⟩ := Option.bind_eq_some_iff.1 hfinish
      cases hfinish
      exact ⟨o₂, _, (hgrows.endBlocks _ _).dropCandidate hdrop, rfl⟩
    | piece _ hnext hread =>
      obtain ⟨o₂, m, hgrows', rfl⟩ := ih hread
      exact ⟨o₂, m, (hgrows.trans (grows_next hnext)).trans hgrows', rfl⟩

end SiteNav.Yaml.Outline
