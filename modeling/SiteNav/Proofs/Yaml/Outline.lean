import SiteNav.Proofs.Yaml.Scalar.Block
import SiteNav.Proofs.Yaml.Scalar.Plain
import SiteNav.Proofs.Yaml.Scalar.Quoted

/-!
# Tokens of written lines

Between the lines of a written text nothing is pending: no key may have started, no bracket is open.
From there the tokens that are still to come depend on nothing but the columns of the open blocks and
the text that is left, so they are stated without those before them, and each rule below puts the
tokens of a sign, a key or a scalar in front of those of what follows it.
-/
namespace SiteNav.Yaml
open Written (spaces isPrintable)

/-- An outline with these tokens, latest first, and open blocks, and nothing pending. -/
def Outline.ready (tokens : List Token) (indents : List Nat) (allowed : Bool) : Outline :=
  ⟨tokens, indents, none, [], allowed⟩

/-- What is left of a text is read as these lexemes, below blocks at these columns. -/
def Reads (allowed : Bool) (indents : List Nat) (t : Tail) (later : List Lexeme) : Prop :=
  ∀ tokens fuel, t.chars.length < fuel → ∃ new,
    (Outline.ready tokens indents allowed).read fuel t = some (tokens.reverse ++ new) ∧
      new.map (·.lexeme) = later

namespace Outline
variable {tokens : List Token} {indents : List Nat} {allowed : Bool} {m : Mark} {c : Char}
  {cs : List Char}

theorem endBlocks_eq_self {o : Outline} (h : ∀ i ∈ o.indents.head?, i ≤ m.column) :
    o.endBlocks m (fun i => m.column < i) = o := by
  rw [endBlocks]
  split
  · rfl
  · have hnone : o.indents.takeWhile (fun i => decide (m.column < i)) = [] := by
      cases hindents : o.indents with
      | nil => rfl
      | cons i is =>
        have hi := h i (by simp [hindents])
        rw [List.takeWhile_cons_of_neg]
        simpa using hi
    simp [hnone]

/-- One round, at a character that ends no block. -/
theorem read_succ {o : Outline} {t : Tail} (fuel : Nat) (houter : o.outer = [])
    (hlive : Candidate.live? m o.candidate = some o.candidate)
    (hgap : skipGap false o.keyAllowed false t.mark t.chars = (allowed, ⟨m, c :: cs⟩))
    (hindents : ∀ i ∈ o.indents.head?, i ≤ m.column) :
    o.read (fuel + 1) t =
      ((o.allowKey allowed).next m c cs).bind fun r => r.1.read fuel r.2 := by
  have hflow : o.inFlow = false := by simp [inFlow, houter]
  have hexpire : (o.allowKey allowed).expire m = some (o.allowKey allowed) := by
    simp [expire, allowKey, hlive, houter]
  have hblocks : (o.allowKey allowed).endBlocks m (fun i => m.column < i) = o.allowKey allowed :=
    endBlocks_eq_self hindents
  rw [read, hflow, hgap]
  simp only [hexpire, Option.bind_eq_bind, Option.bind_some, hblocks]

/-- What is left of a round once the gap is behind and blocks have ended. -/
def resume (fuel : Nat) (o : Outline) (t : Tail) : Option (List Token) :=
  match t.chars with
  | [] => o.finish t.mark
  | c :: cs => (o.next t.mark c cs).bind fun r => r.1.read fuel r.2

theorem read_ready {allowed' : Bool} {t t' : Tail} (fuel : Nat)
    (hgap : skipGap false allowed false t.mark t.chars = (allowed', t')) :
    (ready tokens indents allowed).read (fuel + 1) t =
      ((ready tokens indents allowed').endBlocks t'.mark fun i => t'.mark.column < i).resume fuel
        t' := by
  have hflow : (ready tokens indents allowed).inFlow = false := rfl
  have hallowed : (ready tokens indents allowed).keyAllowed = allowed := rfl
  have hexpire : ((ready tokens indents allowed).allowKey allowed').expire t'.mark =
      some (ready tokens indents allowed') := rfl
  rw [read, hflow, hallowed, hgap]
  simp only [hexpire, Option.bind_eq_bind, Option.bind_some]
  rfl

theorem content_ready (x : Lexeme) : (ready tokens indents false).content m x =
    some (ready (⟨m, x⟩ :: tokens) indents false) := rfl

theorem blockScalar_ready (x : Lexeme) : (ready tokens indents false).blockScalar m x =
    some (ready (⟨m, x⟩ :: tokens) indents true) := rfl

theorem dash_ready : (ready tokens (m.column :: indents) true).dash m =
    some (ready (⟨m, .dash⟩ :: tokens) (m.column :: indents) true) := by
  have hblock : (ready tokens (m.column :: indents) true).beginBlock m
      (ready tokens (m.column :: indents) true).tokens.length .blockList =
        ready tokens (m.column :: indents) true := by
    simp [beginBlock, ready, least]
  rw [dash, if_neg (by simp [ready, inFlow]), hblock]
  rfl

end Outline

section Rules
variable {allowed allowed' : Bool} {indents : List Nat} {t t' : Tail} {later : List Lexeme}

/-- A word starts here, or the text ends. -/
def Tail.AtWord (t : Tail) : Prop :=
  t.chars = [] ∨ ∃ c cs, t.chars = c :: cs ∧ StartsWord c

theorem Tail.AtWord.skipGap (h : t.AtWord) (allowed : Bool) :
    Outline.skipGap false allowed false t.mark t.chars = (allowed, t) := by
  rcases h with hnil | ⟨c, cs, hcons, hc⟩
  · rw [hnil, Outline.skipGap, ← hnil]
  · rw [hcons, skipGap_word hc, ← hcons]

theorem Follows.atWord {column : Nat} {rest : List Char} (h : Follows column rest) (line : Nat) :
    (Tail.ofLine line rest).AtWord := by
  rcases h with rfl | ⟨n, c, cs, _, rfl, hc⟩
  · exact .inl rfl
  · rw [Tail.ofLine_spaces _ _ hc.ne_space]
    exact .inr ⟨c, cs, rfl, hc⟩

theorem Follows.column_ofLine_le {column : Nat} {rest : List Char} (h : Follows column rest)
    (line : Nat) : (Tail.ofLine line rest).mark.column ≤ column := by
  rcases h with rfl | ⟨n, c, cs, hn, rfl, hc⟩
  · exact Nat.zero_le _
  · rw [Tail.ofLine_spaces _ _ hc.ne_space]
    exact hn

/-- A gap has no tokens. -/
theorem Reads.of_skipGap (h : Reads allowed' indents t' later)
    (hgap : Outline.skipGap false allowed false t.mark t.chars = (allowed', t')) (ht : t'.AtWord)
    (hlength : t'.chars.length ≤ t.chars.length) : Reads allowed indents t later := by
  intro tokens fuel hfuel
  obtain ⟨f, rfl⟩ : ∃ f, fuel = f + 1 := ⟨fuel - 1, by omega⟩
  obtain ⟨new, hread, hnew⟩ := h tokens (f + 1) (by omega)
  refine ⟨new, ?_, hnew⟩
  rw [← hread, Outline.read_ready f hgap, Outline.read_ready f (ht.skipGap allowed')]

/-- At the end of a line a key may start. -/
theorem Reads.newline {column : Nat} {rest : List Char} {m : Mark}
    (h : Reads true indents (Tail.ofLine (m.line + 1) rest) later) (hrest : Follows column rest) :
    Reads allowed indents ⟨m, '\n' :: rest⟩ later :=
  h.of_skipGap (skipGap_line hrest) (hrest.atWord _)
    (Nat.le_succ_of_le (Tail.length_ofLine_le _ _))

/-- The end of a block shows at what follows it. -/
theorem Reads.endBlock {i : Nat} (h : Reads allowed indents t later) (ht : t.AtWord)
    (hless : t.mark.column < i) : Reads allowed (i :: indents) t (.blockEnd :: later) := by
  intro tokens fuel hfuel
  obtain ⟨f, rfl⟩ : ∃ f, fuel = f + 1 := ⟨fuel - 1, by omega⟩
  obtain ⟨new, hread, hnew⟩ := h (⟨t.mark, .blockEnd⟩ :: tokens) (f + 1) hfuel
  refine ⟨⟨t.mark, .blockEnd⟩ :: new, ?_, by simp [hnew]⟩
  have hend : (Outline.ready tokens (i :: indents) allowed).endBlocks t.mark
      (fun i => t.mark.column < i) =
        (Outline.ready (⟨t.mark, .blockEnd⟩ :: tokens) indents allowed).endBlocks t.mark
          (fun i => t.mark.column < i) := by
    simp [Outline.endBlocks, Outline.ready, Outline.inFlow, hless, List.map_const',
      ← List.replicate_succ, List.replicate_succ']
  rw [List.append_cons, ← List.reverse_cons, ← hread, Outline.read_ready f (ht.skipGap allowed),
    Outline.read_ready f (ht.skipGap allowed), hend]

/-- The end of the text ends the outermost block. -/
theorem Reads.finish (line : Nat) :
    Reads true [0] ⟨⟨line, 0⟩, []⟩ [.blockEnd, .streamEnd] := by
  intro tokens fuel hfuel
  obtain ⟨f, rfl⟩ : ∃ f, fuel = f + 1 := ⟨fuel - 1, by omega⟩
  refine ⟨[⟨⟨line, 0⟩, .blockEnd⟩, ⟨⟨line, 0⟩, .streamEnd⟩], ?_, rfl⟩
  have hgap : Outline.skipGap false true false ⟨line, 0⟩ [] = (true, ⟨⟨line, 0⟩, []⟩) := rfl
  rw [Outline.read_ready f hgap]
  simp [Outline.resume, Outline.finish, Outline.endBlocks, Outline.ready, Outline.inFlow,
    Outline.dropCandidate, Outline.emit]

/-- One token that leaves nothing pending. -/
theorem Reads.of_next {between : Bool} {m : Mark} {c : Char} {cs : List Char} {x : Lexeme}
    (h : Reads allowed' indents t' later)
    (hgap : Outline.skipGap false allowed false t.mark t.chars = (between, ⟨m, c :: cs⟩))
    (hlength : t'.chars.length < t.chars.length) (hindents : ∀ i ∈ indents.head?, i ≤ m.column)
    (hnext : ∀ tokens, (Outline.ready tokens indents between).next m c cs =
      some (Outline.ready (⟨m, x⟩ :: tokens) indents allowed', t')) :
    Reads allowed indents t (x :: later) := by
  intro tokens fuel hfuel
  obtain ⟨f, rfl⟩ : ∃ f, fuel = f + 1 := ⟨fuel - 1, by omega⟩
  obtain ⟨new, hread, hnew⟩ := h (⟨m, x⟩ :: tokens) f (by omega)
  refine ⟨⟨m, x⟩ :: new, ?_, by simp [hnew]⟩
  have hround := Outline.read_succ f (o := Outline.ready tokens indents allowed) rfl rfl hgap hindents
  have hallow : (Outline.ready tokens indents allowed).allowKey between =
      Outline.ready tokens indents between := rfl
  rw [hround, hallow, hnext, Option.bind_some, hread]
  simp

end Rules

namespace Outline
variable {tokens : List Token} {indents : List Nat} {m : Mark} {c : Char} {cs : List Char}

theorem inFlow_ready {allowed : Bool} : (ready tokens indents allowed).inFlow = false := rfl

theorem boundary?_of_ne (hdash : c ≠ '-') (hdot : c ≠ '.') : boundary? m (c :: cs) = none := by
  unfold boundary?
  split
  · rfl
  · split <;> simp_all

theorem next_dash : (ready tokens (m.column :: indents) true).next m '-' (' ' :: cs) =
    some (ready (⟨m, .dash⟩ :: tokens) (m.column :: indents) true, ⟨m.past '-', ' ' :: cs⟩) := by
  have hboundary : boundary? m ('-' :: ' ' :: cs) = none := by
    unfold boundary?
    split
    · rfl
    · split <;> simp_all
  have hgap : atGap (' ' :: cs) = true := rfl
  simp [next, hboundary, hgap, dash_ready]

theorem next_single {s : String} {t : Tail} (hm : 0 < m.column)
    (h : Quoted.single ⟨m.past '\'', cs⟩ = some (s, t)) :
    (ready tokens indents false).next m '\'' cs =
      some (ready (⟨m, .scalar .single s⟩ :: tokens) indents false, t) := by
  simp [next, boundary?_of_column hm, content_ready, h]

theorem next_double {s : String} {t : Tail} (hm : 0 < m.column)
    (h : Quoted.double ⟨m.past '"', cs⟩ = some (s, t)) :
    (ready tokens indents false).next m '"' cs =
      some (ready (⟨m, .scalar .double s⟩ :: tokens) indents false, t) := by
  simp [next, boundary?_of_column hm, content_ready, h]

theorem next_literal {s : String} {t : Tail} (hm : 0 < m.column)
    (h : Block.scan false (ready tokens indents false).least ⟨m.past '|', cs⟩ = some (s, t)) :
    (ready tokens indents false).next m '|' cs =
      some (ready (⟨m, .scalar .literal s⟩ :: tokens) indents true, t) := by
  simp [next, boundary?_of_column hm, blockScalar_ready, h, inFlow_ready]

/-- A word begins with a sign only if it goes on right after it. -/
theorem of_beginsWithSign (h : Written.beginsWithSign (c :: cs) = false) :
    Plain.isSign c = false ∨ (c = '?' ∨ c = ':' ∨ c = '-') ∧ Written.beforeGap cs = false := by
  unfold Written.beginsWithSign at h
  split at h
  · cases h
  · cases h
  · next d ds _ _ heq =>
    obtain ⟨rfl, rfl⟩ := List.cons.inj heq
    split at h
    · next hsign =>
      exact .inr ⟨by simpa [or_assoc] using hsign, h⟩
    · next hsign =>
      simp only [Bool.or_eq_true, beq_iff_eq, not_or] at hsign
      simp only [Bool.or_eq_false_iff, beq_eq_false_iff_ne] at h
      simp_all [Plain.isSign, Plain.isFlowSign]
  · next heq => cases heq

theorem atGap_append (rest : List Char) (h : Written.beforeGap cs = false)
    (hcs : ∀ x ∈ cs, isPrintable x = true) :
    atGap (cs ++ rest) = false ∧ ((cs ++ rest).head?.map isBlank).getD false = false := by
  cases cs with
  | nil => cases h
  | cons d cs =>
    rw [Written.beforeGap, isGap_eq_of_isPrintable (hcs d (by simp)), Bool.or_eq_false_iff] at h
    simp [atGap, h.1, h.2]

theorem begins_of_beginsWithSign (rest : List Char) (h : Written.beginsWithSign (c :: cs) = false)
    (hword : StartsWord c) (hcs : ∀ x ∈ cs, isPrintable x = true) :
    Plain.begins false c (cs ++ rest) = true := by
  rcases of_beginsWithSign h with hsign | ⟨hc, hgap⟩
  · have hne (x : Char) (hx : Plain.isSign x = true) : (c == x) = false :=
      beq_false_of_ne (by rintro rfl; rw [hx] at hsign; cases hsign)
    simp [Plain.begins, hne '-' rfl, hne '?' rfl, hne ':' rfl, hsign, hword.1, hword.2.1]
  · obtain ⟨hat, hblank⟩ := atGap_append rest hgap hcs
    rcases hc with rfl | rfl | rfl
    · simp [Plain.begins, hat]
    · simp [Plain.begins, hat]
    · simp only [Plain.begins, hblank, beq_self_eq_true, if_true, Bool.not_false]

/-- A character that begins no sign begins a plain scalar. -/
theorem next_plain {o o' : Outline} {s : String} {lines : Bool} {t : Tail} {rest : List Char}
    (hflow : o.inFlow = false) (hsign : Written.beginsWithSign (c :: cs) = false)
    (hword : StartsWord c) (hcs : ∀ x ∈ cs, isPrintable x = true)
    (hboundary : boundary? m (c :: (cs ++ rest)) = none)
    (h : Plain.scan false o.least ⟨m, c :: (cs ++ rest)⟩ = some (s, lines, t))
    (hcontent : o.content m (.scalar .plain s) = some o') :
    o.next m c (cs ++ rest) = some (o'.allowKey lines, t) := by
  have hbegins := begins_of_beginsWithSign rest hsign hword hcs
  rcases of_beginsWithSign hsign with hsign | ⟨hc, hgap⟩
  · have hne (x : Char) (hx : Plain.isSign x = true) : c ≠ x := by
      rintro rfl
      rw [hx] at hsign
      cases hsign
    simp [next, hboundary, hflow, hbegins, h, hcontent, hne '%' rfl, hne '[' rfl, hne '{' rfl,
      hne ']' rfl, hne '}' rfl, hne ',' rfl, hne '-' rfl, hne '?' rfl, hne ':' rfl, hne '*' rfl, hne '&' rfl,
      hne '!' rfl, hne '|' rfl, hne '>' rfl, hne '\'' rfl, hne '"' rfl]
  · have hat := (atGap_append rest hgap hcs).1
    rcases hc with rfl | rfl | rfl <;> simp [next, hboundary, hflow, hbegins, hat, h, hcontent]

theorem next_value {o o' : Outline} (hcs : atGap cs = true) (h : o.value m = some o') :
    o.next m ':' cs = some (o', ⟨m.past ':', cs⟩) := by
  simp [next, boundary?_of_ne, hcs, h]

end Outline

/-- Below the open blocks a map entry at some column belongs to the innermost one or begins another. -/
inductive EntersMap (column : Nat) : List Nat → List Nat → List Lexeme → Prop
  | inside (is : List Nat) : EntersMap column (column :: is) (column :: is) []
  | first (is : List Nat) (h : ∀ i ∈ is.head?, i < column) :
    EntersMap column is (column :: is) [.blockMap]

theorem EntersMap.head_le {column : Nat} {indents indents' : List Nat} {xs : List Lexeme}
    (h : EntersMap column indents indents' xs) : ∀ i ∈ indents.head?, i ≤ column := by
  cases h with
  | inside is => simp
  | first is h => exact fun i hi => Nat.le_of_lt (h i hi)

/-- What was read last may be a key. -/
def Outline.maybeKey (tokens : List Token) (indents : List Nat) (k : Token) : Outline :=
  ⟨k :: tokens, indents, some ((ready tokens indents true).candidateAt k.mark), [], false⟩

theorem Outline.value_maybeKey {m m' : Mark} {indents indents' : List Nat} {xs : List Lexeme}
    (hmap : EntersMap m.column indents indents' xs) (tokens : List Token) (x : Lexeme) :
    (maybeKey tokens indents ⟨m, x⟩).value m' =
      some (ready (⟨m', .value⟩ :: ⟨m, x⟩ :: ⟨m, .key⟩ :: (xs.map (⟨m, ·⟩) ++ tokens)) indents'
        false) := by
  cases hmap with
  | inside is => simp [maybeKey, candidateAt, value, insert, beginBlock, least, ready, allowKey, emit]
  | first is h =>
    have hlater : tokens.length + 1 + 1 - tokens.length = 2 := by omega
    cases indents with
    | nil =>
      simp [maybeKey, candidateAt, value, insert, beginBlock, inFlow, least, ready, allowKey, emit,
        hlater]
    | cons i is =>
      have hi : ¬ m.column < i + 1 := by
        have hless := h i (by simp)
        omega
      simp [maybeKey, candidateAt, value, insert, beginBlock, inFlow, least, ready, allowKey, emit,
        hi, hlater]

section Keys

def isLetter (c : Char) : Bool :=
  ('a' ≤ c && c ≤ 'z') || ('A' ≤ c && c ≤ 'Z')

/-- A word of letters that is short enough for a key. -/
structure IsKey (k : String) : Prop where
  ne_nil : k.toList ≠ []
  letters : ∀ c ∈ k.toList, isLetter c = true
  length_le : k.toList.length ≤ 1024

instance (k : String) : Decidable (IsKey k) :=
  decidable_of_iff (k.toList.isEmpty = false ∧ k.toList.all isLetter = true ∧ k.toList.length ≤ 1024)
    ⟨fun h => ⟨List.isEmpty_eq_false_iff.1 h.1, List.all_eq_true.1 h.2.1, h.2.2⟩,
      fun h => ⟨List.isEmpty_eq_false_iff.2 h.ne_nil, List.all_eq_true.2 h.letters, h.length_le⟩⟩

variable {c : Char}

theorem ne_of_isLetter {x : Char} (hc : isLetter c = true) (hx : isLetter x = false) : c ≠ x := by
  rintro rfl
  rw [hc] at hx
  cases hx

theorem startsWord_of_isLetter (hc : isLetter c = true) : StartsWord c := by
  have hne (x : Char) (hx : isLetter x = false) : (c == x) = false :=
    beq_false_of_ne (ne_of_isLetter hc hx)
  refine ⟨?_, ?_, ne_of_isLetter hc rfl, ne_of_isLetter hc rfl⟩
  · simp [isBlank, hne ' ' rfl, hne '\t' rfl]
  · simp [isBreak, hne '\n' rfl, hne '\u2028' rfl, hne '\u2029' rfl]

theorem isPrintable_of_isLetter (hc : isLetter c = true) : isPrintable c = true := by
  have hletter : ('a' ≤ c ∧ c ≤ 'z') ∨ ('A' ≤ c ∧ c ≤ 'Z') := by simpa [isLetter] using hc
  have hcode : (97 ≤ c.toNat ∧ c.toNat ≤ 122) ∨ (65 ≤ c.toNat ∧ c.toNat ≤ 90) := hletter
  simp only [isPrintable, Bool.or_eq_true, Bool.and_eq_true, beq_iff_eq, decide_eq_true_eq]
  omega

theorem beginsWithSign_of_isLetter (hc : isLetter c = true) (cs : List Char) :
    Written.beginsWithSign (c :: cs) = false := by
  have hne (x : Char) (hx : isLetter x = false) : (c == x) = false :=
    beq_false_of_ne (ne_of_isLetter hc hx)
  unfold Written.beginsWithSign
  split
  · next heq => exact absurd (List.cons.inj heq).1 (ne_of_isLetter hc rfl)
  · next heq => exact absurd (List.cons.inj heq).1 (ne_of_isLetter hc rfl)
  · next heq =>
    obtain ⟨rfl, rfl⟩ := List.cons.inj heq
    simp [hne '?' rfl, hne ':' rfl, hne '-' rfl, hne '#' rfl, hne ',' rfl, hne '[' rfl, hne ']' rfl,
      hne '{' rfl, hne '}' rfl, hne '&' rfl, hne '*' rfl, hne '!' rfl, hne '|' rfl, hne '>' rfl,
      hne '\'' rfl, hne '"' rfl, hne '%' rfl, hne '@' rfl, hne '\x60' rfl]
  · next heq => cases heq

section
variable {m : Mark} {tokens : List Token} {indents indents' : List Nat} {k : String}
  {rest : List Char} {xs later : List Lexeme}

theorem Outline.read_word (hk : IsKey k) (hindents : ∀ i ∈ indents.head?, i ≤ m.column)
    (hrest : atGap rest = true) (fuel : Nat) :
    (ready tokens indents true).read (fuel + 1) ⟨m, k.toList ++ ':' :: rest⟩ =
      (maybeKey tokens indents ⟨m, .scalar .plain k⟩).read fuel
        ⟨⟨m.line, m.column + k.toList.length⟩, ':' :: rest⟩ := by
  have hscan : Plain.scan false (ready tokens indents true).least ⟨m, k.toList ++ ':' :: rest⟩ =
      some (k, false, ⟨⟨m.line, m.column + k.toList.length⟩, ':' :: rest⟩) := by
    rw [Plain.scan_key (fun x hx => ⟨startsWord_of_isLetter (hk.letters x hx),
      ne_of_isLetter (hk.letters x hx) rfl⟩) hrest, String.ofList_toList]
  obtain ⟨c, cs, hcs⟩ := List.exists_cons_of_ne_nil hk.ne_nil
  have hc := hk.letters c (by simp [hcs])
  have hprintable : ∀ x ∈ cs, isPrintable x = true := fun x hx =>
    isPrintable_of_isLetter (hk.letters x (by simp [hcs, hx]))
  have hcontent : (ready tokens indents true).content m (.scalar .plain k) =
      some (maybeKey tokens indents ⟨m, .scalar .plain k⟩) := rfl
  rw [hcs, List.cons_append, ← hcs] at hscan ⊢
  have hnext := next_plain rfl (beginsWithSign_of_isLetter hc cs) (startsWord_of_isLetter hc)
    hprintable (boundary?_of_ne (ne_of_isLetter hc rfl) (ne_of_isLetter hc rfl)) hscan hcontent
  have hallow : (ready tokens indents true).allowKey true = ready tokens indents true := rfl
  rw [read_succ fuel rfl rfl (skipGap_word (startsWord_of_isLetter hc) _) hindents]
  change (((ready tokens indents true).allowKey true).next m c (cs ++ ':' :: rest)).bind _ = _
  rw [hallow, hnext]
  rfl

theorem Outline.read_colon (hmap : EntersMap m.column indents indents' xs) (hrest : atGap rest = true)
    {n : Nat} (hn : n ≤ 1024) (x : Lexeme) (fuel : Nat) :
    (maybeKey tokens indents ⟨m, x⟩).read (fuel + 1) ⟨⟨m.line, m.column + n⟩, ':' :: rest⟩ =
      (ready (⟨⟨m.line, m.column + n⟩, .value⟩ :: ⟨m, x⟩ :: ⟨m, .key⟩ ::
        (xs.map (⟨m, ·⟩) ++ tokens)) indents' false).read fuel
          ⟨⟨m.line, m.column + n + 1⟩, rest⟩ := by
  have hcolon : StartsWord ':' := by decide
  have hlive : Candidate.live? ⟨m.line, m.column + n⟩ (maybeKey tokens indents ⟨m, x⟩).candidate =
      some (maybeKey tokens indents ⟨m, x⟩).candidate := by
    have hnear : ¬ (m.line < m.line ∨ m.column + 1024 < m.column + n) := by omega
    simp only [maybeKey, candidateAt, Candidate.live?, if_neg hnear]
  have hindents : ∀ i ∈ (maybeKey tokens indents ⟨m, x⟩).indents.head?, i ≤ m.column + n :=
    fun i hi => Nat.le_add_right_of_le (hmap.head_le i hi)
  have hallow : (maybeKey tokens indents ⟨m, x⟩).allowKey false =
      maybeKey tokens indents ⟨m, x⟩ := rfl
  rw [read_succ fuel rfl hlive (skipGap_word hcolon _) hindents]
  change (((maybeKey tokens indents ⟨m, x⟩).allowKey false).next _ ':' rest).bind _ = _
  rw [hallow, next_value hrest (value_maybeKey hmap tokens x)]
  rfl

/-- A key with its colon; it begins a map where none is open at its column. -/
theorem Reads.key (hk : IsKey k) (hmap : EntersMap m.column indents indents' xs)
    (hrest : atGap rest = true)
    (h : Reads false indents' ⟨⟨m.line, m.column + k.toList.length + 1⟩, rest⟩ later) :
    Reads true indents ⟨m, k.toList ++ ':' :: rest⟩
      (xs ++ .key :: .scalar .plain k :: .value :: later) := by
  intro tokens fuel hfuel
  obtain ⟨f, rfl⟩ : ∃ f, fuel = f + 2 := ⟨fuel - 2, by simp at hfuel; omega⟩
  have hlength : 0 < k.toList.length := List.length_pos_iff.2 hk.ne_nil
  obtain ⟨new, hread, hnew⟩ := h (⟨⟨m.line, m.column + k.toList.length⟩, .value⟩ ::
    ⟨m, .scalar .plain k⟩ :: ⟨m, .key⟩ :: (xs.map (⟨m, ·⟩) ++ tokens)) f
    (by simp at hfuel ⊢; omega)
  refine ⟨(xs.map (⟨m, ·⟩)).reverse ++ ⟨m, .key⟩ :: ⟨m, .scalar .plain k⟩ ::
    ⟨⟨m.line, m.column + k.toList.length⟩, .value⟩ :: new, ?_, ?_⟩
  · rw [Outline.read_word hk hmap.head_le hrest, Outline.read_colon hmap hrest hk.length_le, hread]
    simp
  · have hxs : xs.reverse = xs := by cases hmap <;> rfl
    simp [hnew, hxs, Function.comp_def]

end

end Keys

section Values
variable {column : Nat} {indents : List Nat} {m : Mark} {rest : List Char} {later : List Lexeme}

theorem skipGap_space {allowed : Bool} {c : Char} (hc : StartsWord c) (cs : List Char) :
    Outline.skipGap false allowed false m (' ' :: c :: cs) =
      (allowed, ⟨⟨m.line, m.column + 1⟩, c :: cs⟩) := by
  rw [← List.singleton_append]
  exact (skipGap_spaces 1 (c :: cs)).trans (skipGap_word hc cs)

/-- The dash before an element of a list that is not indented under its key. -/
theorem Reads.dash {line : Nat} {c : Char} {cs : List Char} (hc : StartsWord c)
    (h : Reads true (column :: indents) ⟨⟨line, column + 2⟩, c :: cs⟩ later) :
    Reads true (column :: indents) ⟨⟨line, column⟩, '-' :: ' ' :: c :: cs⟩ (.dash :: later) := by
  have hdash : StartsWord '-' := by decide
  have hspace : Reads true (column :: indents) ⟨⟨line, column + 1⟩, ' ' :: c :: cs⟩ later :=
    h.of_skipGap (skipGap_space hc cs) (.inr ⟨c, cs, rfl, hc⟩) (Nat.le_succ _)
  exact hspace.of_next (skipGap_word hdash _) (Nat.lt_succ_self _) (by simp) fun tokens =>
    Outline.next_dash (m := ⟨line, column⟩)

/-- A scalar between whose first character and the line of what follows a reader stops nowhere. -/
theorem Reads.scalar {allowed : Bool} {c : Char} {cs : List Char} {x : Lexeme} {t : Tail}
    (hc : StartsWord c) (hcolumn : column ≤ m.column)
    (hnext : ∀ tokens, (Outline.ready tokens (column :: indents) false).next
      ⟨m.line, m.column + 1⟩ c cs = some (Outline.ready (⟨⟨m.line, m.column + 1⟩, x⟩ :: tokens)
        (column :: indents) allowed, t))
    (ht : t.chars.length ≤ cs.length + 1) (h : Reads allowed (column :: indents) t later) :
    Reads false (column :: indents) ⟨m, ' ' :: c :: cs⟩ (x :: later) :=
  h.of_next (skipGap_space hc cs) (Nat.lt_succ_of_le ht)
    (by simpa using Nat.le_succ_of_le hcolumn) hnext

theorem Reads.plain {cs : List Char} (hcs : PlainText cs)
    (hcolumn : column ≤ m.column) (hrest : Follows column rest)
    (h : ∀ line, Reads true (column :: indents) (Tail.ofLine line rest) later) :
    Reads false (column :: indents) ⟨m, ' ' :: (cs ++ '\n' :: rest)⟩
      (.scalar .plain (String.ofList cs) :: later) := by
  have hscan := Plain.scan_line (m := ⟨m.line, m.column + 1⟩) hcs (Nat.succ_le_succ hcolumn) hrest
    (Nat.lt_succ_self column)
  obtain ⟨hne, hprintable, _, hgap, _, hsign, _⟩ := hcs
  obtain ⟨c, cs, rfl⟩ := List.exists_cons_of_ne_nil hne
  have hc := hprintable c (by simp)
  rw [Written.beforeGap, isGap_eq_of_isPrintable hc, Bool.or_eq_false_iff] at hgap
  have hword : StartsWord c := by
    refine ⟨hgap.1, hgap.2, ?_, ne_of_isPrintable hc rfl⟩
    rintro rfl
    exact absurd hsign (by simp [Written.beginsWithSign])
  have hlength := Tail.length_ofLine_le (m.line + 1) rest
  rw [List.cons_append] at hscan ⊢
  refine Reads.scalar hword hcolumn (fun tokens => ?_) ?_ (h (m.line + 1))
  · exact Outline.next_plain (o := Outline.ready tokens (column :: indents) false) rfl hsign hword
      (fun x hx => hprintable x (by simp [hx])) (boundary?_of_column (Nat.succ_pos _) _) hscan rfl
  · simp only [List.length_append, List.length_cons]
    omega

theorem Reads.single {cs : List Char} {indent : Nat} (hindent : 0 < indent)
    (hcs : SingleText cs) (hcolumn : column ≤ m.column) (hrest : Follows column rest)
    (h : ∀ line, Reads true (column :: indents) (Tail.ofLine line rest) later) :
    Reads false (column :: indents)
      ⟨m, ' ' :: '\'' :: (Written.singleFrom indent false cs ++ '\n' :: rest)⟩
      (.scalar .single (String.ofList cs) :: later) := by
  have hquote : StartsWord '\'' := by decide
  obtain ⟨m', hread⟩ := Quoted.exists_single (m := (⟨m.line, m.column + 1⟩ : Mark).past '\'') hindent
    ('\n' :: rest) (by simp) hcs (Nat.succ_pos _)
  have hrestLine : Reads false (column :: indents) ⟨m', '\n' :: rest⟩ later := (h _).newline hrest
  refine Reads.scalar hquote hcolumn (fun tokens => ?_) ?_ hrestLine
  · exact Outline.next_single (Nat.succ_pos _) hread
  · simp only [List.length_append, List.length_cons]
    omega

theorem Reads.double (cs : List Char) (hcolumn : column ≤ m.column) (hrest : Follows column rest)
    (h : ∀ line, Reads true (column :: indents) (Tail.ofLine line rest) later) :
    Reads false (column :: indents)
      ⟨m, ' ' :: '"' :: (cs.flatMap Written.escape ++ '"' :: '\n' :: rest)⟩
      (.scalar .double (String.ofList cs) :: later) := by
  have hquote : StartsWord '"' := by decide
  obtain ⟨m', hread⟩ := Quoted.exists_double (m := (⟨m.line, m.column + 1⟩ : Mark).past '"') cs
    (Nat.succ_pos _) ('\n' :: rest)
  have hrestLine : Reads false (column :: indents) ⟨m', '\n' :: rest⟩ later := (h _).newline hrest
  refine Reads.scalar hquote hcolumn (fun tokens => ?_) ?_ hrestLine
  · exact Outline.next_double (Nat.succ_pos _) hread
  · simp only [List.length_append, List.length_cons]
    omega

theorem Reads.of_scan {s : String} {written : List Char} {line : Nat} (hcolumn : column ≤ m.column)
    (hread : Block.scan false (column + 1) ⟨(⟨m.line, m.column + 1⟩ : Mark).past '|', written⟩ =
      some (s, Tail.ofLine line rest)) (hwritten : rest.length ≤ written.length)
    (h : ∀ line, Reads true (column :: indents) (Tail.ofLine line rest) later) :
    Reads false (column :: indents) ⟨m, ' ' :: '|' :: written⟩ (.scalar .literal s :: later) := by
  have hbar : StartsWord '|' := by decide
  have hlength := Tail.length_ofLine_le line rest
  refine Reads.scalar hbar hcolumn (fun tokens => ?_) ?_ (h line)
  · exact Outline.next_literal (Nat.succ_pos _) hread
  · omega

theorem Reads.literal {cs : List Char} (hcs : LiteralText cs)
    (hcolumn : column ≤ m.column) (hrest : Follows column rest)
    (h : ∀ line, Reads true (column :: indents) (Tail.ofLine line rest) later) :
    Reads false (column :: indents) ⟨m, ' ' :: (Written.literalHeader cs ++ '\n' ::
      (Written.literalFrom (column + 2) true cs ++
        ((if Written.endsIn Written.isBreak cs then [] else ['\n']) ++ rest)))⟩
      (.scalar .literal (String.ofList cs) :: later) := by
  obtain ⟨signs, line, hsigns, hread⟩ := Block.exists_scan hcs hrest (Nat.lt_succ_self column)
    ((⟨m.line, m.column + 1⟩ : Mark).past '|')
  rw [hsigns, List.cons_append]
  refine Reads.of_scan hcolumn hread ?_ h
  simp only [List.length_append, List.length_cons]
  omega

/-- A line feed after a text that ends in a single break of its own. -/
theorem Reads.literal_newline {c d : Char} {cs tl : List Char} (hcs : LiteralText cs)
    (hrev : cs.reverse = c :: d :: tl) (hc : isBreak c = true) (hd : isBreak d = false)
    (hcolumn : column ≤ m.column) (hrest : Follows column rest)
    (h : ∀ line, Reads true (column :: indents) (Tail.ofLine line rest) later) :
    Reads false (column :: indents) ⟨m, ' ' :: (Written.literalHeader cs ++ '\n' ::
      (Written.literalFrom (column + 2) true cs ++ '\n' :: rest))⟩
      (.scalar .literal (String.ofList cs) :: later) := by
  obtain ⟨signs, line, hsigns, hread⟩ := Block.exists_scan_newline hcs hrev hc hd hrest
    (Nat.lt_succ_self column) ((⟨m.line, m.column + 1⟩ : Mark).past '|')
  rw [hsigns, List.cons_append]
  refine Reads.of_scan hcolumn hread ?_ h
  simp only [List.length_append, List.length_cons]
  omega

theorem Outline.read_brackets (tokens : List Token) (hcolumn : column ≤ m.column) (fuel : Nat) :
    (ready tokens (column :: indents) false).read (fuel + 2) ⟨m, ' ' :: '[' :: ']' :: rest⟩ =
      (ready (⟨⟨m.line, m.column + 2⟩, .flowListEnd⟩ :: ⟨⟨m.line, m.column + 1⟩, .flowList⟩ :: tokens)
        (column :: indents) false).read fuel ⟨⟨m.line, m.column + 3⟩, rest⟩ := by
  have hopen : StartsWord '[' := by decide
  have hclose : StartsWord ']' := by decide
  have hindents : ∀ i ∈ (ready tokens (column :: indents) false).indents.head?, i ≤ m.column + 1 := by
    intro i hi
    obtain rfl : column = i := by simpa [ready] using hi
    exact Nat.le_succ_of_le hcolumn
  rw [read_succ (fuel + 1) rfl rfl (skipGap_space hopen _) hindents]
  have hnext : ((ready tokens (column :: indents) false).allowKey false).next ⟨m.line, m.column + 1⟩
      '[' (']' :: rest) = some (⟨⟨⟨m.line, m.column + 1⟩, .flowList⟩ :: tokens, column :: indents, none,
        [none], true⟩, ⟨⟨m.line, m.column + 2⟩, ']' :: rest⟩) := by
    simp [next, boundary?_of_ne, openBracket, noteCandidate, allowKey, ready, emit, Mark.past,
      isBreak]
  change (((ready tokens (column :: indents) false).allowKey false).next _ _ _).bind _ = _
  rw [hnext, Option.bind_some, read]
  have hgap : skipGap true true false ⟨m.line, m.column + 2⟩ (']' :: rest) =
    (true, ⟨⟨m.line, m.column + 2⟩, ']' :: rest⟩) := skipGap_word hclose rest
  simp [inFlow, hgap, expire, allowKey, Candidate.live?, endBlocks, next, boundary?_of_ne,
    closeBracket, dropCandidate, ready, emit, Mark.past, isBreak]

/-- A list without elements, in brackets. -/
theorem Reads.noItems (hcolumn : column ≤ m.column) (hrest : Follows column rest)
    (h : ∀ line, Reads true (column :: indents) (Tail.ofLine line rest) later) :
    Reads false (column :: indents) ⟨m, ' ' :: '[' :: ']' :: '\n' :: rest⟩
      (.flowList :: .flowListEnd :: later) := by
  intro tokens fuel hfuel
  obtain ⟨f, rfl⟩ : ∃ f, fuel = f + 2 := ⟨fuel - 2, by simp only [List.length_cons] at hfuel; omega⟩
  have hline : Reads false (column :: indents) ⟨⟨m.line, m.column + 3⟩, '\n' :: rest⟩ later :=
    (h _).newline hrest
  obtain ⟨new, hread, hnew⟩ := hline (⟨⟨m.line, m.column + 2⟩, .flowListEnd⟩ ::
    ⟨⟨m.line, m.column + 1⟩, .flowList⟩ :: tokens) f (by
      simp only [List.length_cons] at hfuel ⊢
      omega)
  refine ⟨⟨⟨m.line, m.column + 1⟩, .flowList⟩ :: ⟨⟨m.line, m.column + 2⟩, .flowListEnd⟩ :: new, ?_,
    by simp [hnew]⟩
  rw [Outline.read_brackets tokens hcolumn, hread]
  simp

end Values

end SiteNav.Yaml
