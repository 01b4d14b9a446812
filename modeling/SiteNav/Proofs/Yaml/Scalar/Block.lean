import SiteNav.Proofs.Yaml.Style

/-!
# Written literal blocks

Reading a literal block keeps every line and every break between lines. The header says whether the
breaks at the end belong to the text: the line feed that ends the last line does not, a single break
of the text does on its own, and more of them have to be kept.
-/
namespace SiteNav.Yaml.Block
open Written (spaces isPrintable beforeGap literalFrom literalHeader endsIn)

/-- The state in which a text, latest character first, has been read. -/
structure State.Holds (st : State) (rev : List Char) : Prop where
  all : st.more ++ st.first ++ st.text = rev
  line : st.inLine = true → st.first = [] ∧ st.more = [] ∧ ∀ c ∈ st.text.head?, isBreak c = false
  breaks : ∀ c ∈ st.more ++ st.first, isBreak c = true
  start : st.inLine = false → st.first = [] → st.text = []

section Lines
variable {indent : Nat} {st : State} {rev cs : List Char} {m : Mark} {c : Char}

theorem scanLines_spaces (hst : st.inLine = false) (n : Nat) (hn : m.column + n ≤ indent) :
    scanLines false indent st m (spaces n ++ cs) =
      scanLines false indent st ⟨m.line, m.column + n⟩ cs := by
  refine pass_spaces (scanLines false indent st) n cs (fun m cs hm => ?_) hn
  rw [scanLines, if_neg (by simp [hst]), if_pos ⟨rfl, hm⟩, past_of_not_isBreak rfl]

theorem scanLines_end {column line : Nat} {rest : List Char} (hrest : Follows column rest)
    (hless : column < indent) (hst : st.inLine = false) :
    scanLines false indent st ⟨line, 0⟩ rest = some (st, Tail.ofLine line rest) := by
  rcases hrest with rfl | ⟨n, c, cs, hn, rfl, hc⟩
  · rfl
  · have hcolumn : n < indent := by omega
    rw [scanLines_spaces hst n (by simp only; omega), Tail.ofLine_spaces _ _ hc.ne_space, scanLines,
      if_neg (by simp [hst]), if_neg (by simp [hc.ne_space]), if_neg (by simp [hc.ne_tab]),
      if_neg (by simp [hc.2.1]), if_neg (by simp only; omega)]
    simp

theorem State.Holds.beginLine (h : st.Holds rev) (hc : isBreak c = false) :
    (st.beginLine false c).Holds (c :: rev) where
  all := by simp [State.beginLine, State.joined, ← h.all]
  line _ := ⟨rfl, rfl, by simpa [State.beginLine] using hc⟩
  breaks := by simp [State.beginLine]
  start h := by simp [State.beginLine] at h

/-- A character of a line, which is indented if it is the first one. -/
theorem exists_scanLines_char (indent : Nat) (h : st.Holds rev) (hc : isBreak c = false)
    (hm : st.inLine = false → m.column = 0) (cs : List Char) : ∃ st' m',
      State.Holds st' (c :: rev) ∧ st'.inLine = true ∧
      scanLines false indent st m ((if !st.inLine then spaces indent else []) ++ c :: cs) =
        scanLines false indent st' m' cs := by
  cases hst : st.inLine with
  | true =>
    obtain ⟨hfirst, hmore, _⟩ := h.line hst
    refine ⟨{ st with text := c :: st.text }, m.past c,
      ⟨?_, fun _ => ⟨hfirst, hmore, by simpa using hc⟩, h.breaks, ?_⟩,
      hst, ?_⟩
    · simp [← h.all, hfirst, hmore]
    · simp [hst]
    · rw [Bool.not_true, if_neg (by simp), List.nil_append, scanLines, if_pos hst,
        if_neg (by simp [hc])]
  | false =>
    have hcolumn := hm hst
    refine ⟨st.beginLine false c, (⟨m.line, m.column + indent⟩ : Mark).past c, h.beginLine hc, rfl, ?_⟩
    rw [Bool.not_false, if_pos rfl, scanLines_spaces hst indent (by omega), scanLines,
      if_neg (by simp [hst]), if_neg (by simp [hcolumn]), if_neg (by simp [hcolumn]),
      if_neg (by simp [hc]), if_pos (by simp [hcolumn])]

theorem exists_scanLines_break (indent : Nat) (m : Mark) (h : st.Holds rev)
    (hc : isBreak c = true) (cs : List Char) :
    ∃ st', State.Holds st' (c :: rev) ∧ st'.inLine = false ∧
      scanLines false indent st m (c :: cs) = scanLines false indent st' ⟨m.line + 1, 0⟩ cs := by
  have hpast : m.past c = ⟨m.line + 1, 0⟩ := if_pos hc
  have hspace : c ≠ ' ' := by rintro rfl; exact absurd hc (by decide)
  have htab : c ≠ '\t' := by rintro rfl; exact absurd hc (by decide)
  cases hst : st.inLine with
  | true =>
    obtain ⟨hfirst, hmore, _⟩ := h.line hst
    refine ⟨{ st with first := [c], more := [], inLine := false }, ⟨?_, ?_, ?_, ?_⟩, rfl, ?_⟩
    · simp [← h.all, hfirst, hmore]
    · simp
    · simpa using hc
    · simp
    · rw [scanLines, if_pos hst, if_pos hc, hpast]
  | false =>
    refine ⟨{ st with more := c :: st.more }, ⟨?_, ?_, ?_, ?_⟩, hst, ?_⟩
    · simp [← h.all]
    · simp [hst]
    · intro d hd
      rcases List.mem_cons.1 hd with rfl | hd
      · exact hc
      · exact h.breaks d hd
    · exact h.start
    · rw [scanLines, if_neg (by simp [hst]), if_neg (by simp [hspace]), if_neg (by simp [htab]),
        if_pos hc, hpast]

theorem exists_scanLines_literalFrom (indent : Nat) (m : Mark)
    (hcs : ∀ c ∈ cs, isPrintable c = true) (h : st.Holds rev)
    (hm : st.inLine = false → m.column = 0) (rest : List Char) : ∃ st' m',
      State.Holds st' (cs.reverse ++ rev) ∧ (st'.inLine = false → m'.column = 0) ∧
      scanLines false indent st m (literalFrom indent (!st.inLine) cs ++ rest) =
        scanLines false indent st' m' rest := by
  induction cs generalizing st rev m with
  | nil => exact ⟨st, m, h, hm, rfl⟩
  | cons c cs ih =>
    have hcs' : ∀ x ∈ cs, isPrintable x = true := fun x hx => hcs x (by simp [hx])
    have hbreakEq := isBreak_eq_of_isPrintable (hcs c (by simp))
    rw [literalFrom]
    by_cases hbreak : Written.isBreak c = true
    · obtain ⟨st₁, h₁, hst₁, hread₁⟩ := exists_scanLines_break indent m h
        (hbreakEq ▸ hbreak) (literalFrom indent true cs ++ rest)
      obtain ⟨st', m', h', hm', hread⟩ := ih ⟨m.line + 1, 0⟩ hcs' h₁ fun _ => rfl
      rw [hst₁, Bool.not_false] at hread
      refine ⟨st', m', by simpa using h', hm', ?_⟩
      rw [if_pos hbreak, List.cons_append, hread₁, hread]
    · have hc : isBreak c = false := by
        rw [← hbreakEq]
        simpa using hbreak
      obtain ⟨st₁, m₁, h₁, hst₁, hread₁⟩ := exists_scanLines_char indent h hc hm
        (literalFrom indent false cs ++ rest)
      obtain ⟨st', m', h', hm', hread⟩ := ih m₁ hcs' h₁ (by simp [hst₁])
      rw [hst₁, Bool.not_true] at hread
      refine ⟨st', m', by simpa using h', hm', ?_⟩
      rw [if_neg hbreak, List.append_assoc, List.cons_append, hread₁, hread]

end Lines

section Header
variable {cs rev : List Char}

/-- What has to become of the breaks at the end of a text, latest character first. -/
def Keeps : Chomping → List Char → Prop
  | .strip, rev => ∃ c tl, rev = c :: tl ∧ isBreak c = false
  | .clip, rev => ∃ c d tl, rev = c :: d :: tl ∧ isBreak c = true ∧ isBreak d = false
  | .keep, rev => ∃ c tl, rev = c :: tl ∧ isBreak c = true

theorem exists_literalHeader (hne : cs ≠ []) (hcs : ∀ c ∈ cs, isPrintable c = true) :
    ∃ signs k, literalHeader cs = '|' :: signs ∧ Keeps k cs.reverse ∧ ∀ rest,
      header? (signs ++ '\n' :: rest) =
        some (⟨k, if beforeGap cs then some 2 else none⟩, '\n' :: rest) := by
  have hbreakEq (c : Char) (hc : c ∈ cs.reverse) : Written.isBreak c = isBreak c :=
    isBreak_eq_of_isPrintable (hcs c (by simpa using hc))
  rw [literalHeader]
  cases hrev : cs.reverse with
  | nil => exact absurd (List.reverse_eq_nil_iff.1 hrev) hne
  | cons c tl =>
    rw [hrev] at hbreakEq
    have hc := hbreakEq c (by simp)
    have hsigns (sign : List Char) (k : Chomping) (hkeeps : Keeps k (c :: tl))
        (hhint : ∀ rest, header? ('2' :: (sign ++ '\n' :: rest)) = some (⟨k, some 2⟩, '\n' :: rest))
        (hno : ∀ rest, header? (sign ++ '\n' :: rest) = some (⟨k, none⟩, '\n' :: rest)) :
        ∃ signs k, '|' :: ((if beforeGap cs then ['2'] else []) ++ sign) = '|' :: signs ∧
          Keeps k (c :: tl) ∧ ∀ rest, header? (signs ++ '\n' :: rest) =
            some (⟨k, if beforeGap cs then some 2 else none⟩, '\n' :: rest) := by
      refine ⟨_, k, rfl, hkeeps, fun rest => ?_⟩
      cases beforeGap cs with
      | true => exact hhint rest
      | false => exact hno rest
    cases hbreak : isBreak c with
    | false =>
      rw [hbreak] at hc
      have hstrip := hsigns ['-'] .strip ⟨c, tl, rfl, hbreak⟩ (fun _ => rfl) fun _ => rfl
      cases tl with
      | nil => simpa [hc] using hstrip
      | cons d tl => simpa [hc] using hstrip
    | true =>
      rw [hbreak] at hc
      have hkeep := hsigns ['+'] .keep ⟨c, tl, rfl, hbreak⟩ (fun _ => rfl) fun _ => rfl
      cases tl with
      | nil => simpa [hc] using hkeep
      | cons d tl =>
        have hd := hbreakEq d (by simp)
        cases hbreak' : isBreak d with
        | true => simpa [hc, hd, hbreak'] using hkeep
        | false =>
          have hclip := hsigns [] .clip ⟨c, d, tl, rfl, hbreak, hbreak'⟩ (fun _ => rfl) fun _ => rfl
          simpa [hc, hd, hbreak'] using hclip

end Header

section Finish
variable {st : State} {rev : List Char} {c : Char} {tl : List Char}

theorem State.Holds.append_eq_nil (h : st.Holds rev) {more : List Char}
    (hmore : ∃ later, st.more = later ++ more) (hrev : more ++ st.first ++ st.text = c :: tl)
    (hc : isBreak c = false) : more = [] ∧ st.first = [] := by
  obtain ⟨later, hmore⟩ := hmore
  have hbreaks : ∀ d ∈ more ++ st.first, isBreak d = true := by
    intro d hd
    refine h.breaks d ?_
    rw [hmore, List.append_assoc]
    exact List.mem_append_right _ hd
  cases hends : more ++ st.first with
  | nil => exact List.append_eq_nil_iff.1 hends
  | cons d ds =>
    rw [hends, List.cons_append] at hrev
    have hd := hbreaks d (by simp [hends])
    rw [(List.cons.inj hrev).1, hc] at hd
    cases hd

theorem State.Holds.inLine_eq_true (h : st.Holds (c :: tl)) (hc : isBreak c = false) :
    st.inLine = true := by
  cases hst : st.inLine with
  | true => rfl
  | false =>
    obtain ⟨hmore, hfirst⟩ : st.more = [] ∧ st.first = [] := h.append_eq_nil ⟨[], rfl⟩ h.all hc
    have hall := h.all
    rw [hmore, hfirst, h.start hst hfirst] at hall
    cases hall

theorem State.Holds.inLine_eq_false (h : st.Holds (c :: tl)) (hc : isBreak c = true) :
    st.inLine = false := by
  cases hst : st.inLine with
  | false => rfl
  | true =>
    obtain ⟨hfirst, hmore, hhead⟩ := h.line hst
    have hall := h.all
    rw [hfirst, hmore, List.nil_append, List.nil_append] at hall
    have hbreak := hhead c (by simp [hall])
    rw [hc] at hbreak
    cases hbreak

/-- A single break at the end is the one after the last line. -/
theorem State.Holds.more_eq_nil {d : Char} (h : st.Holds (c :: d :: tl)) (hc : isBreak c = true)
    (hd : isBreak d = false) : st.more = [] := by
  cases hmore : st.more with
  | nil => rfl
  | cons x more =>
    have hall := h.all
    rw [hmore, List.cons_append, List.cons_append] at hall
    have hrest := (List.cons.inj hall).2
    obtain ⟨hnil, hfirst⟩ := h.append_eq_nil ⟨[x], hmore⟩ hrest hd
    rw [hnil, hfirst, h.start (h.inLine_eq_false hc) hfirst] at hrest
    cases hrest

/-- The header keeps just the breaks of the text. -/
theorem exists_scanLines_finish {indent column : Nat} {rest : List Char} {k : Chomping} {m : Mark}
    (h : st.Holds rev) (hm : st.inLine = false → m.column = 0) (hk : Keeps k rev)
    (hrest : Follows column rest) (hless : column < indent) : ∃ st' line,
      scanLines false indent st m
        ((if (rev.head?.map isBreak).getD false then [] else ['\n']) ++ rest) =
          some (st', Tail.ofLine line rest) ∧ st'.finish k = rev := by
  have hend (hst : st.inLine = false) :
      scanLines false indent st m rest = some (st, Tail.ofLine m.line rest) := by
    have hmark : m = ⟨m.line, 0⟩ := by rw [← hm hst]
    rw [hmark]
    exact scanLines_end hrest hless hst
  cases k with
  | strip =>
    obtain ⟨c, tl, rfl, hc⟩ := hk
    have hst := h.inLine_eq_true hc
    obtain ⟨hfirst, hmore, _⟩ := h.line hst
    refine ⟨{ st with first := ['\n'], more := [], inLine := false }, m.line + 1, ?_, ?_⟩
    · have hpast : m.past '\n' = ⟨m.line + 1, 0⟩ := rfl
      simp only [List.head?_cons, Option.map_some, hc, Option.getD_some, Bool.false_eq_true, if_false]
      rw [List.singleton_append, scanLines, if_pos hst, if_pos (by decide), hpast]
      exact scanLines_end hrest hless rfl
    · have hall := h.all
      rwa [hfirst, hmore] at hall
  | clip =>
    obtain ⟨c, d, tl, rfl, hc, hd⟩ := hk
    refine ⟨st, m.line, by simpa [hc] using hend (h.inLine_eq_false hc), ?_⟩
    have hall := h.all
    rwa [h.more_eq_nil hc hd, List.nil_append] at hall
  | keep =>
    obtain ⟨c, tl, rfl, hc⟩ := hk
    exact ⟨st, m.line, by simpa [hc] using hend (h.inLine_eq_false hc), h.all⟩

end Finish

section Scan
variable {least : Nat} {cs rest : List Char} {m : Mark}

theorem restOfLine_newline (m : Mark) (cs : List Char) :
    restOfLine ⟨m, '\n' :: cs⟩ = some ⟨⟨m.line + 1, 0⟩, cs⟩ := by
  simp [restOfLine, Tail.dropWhile, Tail.takeWhile, isBlank, isBreak, Mark.past]

theorem measure_spaces {breaks : List Char} {deepest : Nat} (n : Nat) :
    measure breaks deepest m (spaces n ++ cs) =
      measure breaks deepest ⟨m.line, m.column + n⟩ cs := by
  refine pass_spaces (measure breaks deepest) n cs (fun m cs _ => ?_) (Nat.le_refl _)
  rw [measure, if_pos rfl, past_of_not_isBreak rfl]

theorem endsIn_isBreak (hcs : ∀ c ∈ cs, isPrintable c = true) :
    endsIn Written.isBreak cs = (cs.reverse.head?.map isBreak).getD false := by
  rw [endsIn, List.head?_reverse]
  cases hlast : cs.getLast? with
  | none => rfl
  | some c => exact isBreak_eq_of_isPrintable (hcs c (List.mem_of_getLast? hlast))

theorem exists_measure (hne : cs ≠ []) (hcs : ∀ c ∈ cs, isPrintable c = true)
    (hgap : beforeGap cs = false) (line indent : Nat) (rest : List Char) : ∃ t : Tail,
      measure [] 0 ⟨line, 0⟩ (literalFrom indent true cs ++ rest) = some ([], indent, t) ∧
      scanLines false indent {} t.mark t.chars =
        scanLines false indent {} ⟨line, 0⟩ (literalFrom indent true cs ++ rest) := by
  obtain ⟨c, cs, rfl⟩ := List.exists_cons_of_ne_nil hne
  have hprintable := hcs c (by simp)
  rw [beforeGap, isGap_eq_of_isPrintable hprintable, Bool.or_eq_false_iff] at hgap
  obtain ⟨hblank, hbreak⟩ := hgap
  have hspace : c ≠ ' ' := by rintro rfl; exact absurd hblank (by decide)
  have htab : c ≠ '\t' := by rintro rfl; exact absurd hblank (by decide)
  have hwritten : literalFrom indent true (c :: cs) ++ rest =
      spaces indent ++ c :: (literalFrom indent false cs ++ rest) := by
    rw [literalFrom, isBreak_eq_of_isPrintable hprintable, hbreak, if_neg (by simp), if_pos rfl,
      List.append_assoc, List.cons_append]
  refine ⟨⟨⟨line, indent⟩, c :: (literalFrom indent false cs ++ rest)⟩, ?_, ?_⟩
  · rw [hwritten, measure_spaces, measure, if_neg hspace, if_neg htab, if_neg (by simp [hbreak])]
    simp
  · rw [hwritten, scanLines_spaces rfl indent (by simp), Nat.zero_add]

/-- A text written as a literal block is read back if the header keeps just the breaks of the text from
what stands at its end. -/
theorem exists_scan_of_finish {signs tail : List Char} {k : Chomping} (hleast : 0 < least)
    (hcs : LiteralText cs)
    (hheader : ∀ rest, header? (signs ++ '\n' :: rest) =
      some (⟨k, if beforeGap cs then some 2 else none⟩, '\n' :: rest))
    (hfinish : ∀ st m, State.Holds st cs.reverse → (st.inLine = false → m.column = 0) →
      ∃ st' line, scanLines false (least + 1) st m tail = some (st', Tail.ofLine line rest) ∧
        st'.finish k = cs.reverse)
    (m : Mark) : ∃ line, scan false least
      ⟨m, signs ++ '\n' :: (literalFrom (least + 1) true cs ++ tail)⟩ =
        some (String.ofList cs, Tail.ofLine line rest) := by
  obtain ⟨hne, hprintable⟩ := hcs
  have hempty : State.Holds {} [] := ⟨rfl, by simp, by simp, by simp⟩
  obtain ⟨st₁, m₁, h₁, hm₁, hread₁⟩ := exists_scanLines_literalFrom (least + 1) ⟨m.line + 1, 0⟩
    hprintable hempty (fun _ => rfl) tail
  rw [List.append_nil] at h₁
  obtain ⟨st₂, line, hread₂, hfinish⟩ := hfinish st₁ m₁ h₁ hm₁
  refine ⟨line, ?_⟩
  have hread : scanLines false (least + 1) {} ⟨m.line + 1, 0⟩ (literalFrom (least + 1) true cs ++ tail) =
      some (st₂, Tail.ofLine line rest) := hread₁.trans hread₂
  simp only [scan, hheader, Option.bind_eq_bind, Option.bind_some, restOfLine_newline]
  cases hgap : beforeGap cs with
  | true =>
    have hindent : least - 1 + 2 = least + 1 := by omega
    simp only [if_true, hindent]
    rw [hread]
    simp [hfinish]
  | false =>
    obtain ⟨t, hmeasure, hstart⟩ := exists_measure hne hprintable hgap (m.line + 1) (least + 1) tail
    have hindent : max 1 (max (least + 1) least) = least + 1 := by omega
    simp only [Bool.false_eq_true, if_false, hmeasure, Option.bind_some, hindent]
    rw [hstart, hread]
    simp [hfinish]

/-- A text written as a literal block is read back, up to the word after the last line. -/
theorem exists_scan {column : Nat} (hcs : LiteralText cs) (hrest : Follows column rest)
    (hless : column < least) (m : Mark) : ∃ signs line, literalHeader cs = '|' :: signs ∧
      scan false least ⟨m, signs ++ '\n' :: (literalFrom (least + 1) true cs ++
        ((if endsIn Written.isBreak cs then [] else ['\n']) ++ rest))⟩ =
          some (String.ofList cs, Tail.ofLine line rest) := by
  obtain ⟨signs, k, hsigns, hk, hheader⟩ := exists_literalHeader hcs.ne_nil hcs.isPrintable
  rw [endsIn_isBreak hcs.isPrintable]
  obtain ⟨line, hread⟩ := exists_scan_of_finish (Nat.zero_lt_of_lt hless) hcs hheader
    (fun st m hst hm => exists_scanLines_finish hst hm hk hrest (Nat.lt_succ_of_lt hless)) m
  exact ⟨signs, line, hsigns, hread⟩

/-- Where a text ends in a single break, one more line feed after it does not count. -/
theorem exists_scan_newline {column : Nat} {c d : Char} {tl : List Char} (hcs : LiteralText cs)
    (hrev : cs.reverse = c :: d :: tl) (hc : isBreak c = true) (hd : isBreak d = false)
    (hrest : Follows column rest) (hless : column < least) (m : Mark) :
    ∃ signs line, literalHeader cs = '|' :: signs ∧
      scan false least ⟨m, signs ++ '\n' :: (literalFrom (least + 1) true cs ++ '\n' :: rest)⟩ =
        some (String.ofList cs, Tail.ofLine line rest) := by
  have hwritten : ∀ x ∈ cs.reverse, Written.isBreak x = isBreak x := fun x hx =>
    isBreak_eq_of_isPrintable (hcs.isPrintable x (List.mem_reverse.1 hx))
  have hc' : Written.isBreak c = true := (hwritten c (by simp [hrev])).trans hc
  have hd' : Written.isBreak d = false := (hwritten d (by simp [hrev])).trans hd
  have hheader : ∀ rest, header? ((if beforeGap cs then ['2'] else []) ++ '\n' :: rest) =
      some (⟨.clip, if beforeGap cs then some 2 else none⟩, '\n' :: rest) := fun rest => by
    cases beforeGap cs <;> rfl
  have hfinish : ∀ st m, State.Holds st cs.reverse → (st.inLine = false → m.column = 0) →
      ∃ st' line, scanLines false (least + 1) st m ('\n' :: rest) =
        some (st', Tail.ofLine line rest) ∧ st'.finish .clip = cs.reverse := by
    intro st m hst _
    rw [hrev] at hst ⊢
    have hline := hst.inLine_eq_false hc
    refine ⟨{ st with more := '\n' :: st.more }, m.line + 1, ?_, ?_⟩
    · have hpast : m.past '\n' = ⟨m.line + 1, 0⟩ := rfl
      rw [scanLines, if_neg (by simp [hline]), if_neg (by simp), if_neg (by simp),
        if_pos (by decide), hpast]
      exact scanLines_end hrest (Nat.lt_succ_of_lt hless) hline
    · have hall := hst.all
      rwa [hst.more_eq_nil hc hd, List.nil_append] at hall
  obtain ⟨line, hread⟩ := exists_scan_of_finish (Nat.zero_lt_of_lt hless) hcs hheader hfinish m
  refine ⟨_, line, ?_, hread⟩
  rw [literalHeader, hrev]
  simp [hc', hd']

end Scan

end SiteNav.Yaml.Block
