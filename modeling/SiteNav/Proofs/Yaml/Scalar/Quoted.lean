import SiteNav.Proofs.Text.Digit
import SiteNav.Proofs.Yaml.Style

/-!
# Written quoted scalars

Between single quotes a text keeps its breaks, since none of them is a line feed and no space stands
next to one: the indentation of a line is all that is dropped. Between double quotes whatever is not
itself is escaped, and no line ends there.
-/
namespace SiteNav.Yaml.Quoted
open Text
open Written (spaces isPrintable adjacent singleFrom hex escape)

section Single
variable {acc cs : List Char} {gap : Gap} {m : Mark} {c : Char}

/-- A gap that stands for all that was read since. -/
def IsExact : Gap → Prop
  | .blanks _ => True
  | .lines first _ => ∃ b, first = [b] ∧ b ≠ '\n'

theorem scanSingle_push (hblank : isBlank c = false) (hbreak : isBreak c = false) (hquote : c ≠ '\'')
    (hcolumn : 0 < m.column) : scanSingle acc gap m (c :: cs) =
      scanSingle (c :: gap.after acc) .nil ⟨m.line, m.column + 1⟩ cs := by
  rw [scanSingle]
  · simp [hblank, hbreak, hquote, boundary?_of_column hcolumn, past_of_not_isBreak hbreak]
  · intro _ h
    exact absurd h hquote

theorem scanSingle_gap (h : isBlank c = true ∨ isBreak c = true) :
    scanSingle acc gap m (c :: cs) = scanSingle acc (gap.push c) (m.past c) cs := by
  rw [scanSingle]
  · rw [if_pos (by simpa using h)]
  · rintro _ rfl
    exact absurd h (by decide)

theorem scanSingle_close (hcolumn : 0 < m.column) (hcs : cs.head? ≠ some '\'') :
    scanSingle acc gap m ('\'' :: cs) = some (gap.after acc, ⟨m.past '\'', cs⟩) := by
  rw [scanSingle]
  · rw [if_neg (by decide), boundary?_of_column hcolumn, if_neg (by simp), if_pos rfl]
  · rintro _ _ rfl
    simp at hcs

/-- After a break the indentation of the next line is dropped. -/
theorem exists_scanSingle_indent (acc : List Char) {indent : Nat} (hindent : 0 < indent)
    (hcolumn : gap.hasLines = true ∨ 0 < m.column) (cs : List Char) : ∃ m' : Mark, 0 < m'.column ∧
      scanSingle acc gap m ((if gap.hasLines then spaces indent else []) ++ cs) =
        scanSingle acc gap m' cs := by
  cases gap with
  | blanks bs => exact ⟨m, hcolumn.resolve_left (by simp [Gap.hasLines]), rfl⟩
  | lines first more =>
    have hpush : (Gap.lines first more).push ' ' = .lines first more := rfl
    have hspace (m : Mark) (cs : List Char) : scanSingle acc (.lines first more) m (' ' :: cs) =
        scanSingle acc (.lines first more) ⟨m.line, m.column + 1⟩ cs := by
      rw [scanSingle_gap (.inl rfl), hpush, past_of_not_isBreak (by decide)]
    have hspaces := pass_spaces (m := m) (scanSingle acc (.lines first more)) indent cs
      (fun m cs _ => hspace m cs) (Nat.le_refl _)
    exact ⟨_, Nat.lt_of_lt_of_le hindent (Nat.le_add_left _ _), hspaces⟩

theorem after_push_break (acc : List Char) (hgap : IsExact gap)
    (hblanks : gap.hasLines = true ∨ gap.isNil = true)
    (hc : isBreak c = true) (hline : c ≠ '\n') :
    IsExact (gap.push c) ∧ (gap.push c).hasLines = true ∧
      (gap.push c).after acc = c :: gap.after acc := by
  match gap with
  | .blanks [] => simp [IsExact, Gap.push, hc, hline, Gap.hasLines, Gap.after]
  | .blanks (_ :: _) => simp [Gap.hasLines, Gap.isNil] at hblanks
  | .lines first more =>
    obtain ⟨b, rfl, hb⟩ := hgap
    simp [IsExact, Gap.push, hc, hb, Gap.hasLines, Gap.after]

/-- A character of a line is read as itself; a space may stay in the gap. -/
theorem exists_scanSingle_char (acc : List Char) (hprintable : isPrintable c = true)
    (hbreak : isBreak c = false) (hcolumn : 0 < m.column) (hspace : gap.hasLines = true → c ≠ ' ')
    (cs : List Char) : ∃ (acc' : List Char) (gap' : Gap) (m' : Mark), IsExact gap' ∧
      gap'.hasLines = false ∧ 0 < m'.column ∧ (gap'.isNil = true ∨ c = ' ') ∧
      gap'.after acc' = c :: gap.after acc ∧
      scanSingle acc gap m ((if c = '\'' then ['\'', '\''] else [c]) ++ cs) =
        scanSingle acc' gap' m' cs := by
  by_cases hquote : c = '\''
  · refine ⟨'\'' :: gap.after acc, .nil, (m.past '\'').past '\'', trivial, rfl, Nat.succ_pos _,
      .inl rfl, ?_, ?_⟩
    · simp [hquote, Gap.nil, Gap.after]
    · rw [if_pos hquote, List.cons_append, List.singleton_append, scanSingle]
  · rw [if_neg hquote, List.singleton_append]
    by_cases hc : c = ' '
    · subst hc
      match gap with
      | .lines first more => exact absurd rfl (hspace rfl)
      | .blanks bs =>
        have hpush : (Gap.blanks bs).push ' ' = .blanks (' ' :: bs) := rfl
        refine ⟨acc, .blanks (' ' :: bs), m.past ' ', trivial, rfl, Nat.succ_pos _, .inr rfl, rfl, ?_⟩
        rw [scanSingle_gap (.inl rfl), hpush]
    · have hblank : isBlank c = false := by
        rw [isBlank_eq_of_isPrintable hprintable]
        exact beq_false_of_ne hc
      exact ⟨c :: gap.after acc, .nil, ⟨m.line, m.column + 1⟩, trivial, rfl, Nat.succ_pos _, .inl rfl,
        rfl, scanSingle_push hblank hbreak hquote hcolumn⟩

theorem adjacent_cons {p q : Char → Bool} (h : adjacent p q (c :: cs) = false) :
    adjacent p q cs = false ∧ (p c = true → ∀ d ∈ cs.head?, q d = false) := by
  cases cs with
  | nil => exact ⟨rfl, fun _ d hd => absurd hd (by simp)⟩
  | cons d cs =>
    simp only [adjacent, Bool.or_eq_false_iff, Bool.and_eq_false_iff] at h
    refine ⟨h.2, fun hp e he => ?_⟩
    obtain rfl : d = e := by simpa using he
    exact h.1.resolve_left (by simp [hp])

theorem scanSingle_singleFrom {indent : Nat} (hindent : 0 < indent) {rest : List Char}
    (hrest : rest.head? ≠ some '\'') (hprintable : ∀ c ∈ cs, isPrintable c = true)
    (hline : '\n' ∉ cs) (hbefore : adjacent (· == ' ') Written.isBreak cs = false)
    (hafter : adjacent Written.isBreak (· == ' ') cs = false) (acc : List Char) (gap : Gap) (m : Mark)
    (hgap : IsExact gap) (hcolumn : gap.hasLines = true ∨ 0 < m.column)
    (hnoBreak : gap.hasLines = true ∨ gap.isNil = true ∨ ∀ d ∈ cs.head?, Written.isBreak d = false)
    (hnoSpace : gap.hasLines = true → ∀ d ∈ cs.head?, (d == ' ') = false) :
    ∃ m', scanSingle acc gap m (singleFrom indent gap.hasLines cs ++ rest) =
      some (cs.reverse ++ gap.after acc, ⟨m', rest⟩) := by
  induction cs generalizing acc gap m with
  | nil =>
    obtain ⟨m', hm', hread⟩ := exists_scanSingle_indent acc hindent hcolumn ('\'' :: rest)
    rw [singleFrom, List.append_assoc, List.singleton_append, hread, scanSingle_close hm' hrest]
    exact ⟨_, rfl⟩
  | cons c cs ih =>
    obtain ⟨hbefore', hspaceNext⟩ := adjacent_cons hbefore
    obtain ⟨hafter', hbreakNext⟩ := adjacent_cons hafter
    have ih' := ih (fun x hx => hprintable x (by simp [hx])) (fun h => hline (by simp [h])) hbefore'
      hafter'
    have hc₀ := hprintable c (by simp)
    rw [singleFrom]
    by_cases hbreak : Written.isBreak c = true
    · rw [if_pos hbreak, List.cons_append]
      have hc : isBreak c = true := isBreak_eq_of_isPrintable hc₀ ▸ hbreak
      have hblanks : gap.hasLines = true ∨ gap.isNil = true := by
        rcases hnoBreak with h | h | h
        · exact .inl h
        · exact .inr h
        · rw [h c (by simp)] at hbreak
          cases hbreak
      have hnotLine : c ≠ '\n' := fun h => hline (by simp [h])
      obtain ⟨hexact, hlines, hpush⟩ := after_push_break acc hgap hblanks hc hnotLine
      obtain ⟨m', hread⟩ := ih' acc (gap.push c) (m.past c) hexact (.inl hlines) (.inl hlines)
        fun _ => hbreakNext hbreak
      rw [hlines] at hread
      refine ⟨m', ?_⟩
      rw [scanSingle_gap (.inr hc), hread, hpush]
      simp
    · have hc : isBreak c = false := by
        rw [← isBreak_eq_of_isPrintable hc₀]
        simpa using hbreak
      have hspace : gap.hasLines = true → c ≠ ' ' := fun h => by simpa using hnoSpace h c (by simp)
      rw [if_neg hbreak, List.append_assoc, List.append_assoc]
      obtain ⟨m₁, hm₁, hindented⟩ := exists_scanSingle_indent acc hindent hcolumn
        ((if c = '\'' then ['\'', '\''] else [c]) ++ (singleFrom indent false cs ++ rest))
      obtain ⟨acc', gap', m₂, hexact, hlines, hm₂, hnil, hafter₂, hchar⟩ :=
        exists_scanSingle_char acc hc₀ hc hm₁ hspace (singleFrom indent false cs ++ rest)
      have hnext : gap'.isNil = true ∨ ∀ d ∈ cs.head?, Written.isBreak d = false :=
        hnil.imp_right fun h => hspaceNext (by simp [h])
      obtain ⟨m', hread⟩ := ih' acc' gap' m₂ hexact (.inr hm₂) (.inr hnext) (by simp [hlines])
      rw [hlines] at hread
      refine ⟨m', ?_⟩
      rw [hindented, hchar, hread, hafter₂]
      simp

/-- A text written between single quotes is read back up to the closing one. -/
theorem exists_single {indent : Nat} (hindent : 0 < indent) (rest : List Char)
    (hrest : rest.head? ≠ some '\'') (hcs : SingleText cs) (hcolumn : 0 < m.column) :
    ∃ m', single ⟨m, singleFrom indent false cs ++ rest⟩ = some (String.ofList cs, ⟨m', rest⟩) := by
  obtain ⟨m', hread⟩ := scanSingle_singleFrom hindent hrest hcs.isPrintable hcs.newline
    hcs.spaceBeforeBreak hcs.spaceAfterBreak [] .nil m trivial (.inr hcolumn) (.inr (.inl rfl))
    (by simp [Gap.hasLines, Gap.nil])
  refine ⟨m', ?_⟩
  have hlines : Gap.nil.hasLines = false := rfl
  rw [hlines] at hread
  rw [single, hread]
  simp [ofAcc, Gap.nil, Gap.after]

end Single

section Double
variable {acc blanks : List Char} {m : Mark} {c : Char}

/-- A character is escaped by a letter or a code point, or stands for itself. -/
theorem escape_cases (c : Char) :
    (∃ x, escape c = ['\\', x] ∧ isBreak x = false ∧ codeLength? x = none ∧
      simpleEscape? x = some c) ∨
    (∃ x n, escape c = '\\' :: x :: hex (n + 1) c.toNat ∧ isBreak x = false ∧
      codeLength? x = some (n + 1) ∧ c.toNat < Nat.pow 16 (n + 1)) ∨
    escape c = [c] ∧ isPrintable c = true ∧ isBreak c = false ∧ c ≠ '"' ∧ c ≠ '\\' := by
  unfold escape
  split
  case h_15 hnull hbell hback htab hline hvertical hform hreturn hescape hquote hslash hnext hls hps =>
    split
    case isTrue hprintable =>
      have hbreak : isBreak c = false := by
        simp only [isBreak, Bool.or_eq_false_iff, beq_eq_false_iff_ne]
        exact ⟨⟨hline, hls⟩, hps⟩
      exact .inr (.inr ⟨rfl, hprintable, hbreak, hquote, hslash⟩)
    case isFalse =>
      have hcode : c.toNat.isValidChar := c.valid
      have hvalid : c.toNat < 0x110000 := by
        rcases hcode with h | h <;> omega
      refine .inr (.inl ?_)
      dsimp only
      split
      case isTrue h => exact ⟨'x', 1, rfl, rfl, rfl, Nat.lt_succ_of_le h⟩
      case isFalse =>
        split
        case isTrue h => exact ⟨'u', 3, rfl, rfl, rfl, Nat.lt_succ_of_le h⟩
        case isFalse => exact ⟨'U', 7, rfl, rfl, rfl, Nat.lt_trans hvalid (by decide)⟩
  all_goals exact .inl ⟨_, rfl, rfl, rfl, rfl⟩

theorem scanDouble_digit {d : Nat} (hd : d < 16) (more w : Nat) (m : Mark) (cs : List Char) :
    scanDouble acc .nil (.code (more + 1) w) m ((Nat.digitChar d).toUpper :: cs) =
      scanDouble acc .nil (.code more (w * 16 + d)) (m.past (Nat.digitChar d).toUpper) cs := by
  rw [scanDouble.eq_def]
  simp only [digit?_upper d hd]

/-- All but the last digit of a code point. -/
theorem exists_scanDouble_hex (acc : List Char) (n more v w : Nat) (m : Mark) (hv : v < Nat.pow 16 n)
    (rest : List Char) : ∃ m', scanDouble acc .nil (.code (n + more) w) m (hex n v ++ rest) =
      scanDouble acc .nil (.code more (w * Nat.pow 16 n + v)) m' rest := by
  induction n generalizing v more rest with
  | zero =>
    obtain rfl : v = 0 := Nat.lt_one_iff.1 hv
    exact ⟨m, by simp [hex]⟩
  | succ n ih =>
    have hpow : Nat.pow 16 (n + 1) = Nat.pow 16 n * 16 := rfl
    have hdiv : v / 16 < Nat.pow 16 n := by
      rw [hpow] at hv
      omega
    have hvalue : (w * Nat.pow 16 n + v / 16) * 16 + v % 16 = w * Nat.pow 16 (n + 1) + v := by
      rw [hpow, ← Nat.mul_assoc]
      omega
    obtain ⟨m', hread⟩ := ih (more + 1) (v / 16) hdiv ((Nat.digitChar (v % 16)).toUpper :: rest)
    refine ⟨m'.past (Nat.digitChar (v % 16)).toUpper, ?_⟩
    rw [hex, List.append_assoc, List.singleton_append, Nat.add_assoc, Nat.add_comm 1, hread,
      scanDouble_digit (Nat.mod_lt _ (by decide)), hvalue]

theorem isBreak_digit : ∀ n < 16, isBreak (Nat.digitChar n).toUpper = false := by decide

theorem exists_scanDouble_code (acc : List Char) (x : Char) (n : Nat) (hx : isBreak x = false)
    (hcode : codeLength? x = some (n + 1)) (hc : c.toNat < Nat.pow 16 (n + 1)) (rest : List Char) :
    ∃ m' : Mark, 0 < m'.column ∧
      scanDouble acc .nil .escape m (x :: (hex (n + 1) c.toNat ++ rest)) =
        scanDouble (c :: acc) .nil .text m' rest := by
  have hpow : Nat.pow 16 (n + 1) = Nat.pow 16 n * 16 := rfl
  have hdiv : c.toNat / 16 < Nat.pow 16 n := by
    rw [hpow] at hc
    omega
  have hvalue : c.toNat / 16 * 16 + c.toNat % 16 = c.toNat := by omega
  obtain ⟨m', hread⟩ := exists_scanDouble_hex acc n 0 (c.toNat / 16) 0 (m.past x) hdiv
    ((Nat.digitChar (c.toNat % 16)).toUpper :: rest)
  rw [Nat.zero_mul, Nat.zero_add, Nat.add_zero] at hread
  have hdigit := isBreak_digit (c.toNat % 16) (Nat.mod_lt _ (by decide))
  refine ⟨m'.past (Nat.digitChar (c.toNat % 16)).toUpper, column_past_pos hdigit, ?_⟩
  have hstart : scanDouble acc .nil .escape m (x :: (hex (n + 1) c.toNat ++ rest)) =
      scanDouble acc .nil (.code n 0) (m.past x) (hex (n + 1) c.toNat ++ rest) := by
    rw [scanDouble.eq_def]
    simp [hx, hcode]
  rw [hstart, hex, List.append_assoc, List.singleton_append, hread]
  rw [scanDouble.eq_def]
  simp only [digit?_upper _ (Nat.mod_lt _ (by decide : 16 > 0)), hvalue, scalar?_toNat]

theorem scanDouble_backslash (hcolumn : 0 < m.column) (cs : List Char) :
    scanDouble acc (.blanks blanks) .text m ('\\' :: cs) =
      scanDouble (blanks ++ acc) .nil .escape (m.past '\\') cs := by
  rw [scanDouble, if_neg (by decide), boundary?_of_column hcolumn, if_neg (by simp),
    if_neg (by decide), if_pos rfl]
  rfl

/-- An escaped character is read as itself; a space may stay in the gap. -/
theorem exists_scanDouble_escape (c : Char) (hcolumn : 0 < m.column) (rest : List Char) :
    ∃ (m' : Mark) (acc' blanks' : List Char), 0 < m'.column ∧
      blanks' ++ acc' = c :: (blanks ++ acc) ∧
      scanDouble acc (.blanks blanks) .text m (escape c ++ rest) =
        scanDouble acc' (.blanks blanks') .text m' rest := by
  rcases escape_cases c with ⟨x, hescape, hbreak, hcode, hsimple⟩ |
    ⟨x, n, hescape, hbreak, hcode, hc⟩ | ⟨hescape, hprintable, hbreak, hquote, hslash⟩
  · refine ⟨(m.past '\\').past x, c :: (blanks ++ acc), [], column_past_pos hbreak, rfl, ?_⟩
    rw [hescape, List.cons_append, scanDouble_backslash hcolumn, List.singleton_append,
      scanDouble.eq_def]
    simp only [hbreak, hcode, hsimple, Bool.false_eq_true, if_false]
    rfl
  · obtain ⟨m', hm', hread⟩ := exists_scanDouble_code (m := m.past '\\') (blanks ++ acc) x n hbreak
      hcode hc rest
    refine ⟨m', c :: (blanks ++ acc), [], hm', rfl, ?_⟩
    rw [hescape, List.cons_append, List.cons_append, scanDouble_backslash hcolumn, hread]
    rfl
  · rw [hescape, List.singleton_append]
    by_cases hspace : c = ' '
    · subst hspace
      refine ⟨m.past ' ', acc, ' ' :: blanks, Nat.succ_pos _, rfl, ?_⟩
      rw [scanDouble, if_pos (by decide)]
      rfl
    · have hblank : isBlank c = false := by
        rw [isBlank_eq_of_isPrintable hprintable]
        exact beq_false_of_ne hspace
      refine ⟨m.past c, c :: (blanks ++ acc), [], column_past_pos hbreak, rfl, ?_⟩
      rw [scanDouble, if_neg (by simp [hblank, hbreak]), boundary?_of_column hcolumn,
        if_neg (by simp), if_neg hquote, if_neg hslash]
      rfl

theorem exists_scanDouble_flatMap (cs acc blanks : List Char) (m : Mark) (hcolumn : 0 < m.column)
    (rest : List Char) : ∃ m', scanDouble acc (.blanks blanks) .text m
      (cs.flatMap escape ++ '"' :: rest) = some (cs.reverse ++ (blanks ++ acc), ⟨m', rest⟩) := by
  induction cs generalizing acc blanks m with
  | nil =>
    refine ⟨m.past '"', ?_⟩
    rw [List.flatMap_nil, List.nil_append, scanDouble, if_neg (by decide),
      boundary?_of_column hcolumn, if_neg (by simp), if_pos rfl]
    rfl
  | cons c cs ih =>
    obtain ⟨m₁, acc₁, blanks₁, hm₁, hacc, hescape⟩ := exists_scanDouble_escape c hcolumn
      (cs.flatMap escape ++ '"' :: rest)
    obtain ⟨m', hread⟩ := ih acc₁ blanks₁ m₁ hm₁
    refine ⟨m', ?_⟩
    rw [List.flatMap_cons, List.append_assoc, hescape, hread, hacc]
    simp

/-- A text written between double quotes is read back up to the closing one. -/
theorem exists_double (cs : List Char) (hcolumn : 0 < m.column) (rest : List Char) :
    ∃ m', double ⟨m, cs.flatMap escape ++ '"' :: rest⟩ = some (String.ofList cs, ⟨m', rest⟩) := by
  obtain ⟨m', hread⟩ := exists_scanDouble_flatMap cs [] [] m hcolumn rest
  refine ⟨m', ?_⟩
  rw [double, Gap.nil, hread]
  simp [ofAcc]

end Double

end SiteNav.Yaml.Quoted
