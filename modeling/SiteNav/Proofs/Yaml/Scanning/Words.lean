import Mathlib.Data.List.TakeWhile
import Mathlib.Tactic.SplitIfs
import SiteNav.Yaml.Outline

/-!
# Words in a text that goes on

In a text that ends in a line break no word reaches the end. So to a scanner that stays in its line it
makes no difference whether there is more text behind that break: anchors, tags and directives are read
the same. Scanners are compared by one relation, with a rule for each way they are put together.
-/
namespace SiteNav.Yaml

theorem isBreak_cases {c : Char} (h : isBreak c = true) : c = '\n' ∨ c = '\u2028' ∨ c = '\u2029' := by
  rw [isBreak, Bool.or_eq_true, Bool.or_eq_true] at h
  simpa only [beq_iff_eq, or_assoc] using h

/-- A kind of characters that has no line break in it. -/
theorem not_isBreak_of {c : Char} {p : Char → Bool} (hc : p c = true) (hline : p '\n' = false)
    (hseparator : p '\u2028' = false) (hparagraph : p '\u2029' = false) : isBreak c = false := by
  refine Bool.eq_false_iff.2 fun h => ?_
  rcases isBreak_cases h with rfl | rfl | rfl
  · exact Bool.false_ne_true (hline.symm.trans hc)
  · exact Bool.false_ne_true (hseparator.symm.trans hc)
  · exact Bool.false_ne_true (hparagraph.symm.trans hc)

/-- The text ends in a line break. -/
def Ended (cs : List Char) : Prop :=
  ∃ b ∈ cs.getLast?, isBreak b = true

namespace Ended
variable {c : Char} {cs : List Char}

theorem ne_nil (h : Ended cs) : cs ≠ [] := by
  rintro rfl
  obtain ⟨b, hb, -⟩ := h
  cases hb

theorem of_cons (h : Ended (c :: cs)) (hcs : cs ≠ []) : Ended cs := by
  cases cs with
  | nil => exact absurd rfl hcs
  | cons d cs => exact h

/-- The break is not the first character. -/
theorem tail (h : Ended (c :: cs)) (hc : isBreak c = false) : Ended cs := by
  refine h.of_cons ?_
  rintro rfl
  obtain ⟨b, hb, hbreak⟩ := h
  cases Option.some.inj hb
  exact Bool.false_ne_true (hc.symm.trans hbreak)

theorem after (h : Ended (c :: cs)) (hc : ¬ isBreak c = true) : Ended cs :=
  h.tail (Bool.eq_false_iff.2 hc)

theorem drop (h : Ended cs) {n : Nat} (hn : n < cs.length) : Ended (cs.drop n) := by
  obtain ⟨b, hb, hbreak⟩ := h
  refine ⟨b, ?_, hbreak⟩
  rwa [List.getLast?_drop, if_neg (Nat.not_le.2 hn)]

/-- What comes after the first character. -/
theorem behind (h : Ended (c :: cs)) : cs = [] ∨ Ended cs := by
  by_cases hcs : cs = []
  · exact .inl hcs
  · exact .inr (h.of_cons hcs)

theorem of_or (h : c :: cs = [] ∨ Ended (c :: cs)) : Ended (c :: cs) :=
  h.resolve_left (List.cons_ne_nil c cs)

/-- A word at the beginning is there already without the rest. -/
theorem exists_of_append_eq {w rest tl : List Char} (h : Ended cs)
    (hw : w.all (fun c => !isBreak c) = true) (heq : cs ++ rest = w ++ tl) :
    ∃ tl', cs = w ++ tl' ∧ tl = tl' ++ rest ∧ Ended tl' := by
  induction w generalizing cs with
  | nil => exact ⟨cs, rfl, heq.symm, h⟩
  | cons d w ih =>
    cases cs with
    | nil => exact absurd rfl h.ne_nil
    | cons c cs =>
      obtain ⟨rfl, hcs⟩ := List.cons.inj heq
      rw [List.all_cons, Bool.and_eq_true, Bool.not_eq_true'] at hw
      obtain ⟨tl', rfl, htl, hended⟩ := ih (h.tail hw.1) hw.2 hcs
      exact ⟨tl', rfl, htl, hended⟩

theorem atGap (h : Ended cs) (rest : List Char) : atGap (cs ++ rest) = Yaml.atGap cs := by
  cases cs with
  | nil => exact absurd rfl h.ne_nil
  | cons c cs => rfl

theorem head? (h : Ended cs) (rest : List Char) : (cs ++ rest).head? = cs.head? := by
  cases cs with
  | nil => exact absurd rfl h.ne_nil
  | cons c cs => rfl

end Ended

/-- The same place, with more text behind what is left. -/
def Tail.before (t : Tail) (rest : List Char) : Tail :=
  ⟨t.mark, t.chars ++ rest⟩

/-- What the first scan finds the second finds as well, with `rest` behind it; and `P` is left. -/
def Agree {α : Type} (P : Tail → Prop) (rest : List Char) (x y : Option (α × Tail)) : Prop :=
  ∀ a t, x = .some (a, t) → P t ∧ y = some (a, t.before rest)

namespace Agree
variable {α β : Type} {P Q : Tail → Prop} {rest : List Char}

theorem none (y : Option (α × Tail)) : Agree P rest .none y := by
  rintro _ _ ⟨⟩

theorem some {a : α} {t : Tail} (ht : P t) : Agree P rest (.some (a, t)) (.some (a, t.before rest)) := by
  rintro _ _ ⟨⟩
  exact ⟨ht, rfl⟩

theorem bind {x y : Option (α × Tail)} {f g : α × Tail → Option (β × Tail)} (h : Agree P rest x y)
    (hf : ∀ a t, P t → Agree Q rest (f (a, t)) (g (a, t.before rest))) :
    Agree Q rest (x.bind f) (y.bind g) := by
  intro b u hbind
  obtain ⟨⟨a, t⟩, hx, hu⟩ := Option.bind_eq_some_iff.1 hbind
  obtain ⟨ht, rfl⟩ := h a t hx
  exact hf a t ht b u hu

theorem map {x y : Option (α × Tail)} (h : Agree P rest x y) (f : α → β) :
    Agree P rest (x.map fun (a, t) => (f a, t)) (y.map fun (a, t) => (f a, t)) := by
  intro b u hmap
  obtain ⟨⟨a, t⟩, hx, hu⟩ := Option.map_eq_some_iff.1 hmap
  obtain ⟨ht, rfl⟩ := h a t hx
  cases hu
  exact ⟨ht, rfl⟩

theorem ite {p q : Prop} [Decidable p] [Decidable q] {x y x' y' : Option (α × Tail)} (hpq : p ↔ q)
    (h : p → Agree P rest x y) (h' : ¬ p → Agree P rest x' y') :
    Agree P rest (if p then x else x') (if q then y else y') := by
  by_cases hp : p
  · rw [if_pos hp, if_pos (hpq.1 hp)]
    exact h hp
  · rw [if_neg hp, if_neg (fun hq => hp (hpq.2 hq))]
    exact h' hp

theorem mono {x y : Option (α × Tail)} (h : Agree P rest x y) (hPQ : ∀ t, P t → Q t) :
    Agree Q rest x y := by
  intro a t hx
  obtain ⟨ht, rfl⟩ := h a t hx
  exact ⟨hPQ t ht, rfl⟩

end Agree

/-! ## Words -/

def Tail.Ended (t : Tail) : Prop :=
  Yaml.Ended t.chars

namespace Tail.Ended
variable {t : Tail} (h : t.Ended) (rest : List Char)
include h

theorem atGap_before : (t.before rest).atGap = t.atGap :=
  Yaml.Ended.atGap h rest

theorem head?_before : (t.before rest).chars.head? = t.chars.head? :=
  Yaml.Ended.head? h rest

theorem length_word_lt (p : Char → Bool) : (t.takeWhile p).1.length < t.chars.length := by
  have hbegin := List.takeWhile_prefix (l := t.chars) fun c => p c && !isBreak c
  refine Nat.lt_of_le_of_ne hbegin.length_le fun hlength => ?_
  obtain ⟨b, hb, hbreak⟩ := h
  have hall := List.takeWhile_eq_self_iff.1 (hbegin.eq_of_length hlength) b (List.mem_of_getLast? hb)
  rw [hbreak, Bool.not_true, Bool.and_false] at hall
  cases hall

theorem takeWhile (p : Char → Bool) : (t.takeWhile p).2.Ended :=
  Yaml.Ended.drop h (h.length_word_lt p)

theorem takeWhile_before (p : Char → Bool) :
    (t.before rest).takeWhile p = ((t.takeWhile p).1, (t.takeWhile p).2.before rest) := by
  have hlt : (t.chars.takeWhile fun c => p c && !isBreak c).length < t.chars.length := h.length_word_lt p
  simp only [Tail.takeWhile, Tail.before]
  rw [List.takeWhile_append, if_neg (Nat.ne_of_lt hlt), List.drop_append_of_le_length (Nat.le_of_lt hlt)]

theorem expect_before (c : Char) : (t.before rest).expect c = (t.expect c).map (·.before rest) := by
  obtain ⟨m, cs⟩ := t
  cases cs with
  | nil => exact absurd rfl h.ne_nil
  | cons d cs =>
    change (if d = c then some _ else none) = Option.map _ (if d = c then some _ else none)
    split
    · rfl
    · rfl

theorem expect {c : Char} {t' : Tail} (hc : isBreak c = false) (ht : t.expect c = some t') : t'.Ended := by
  obtain ⟨m, cs⟩ := t
  cases cs with
  | nil => cases ht
  | cons d cs =>
    rw [Tail.expect] at ht
    dsimp only at ht
    split_ifs at ht with hd
    cases ht
    exact Yaml.Ended.tail h (hd ▸ hc)

end Tail.Ended

variable {t : Tail} (rest : List Char)

theorem length_before_inj {u v : Tail} :
    (u.before rest).chars.length = (v.before rest).chars.length ↔ u.chars.length = v.chars.length := by
  simp [Tail.before]

theorem anchorName?_before (h : t.Ended) :
    Agree Tail.Ended rest (anchorName? t) (anchorName? (t.before rest)) := by
  have hword := h.takeWhile isWordChar
  rw [anchorName?, anchorName?, h.takeWhile_before]
  dsimp only
  rw [hword.atGap_before, hword.head?_before]
  exact .ite Iff.rfl (fun _ => .some hword) fun _ => .none _

namespace Tag
variable {whole : Bool}

theorem not_isBreak_of_digit? {c : Char} {n : Nat} (h : Text.digit? 16 c = some n) : isBreak c = false :=
  not_isBreak_of (p := fun c => (Text.digit? 16 c).isSome) (Option.isSome_of_eq_some h) rfl rfl rfl

theorem not_isBreak_of_isTagChar {c : Char} (h : isTagChar whole c = true) : isBreak c = false := by
  cases whole with
  | false => exact not_isBreak_of h rfl rfl rfl
  | true => exact not_isBreak_of h rfl rfl rfl

theorem scanFrom_before {acc : List Char} {pending : Nat} {m : Mark} {cs : List Char} (h : Ended cs) :
    Agree Tail.Ended rest (scanFrom whole acc pending m cs) (scanFrom whole acc pending m (cs ++ rest)) := by
  fun_induction scanFrom whole acc pending m cs with
  | case1 acc m a b cs a' b' hb ha octet m' n hn ih =>
    have hcs := ((h.tail rfl).tail (not_isBreak_of_digit? ha)).tail (not_isBreak_of_digit? hb)
    simp only [List.cons_append, scanFrom, ha, hb]
    rw [show continuations? (a' * 16 + b') = some n from hn]
    exact ih hcs
  | case2 => exact .none _
  | case3 acc m a b cs a' b' hb ha octet m' n hoctet ih =>
    have hcs := ((h.tail rfl).tail (not_isBreak_of_digit? ha)).tail (not_isBreak_of_digit? hb)
    simp only [List.cons_append, scanFrom, ha, hb]
    rw [if_pos hoctet]
    exact ih hcs
  | case4 => exact .none _
  | case5 => exact .none _
  | case6 => exact .none _
  | case7 acc pending m c cs _ hc htag ih =>
    rw [List.cons_append, scanFrom, if_neg hc, if_pos htag]
    · exact ih (h.tail (not_isBreak_of_isTagChar htag))
    · exact fun _ _ _ hpercent _ => hc (.inr hpercent)
  | case8 acc pending m c cs _ hc htag =>
    rw [List.cons_append, scanFrom, if_neg hc, if_neg htag]
    · exact .some (t := ⟨m, c :: cs⟩) h
    · exact fun _ _ _ hpercent _ => hc (.inr hpercent)
  | case9 => exact absurd rfl h.ne_nil
  | case10 => exact .none _

theorem scan_before (h : t.Ended) : Agree Tail.Ended rest (scan whole t) (scan whole (t.before rest)) :=
  (scanFrom_before rest h).map fun acc => acc.reverse.takeWhile (· ≠ '\x00')

theorem handle?_before (h : t.Ended) : Agree Tail.Ended rest (handle? t) (handle? (t.before rest)) := by
  rw [handle?, handle?, h.expect_before]
  cases hmark : t.expect '!' with
  | none => exact .none _
  | some u =>
    have hword := (h.expect rfl hmark).takeWhile isWordChar
    dsimp only [Option.map_some, Option.bind_eq_bind, Option.bind_some]
    rw [(h.expect rfl hmark).takeWhile_before, hword.expect_before]
    cases hclose : (u.takeWhile isWordChar).2.expect '!' with
    | none => exact .some hword
    | some v => exact .some (hword.expect rfl hclose)

/-- A tag that is not written out between angle brackets. -/
theorem form?_of_ne (h : ∀ cs, t.chars ≠ '!' :: '<' :: cs) : form? t =
    (handle? t).bind fun (handle, t) => (scan false t).bind fun (suffix, u) =>
      if handle ≠ ['!'] ∧ isHandle handle then
        if u.chars.length = t.chars.length then none else some (ofChars handle suffix, u)
      else
        let suffix := handle.drop 1 ++ suffix
        some (if suffix.isEmpty then ofChars [] ['!'] else ofChars ['!'] suffix, u) := by
  rw [form?]
  split
  · exact absurd ‹_› (h _)
  · rfl

theorem form?_before (h : t.Ended) : Agree Tail.Ended rest (form? t) (form? (t.before rest)) := by
  by_cases hangle : ∃ cs, t.chars = '!' :: '<' :: cs
  · obtain ⟨m, chars⟩ := t
    obtain ⟨cs, rfl⟩ := hangle
    have hcs : Tail.Ended ⟨⟨m.line, m.column + 2⟩, cs⟩ := (Ended.tail h rfl).tail rfl
    refine (scan_before rest hcs).bind fun suffix u hu => ?_
    refine .ite (length_before_inj (v := ⟨m, cs⟩) rest).symm (fun _ => .none _) fun _ => ?_
    rw [hu.expect_before]
    cases hclose : u.expect '>' with
    | none => exact .none _
    | some v => exact .some (hu.expect rfl hclose)
  · have hne : ∀ cs, t.chars ≠ '!' :: '<' :: cs := fun cs hcs => hangle ⟨cs, hcs⟩
    have hne' : ∀ cs, (t.before rest).chars ≠ '!' :: '<' :: cs := by
      intro cs hcs
      obtain ⟨tl, htl, -, -⟩ := Ended.exists_of_append_eq (w := ['!', '<']) h rfl hcs
      exact hne tl htl
    rw [form?_of_ne hne, form?_of_ne hne']
    refine (handle?_before rest h).bind fun handle u hu => ?_
    refine (scan_before rest hu).bind fun suffix v hv => ?_
    refine .ite Iff.rfl (fun _ => ?_) fun _ => .some hv
    exact .ite (length_before_inj rest).symm (fun _ => .none _) fun _ => .some hv

theorem read?_before (flow : Bool) (h : t.Ended) :
    Agree Tail.Ended rest (read? flow t) (read? flow (t.before rest)) := by
  refine (form?_before rest h).bind fun tag u hu => ?_
  dsimp only
  rw [hu.atGap_before, hu.head?_before]
  exact .ite Iff.rfl (fun _ => .some hu) fun _ => .none _

end Tag

namespace Directive

theorem number?_before (h : t.Ended) : Agree Tail.Ended rest (number? t) (number? (t.before rest)) := by
  have hword := h.takeWhile Text.isDigit
  rw [number?, number?, h.takeWhile_before]
  refine .ite Iff.rfl (fun _ => ?_) fun _ => .none _
  change Agree _ _ ((Text.numeral? 10 (t.takeWhile Text.isDigit).1).map _) _
  cases Text.numeral? 10 (t.takeWhile Text.isDigit).1 with
  | none => exact .none _
  | some n => exact .some hword

theorem dropWhile_before (h : t.Ended) (p : Char → Bool) :
    (t.before rest).dropWhile p = (t.dropWhile p).before rest := by
  rw [Tail.dropWhile, Tail.dropWhile, h.takeWhile_before]

theorem version?_before (h : t.Ended) : Agree Tail.Ended rest (version? t) (version? (t.before rest)) := by
  rw [version?, version?, dropWhile_before rest h]
  refine (number?_before rest (h.takeWhile isBlank)).bind fun major u hu => ?_
  dsimp only
  rw [hu.expect_before]
  cases hdot : u.expect '.' with
  | none => exact .none _
  | some v =>
    exact (number?_before rest (hu.expect rfl hdot)).bind fun minor w hw => .some hw

theorem tagHandle?_before (h : t.Ended) :
    Agree Tail.Ended rest (tagHandle? t) (tagHandle? (t.before rest)) := by
  rw [tagHandle?, tagHandle?, dropWhile_before rest h]
  refine (Tag.handle?_before rest (h.takeWhile isBlank)).bind fun handle u hu => ?_
  dsimp only
  rw [hu.head?_before, dropWhile_before rest hu]
  refine .ite Iff.rfl (fun _ => .none _) fun _ => ?_
  refine (Tag.scan_before rest (hu.takeWhile isBlank)).bind fun expansion v hv => ?_
  dsimp only
  rw [hv.atGap_before]
  refine .ite ?_ (fun _ => .none _) fun _ => .some hv
  rw [Bool.or_eq_true, Bool.or_eq_true, decide_eq_true_iff, decide_eq_true_iff, length_before_inj]

theorem read?_before (h : t.Ended) : Agree Tail.Ended rest (read? t) (read? (t.before rest)) := by
  have hword := h.takeWhile isWordChar
  rw [read?, read?, h.takeWhile_before]
  dsimp only
  rw [hword.atGap_before]
  exact .ite Iff.rfl (fun _ => .none _) fun _ =>
    .ite Iff.rfl (fun _ => version?_before rest hword) fun _ =>
    .ite Iff.rfl (fun _ => tagHandle?_before rest hword) fun _ => .none _

end Directive

end SiteNav.Yaml
