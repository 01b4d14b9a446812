import SiteNav.Proofs.Json.AsTree

/-!
# What follows a JSON value

A list or map is read up to its bracket, and nothing of what follows it is looked at: with more text
behind it, it is the same node. Only a number has to be followed by something to be known to be
complete. Main statement: of a text that holds one list or map, the texts that begin with it and hold
one value are those in which only white space is added.
-/
namespace SiteNav.Json

theorem scanWord_append {value : Scalar} {ws cs : List Char} {pos : Pos} {r : Except Fault Scalar}
    {rest : List Char} {stop : Pos} (h : scanWord value ws cs pos = .done r rest stop)
    (more : List Char) : scanWord value ws (cs ++ more) pos = .done r (rest ++ more) stop := by
  induction ws generalizing cs pos with
  | nil =>
    cases h
    rfl
  | cons w ws ih =>
    cases cs with
    | nil => cases h
    | cons c cs =>
      simp only [scanWord] at h
      simp only [List.cons_append, scanWord]
      split at h
      · rw [if_pos ‹c = w›]
        exact ih h
      · cases h

namespace Literal

theorem scanFrom_append {st : State} {cs : List Char} {pos : Pos} {r : Except Fault String}
    {rest : List Char} {stop : Pos} (h : scanFrom st cs pos = .done r rest stop) (more : List Char) :
    scanFrom st (cs ++ more) pos = .done r (rest ++ more) stop := by
  fun_induction scanFrom st cs pos with
  | case1 => cases h
  | case2 st rest pos =>
    cases h
    rw [List.cons_append, scanFrom]
  | case3 st a b c d rest pos _ n hunit _ ih =>
    simp only [List.cons_append, scanFrom, hunit]
    exact ih h
  | case4 => cases h
  | case5 => cases h
  | case6 st c rest pos _ hu _ _ x hx ih =>
    rw [List.cons_append, List.cons_append, scanFrom, hx]
    · exact ih h
    · exact fun _ _ _ _ _ hc _ => hu hc
    · exact hu
  | case7 => cases h
  | case8 => cases h
  | case9 => cases h
  | case10 st c rest pos hquote _ _ hescape hend _ hc ih =>
    have hbackslash : c ≠ '\\' := by
      intro hc
      cases rest with
      | nil => exact hend hc rfl
      | cons d rest => exact hescape d rest hc rfl
    rw [List.cons_append, scanFrom, if_neg hc]
    · exact ih h
    all_goals (intros; simp_all)

end Literal

namespace Number
variable {negative : Bool} {s : Significand} {cs rest : List Char} {pos stop : Pos}
  {r : Except Fault Number}

theorem spanDigits_append {cs ds rest : List Char} (h : spanDigits cs = (ds, rest)) (hrest : rest ≠ [])
    (more : List Char) : spanDigits (cs ++ more) = (ds, rest ++ more) := by
  induction cs generalizing ds with
  | nil =>
    cases h
    exact absurd rfl hrest
  | cons c cs ih =>
    simp only [spanDigits] at h
    simp only [List.cons_append, spanDigits]
    split at h
    · rw [if_pos ‹_›]
      obtain ⟨rfl, rfl⟩ := Prod.mk.inj h
      rw [ih rfl]
    · rw [if_neg ‹_›]
      obtain ⟨rfl, rfl⟩ := Prod.mk.inj h
      rfl

/-- The digits of an exponent whose sign is behind. -/
def scanExponentDigits (negative : Bool) (s : Significand) (minus : Bool) (cs : List Char) (pos : Pos) :
    Scan Number :=
  match cs with
  | [] => .broken ⟨.endInValue, pos⟩ ⟨.invalidNumber, pos⟩
  | c :: _ =>
    match spanDigits cs with
    | ([], _) => .broken ⟨.invalidNumber, pos.nextByte c⟩ ⟨.invalidNumber, pos.nextByte c⟩
    | (ds, rest) => .done (withExponent negative s minus ds pos) rest (afterDigits pos ds.length)

theorem scanExponentDigits_append {minus : Bool}
    (h : scanExponentDigits negative s minus cs pos = .done r rest stop) (hrest : rest ≠ [])
    (more : List Char) :
    scanExponentDigits negative s minus (cs ++ more) pos = .done r (rest ++ more) stop := by
  cases cs with
  | nil => cases h
  | cons c cs =>
    rw [scanExponentDigits] at h
    rw [scanExponentDigits.eq_def]
    cases hspan : spanDigits (c :: cs) with
    | mk ds rest' =>
      rw [hspan] at h
      cases ds with
      | nil => cases h
      | cons d ds =>
        obtain ⟨rfl, rfl, rfl⟩ := Scan.done.inj h
        have hmore := spanDigits_append hspan hrest more
        rw [List.cons_append] at hmore
        simp only [List.cons_append, hmore]

theorem scanExponent_cons (c : Char) (cs : List Char) : scanExponent negative s (c :: cs) pos =
    if c = '+' then scanExponentDigits negative s false cs (pos.next c)
    else if c = '-' then scanExponentDigits negative s true cs (pos.next c)
    else scanExponentDigits negative s false (c :: cs) pos := by
  by_cases hplus : c = '+'
  · subst hplus
    rfl
  by_cases hminus : c = '-'
  · subst hminus
    rfl
  rw [if_neg hplus, if_neg hminus, scanExponent.eq_def]
  split
  next heq =>
    split at heq
    · next hcons => exact absurd (List.cons.inj hcons).1 hplus
    · next hcons => exact absurd (List.cons.inj hcons).1 hminus
    · cases heq
      rfl

theorem scanExponent_append (h : scanExponent negative s cs pos = .done r rest stop) (hrest : rest ≠ [])
    (more : List Char) : scanExponent negative s (cs ++ more) pos = .done r (rest ++ more) stop := by
  cases cs with
  | nil => cases h
  | cons c cs =>
    rw [List.cons_append, scanExponent_cons]
    rw [scanExponent_cons] at h
    split_ifs at h ⊢
    · exact scanExponentDigits_append h hrest more
    · exact scanExponentDigits_append h hrest more
    · exact scanExponentDigits_append h hrest more

theorem scanFraction_append (h : scanFraction negative s cs pos = .done r rest stop) (hrest : rest ≠ [])
    (more : List Char) : scanFraction negative s (cs ++ more) pos = .done r (rest ++ more) stop := by
  rw [scanFraction] at h ⊢
  cases hspan : spanDigits cs with
  | mk ds tail =>
    rw [hspan] at h
    cases ds with
    | nil => cases h
    | cons d ds =>
      cases tail with
      | nil =>
        obtain ⟨-, rfl, -⟩ := Scan.done.inj h
        exact absurd rfl hrest
      | cons c tail =>
        rw [spanDigits_append hspan (List.cons_ne_nil _ _)]
        by_cases he : c = 'e'
        · subst he
          exact scanExponent_append h hrest more
        by_cases hE : c = 'E'
        · subst hE
          exact scanExponent_append h hrest more
        dsimp only [List.cons_append] at h ⊢
        split at h
        · next heq => exact absurd (List.cons.inj heq).1 he
        · next heq => exact absurd (List.cons.inj heq).1 hE
        obtain ⟨rfl, rfl, rfl⟩ := Scan.done.inj h
        split
        · next heq => exact absurd (List.cons.inj heq).1 he
        · next heq => exact absurd (List.cons.inj heq).1 hE
        · rfl

theorem scanTail_cons (c : Char) (cs : List Char) : scanTail negative s (c :: cs) pos =
    if c = '.' then scanFraction negative s cs (pos.next c)
    else if c = 'e' ∨ c = 'E' then scanExponent negative s cs (pos.next c)
    else if s.cut then .done (ofScaled negative s s.exponent pos) (c :: cs) pos
    else .done (.ok (ofWhole negative s.value)) (c :: cs) pos := by
  by_cases hdot : c = '.'
  · subst hdot
    rfl
  rw [if_neg hdot]
  by_cases hexponent : c = 'e' ∨ c = 'E'
  · rw [if_pos hexponent]
    rcases hexponent with rfl | rfl
    · rfl
    · rfl
  rw [if_neg hexponent, scanTail]
  · exact fun _ heq => hdot (List.cons.inj heq).1
  · exact fun _ heq => hexponent (.inl (List.cons.inj heq).1)
  · exact fun _ heq => hexponent (.inr (List.cons.inj heq).1)

theorem ne_nil_of_scanTail (h : scanTail negative s cs pos = .done r rest stop) (hrest : rest ≠ []) :
    cs ≠ [] := by
  rintro rfl
  rw [scanTail] at h
  · split at h
    all_goals exact hrest (Scan.done.inj h).2.1.symm
  all_goals
    intro _ heq
    cases heq

theorem scanTail_append (h : scanTail negative s cs pos = .done r rest stop) (hrest : rest ≠ [])
    (more : List Char) : scanTail negative s (cs ++ more) pos = .done r (rest ++ more) stop := by
  cases cs with
  | nil => exact absurd rfl (ne_nil_of_scanTail h hrest)
  | cons c cs =>
    rw [scanTail_cons] at h
    rw [List.cons_append, scanTail_cons]
    split_ifs at h ⊢
    · exact scanFraction_append h hrest more
    · exact scanExponent_append h hrest more
    · obtain ⟨rfl, rfl, rfl⟩ := Scan.done.inj h
      rw [List.cons_append]
    · obtain ⟨rfl, rfl, rfl⟩ := Scan.done.inj h
      rw [List.cons_append]

theorem scanUnsigned_append (h : scanUnsigned negative cs pos = .done r rest stop) (hrest : rest ≠ [])
    (more : List Char) : scanUnsigned negative (cs ++ more) pos = .done r (rest ++ more) stop := by
  cases cs with
  | nil => cases h
  | cons c cs =>
    by_cases hzero : c = '0'
    · subst hzero
      rw [List.cons_append]
      rw [scanUnsigned] at h ⊢
      split_ifs at h with hdigit
      have hcs := ne_nil_of_scanTail h hrest
      rw [List.head?_append_of_ne_nil _ hcs, if_neg hdigit]
      exact scanTail_append h hrest more
    have hspan : ∀ cs, scanUnsigned negative (c :: cs) pos =
        if (spanDigits (c :: cs)).1 = [] then
          .broken ⟨.invalidNumber, pos.nextByte c⟩ ⟨.invalidNumber, pos.nextByte c⟩
        else scanTail negative (wholePart (spanDigits (c :: cs)).1) (spanDigits (c :: cs)).2
          (afterDigits pos (spanDigits (c :: cs)).1.length) := by
      intro cs
      rw [scanUnsigned]
      · rcases spanDigits (c :: cs) with ⟨_ | ⟨d, ds⟩, rest⟩
        · rfl
        · rfl
      · exact hzero
    rw [hspan] at h
    rw [List.cons_append, hspan]
    split_ifs at h with hds
    have hmore := spanDigits_append (Prod.eta (spanDigits (c :: cs))).symm (ne_nil_of_scanTail h hrest) more
    rw [List.cons_append] at hmore
    rw [hmore, if_neg hds]
    exact scanTail_append h hrest more

theorem scan_append (h : scan cs pos = .done r rest stop) (hrest : rest ≠ []) (more : List Char) :
    scan (cs ++ more) pos = .done r (rest ++ more) stop := by
  cases cs with
  | nil => cases h
  | cons c cs =>
    by_cases hminus : c = '-'
    · subst hminus
      exact scanUnsigned_append h hrest more
    have hunsigned : ∀ cs, scan (c :: cs) pos = scanUnsigned false (c :: cs) pos := by
      intro cs
      rw [scan]
      exact fun _ heq => hminus (List.cons.inj heq).1
    rw [hunsigned] at h
    rw [List.cons_append, hunsigned]
    exact scanUnsigned_append h hrest more

end Number

/-! ## Readers -/

/-- The same place in a text that goes on after its end. -/
def Cursor.before (c : Cursor) (more : List Char) : Cursor :=
  ⟨c.rest ++ more, c.pos⟩

theorem Cursor.before_mk (cs more : List Char) (pos : Pos) :
    (Cursor.mk cs pos).before more = ⟨cs ++ more, pos⟩ := rfl

theorem skipBlank_before {cs : List Char} {pos : Pos} (h : (skipBlank cs pos).rest ≠ [])
    (more : List Char) : skipBlank (cs ++ more) pos = (skipBlank cs pos).before more := by
  induction cs generalizing pos with
  | nil => exact absurd rfl h
  | cons c cs ih =>
    rw [skipBlank] at h ⊢
    rw [List.cons_append, skipBlank]
    split_ifs at h ⊢
    · exact ih h
    · rfl

/-- What reading comes to where it goes on to some place of the text does not depend on what follows
the text; a number has to be followed by something there. -/
structure Continues (more : List Char) (fuel : Nat) : Prop where
  value : ∀ {c c' : Cursor} {n : Node}, readValue fuel c = (n, some c') →
    (c'.rest ≠ [] ∨ n.ending.isSome) → ∀ k,
      readValue (fuel + k) (c.before more) = (n, some (c'.before more))
  items : ∀ {first : Bool} {c c' : Cursor} {r : List Node × Ending},
    readItems fuel first c = (r, some c') → ∀ k,
      readItems (fuel + k) first (c.before more) = (r, some (c'.before more))
  item : ∀ {c c' : Cursor} {r : List Node × Ending}, readItem fuel c = (r, some c') → ∀ k,
    readItem (fuel + k) (c.before more) = (r, some (c'.before more))
  entries : ∀ {first : Bool} {c c' : Cursor} {r : List (Key × Node) × Ending},
    readEntries fuel first c = (r, some c') → ∀ k,
      readEntries (fuel + k) first (c.before more) = (r, some (c'.before more))
  entry : ∀ {c c' : Cursor} {r : List (Key × Node) × Ending}, readEntry fuel c = (r, some c') → ∀ k,
    readEntry (fuel + k) (c.before more) = (r, some (c'.before more))

theorem done_of_ofScan {α : Type} {start : Pos} {f : α → Scalar} {x : Scan α} {n : Node} {c : Cursor}
    (h : ofScan start f x = (n, some c)) :
    ∃ value, x = .done value c.rest c.pos ∧ n = .scalar start c.pos (value.map f) := by
  cases x with
  | broken wanted skipped => cases h
  | done value rest pos =>
    cases h
    exact ⟨value, rfl, rfl⟩

theorem rest_ne_nil_of_readItems {fuel : Nat} {first : Bool} {c c' : Cursor} {r : List Node × Ending}
    (h : readItems fuel first c = (r, some c')) : c.rest ≠ [] := by
  obtain ⟨cs, pos⟩ := c
  rintro rfl
  cases fuel with
  | zero => cases h
  | succ fuel => cases h

theorem rest_ne_nil_of_readEntries {fuel : Nat} {first : Bool} {c c' : Cursor}
    {r : List (Key × Node) × Ending} (h : readEntries fuel first c = (r, some c')) : c.rest ≠ [] := by
  obtain ⟨cs, pos⟩ := c
  rintro rfl
  cases fuel with
  | zero => cases h
  | succ fuel => cases h

theorem rest_ne_nil_of_readValue {fuel : Nat} {c c' : Cursor} {n : Node}
    (h : readValue fuel c = (n, some c')) : c.rest ≠ [] := by
  obtain ⟨cs, pos⟩ := c
  rintro rfl
  cases fuel with
  | zero => cases h
  | succ fuel => cases h

theorem rest_ne_nil_of_skipBlank {cs : List Char} {pos : Pos} (h : (skipBlank cs pos).rest ≠ []) :
    cs ≠ [] := by
  rintro rfl
  exact h rfl

/-- An entry that is read has a key, a colon, a value and what follows it. -/
theorem exists_of_readEntry {fuel : Nat} {c c' : Cursor} {r : List (Key × Node) × Ending}
    (h : readEntry (fuel + 1) c = (r, some c')) : ∃ text rest pos cs pos' node next r',
      Literal.scan c.rest c.pos = .done text rest pos ∧ skipBlank rest pos = ⟨':' :: cs, pos'⟩ ∧
      readValue fuel (skipBlank cs (pos'.next ':')) = (node, some next) ∧
      readEntries fuel false (skipBlank next.rest next.pos) = (r', some c') ∧
      r = ((⟨text, pos'⟩, node) :: r'.1, r'.2) := by
  generalize hfuel : fuel + 1 = fuel' at h
  fun_cases readEntry fuel' c with
  | case1 => cases hfuel
  | case2 fuel' c wanted skipped hscan =>
    rw [readEntry, hscan] at h
    cases h
  | case3 fuel' c text rest pos hscan pos' cs node hvalue hskip =>
    rw [readEntry, hscan] at h
    simp only [hskip, hvalue] at h
    cases h
  | case4 fuel' c text rest pos hscan pos' cs node next hvalue hskip =>
    cases hfuel
    rw [readEntry, hscan] at h
    simp only [hskip, hvalue] at h
    rcases hentries : readEntries fuel false (skipBlank next.rest next.pos) with ⟨r', next'⟩
    rw [hentries] at h
    obtain ⟨rfl, rfl⟩ := Prod.mk.inj h
    exact ⟨text, rest, pos, cs, pos', node, next, r', hscan, hskip, hvalue, hentries, rfl⟩
  | case5 fuel' c text rest pos hscan pos' ds hskip =>
    rw [readEntry, hscan] at h
    simp only [hskip] at h
    cases h
  | case6 fuel' c text rest pos hscan pos' hskip =>
    rw [readEntry, hscan] at h
    simp only [hskip] at h
    cases h
  | case7 fuel' c text rest pos hscan ds pos' hskip hcolon hclose hnil =>
    rw [readEntry, hscan] at h
    simp only [hskip] at h
    cases h

theorem readEntry_of {fuel : Nat} {c c' next : Cursor} {text : Except Fault String}
    {rest cs : List Char} {pos pos' : Pos} {node : Node} {r : List (Key × Node) × Ending}
    (hscan : Literal.scan c.rest c.pos = .done text rest pos)
    (hskip : skipBlank rest pos = ⟨':' :: cs, pos'⟩)
    (hvalue : readValue fuel (skipBlank cs (pos'.next ':')) = (node, some next))
    (hentries : readEntries fuel false (skipBlank next.rest next.pos) = (r, some c')) :
    readEntry (fuel + 1) c = (((⟨text, pos'⟩, node) :: r.1, r.2), some c') := by
  rw [readEntry, hscan]
  simp only [hskip, hvalue, hentries, prepend]

namespace Continues
variable {more : List Char} {fuel : Nat}

theorem readValue_succ (h : Continues more fuel) {c c' : Cursor} {n : Node}
    (hread : readValue (fuel + 1) c = (n, some c')) (hend : c'.rest ≠ [] ∨ n.ending.isSome) (k : Nat) :
    readValue (fuel + 1 + k) (c.before more) = (n, some (c'.before more)) := by
  rw [Nat.add_right_comm]
  generalize hfuel : fuel + 1 = fuel' at hread
  fun_cases readValue fuel' c with
  | case1 => cases hfuel
  | case2 => cases hread
  | case3 fuel' pos cs =>
    obtain ⟨value, hscan, rfl⟩ := done_of_ofScan hread
    simp only [Cursor.before, List.cons_append, readValue, scanWord_append hscan]
    rfl
  | case4 fuel' pos cs =>
    obtain ⟨value, hscan, rfl⟩ := done_of_ofScan hread
    simp only [Cursor.before, List.cons_append, readValue, scanWord_append hscan]
    rfl
  | case5 fuel' pos cs =>
    obtain ⟨value, hscan, rfl⟩ := done_of_ofScan hread
    simp only [Cursor.before, List.cons_append, readValue, scanWord_append hscan]
    rfl
  | case6 fuel' pos cs =>
    obtain ⟨value, hscan, rfl⟩ := done_of_ofScan hread
    simp only [Cursor.before, List.cons_append, readValue, Literal.scan]
    rw [Literal.scanFrom_append hscan]
    rfl
  | case7 fuel' pos cs items ending next hitems =>
    cases hfuel
    rw [readValue, hitems] at hread
    obtain ⟨rfl, rfl⟩ := Prod.mk.inj hread
    have hmore := skipBlank_before (rest_ne_nil_of_readItems hitems) more
    rw [Cursor.before_mk, List.cons_append, readValue, hmore, h.items hitems k]
  | case8 fuel' pos cs entries ending next hentries =>
    cases hfuel
    rw [readValue, hentries] at hread
    obtain ⟨rfl, rfl⟩ := Prod.mk.inj hread
    have hmore := skipBlank_before (rest_ne_nil_of_readEntries hentries) more
    rw [Cursor.before_mk, List.cons_append, readValue, hmore, h.entries hentries k]
  | case9 fuel' pos c cs hn ht hf hquote hlist hmap hnumber =>
    have hother : ∀ fuel cs, readValue (fuel + 1) ⟨c :: cs, pos⟩ =
        ofScan pos .number (Number.scan (c :: cs) pos) := by
      intro fuel cs
      rw [readValue, if_pos hnumber]
      all_goals assumption
    rw [Nat.succ_eq_add_one, hother] at hread
    obtain ⟨value, hscan, rfl⟩ := done_of_ofScan hread
    have hmore := Number.scan_append hscan (hend.resolve_right nofun) more
    rw [List.cons_append] at hmore
    rw [Cursor.before_mk, List.cons_append, hother, hmore]
    rfl
  | case10 fuel' pos c cs hn ht hf hquote hlist hmap hnumber =>
    rw [readValue, if_neg hnumber] at hread
    · cases hread
    all_goals assumption

theorem readItems_comma {cs ds : List Char} {d : Char} {pos pos' : Pos}
    (hskip : skipBlank cs (pos.next ',') = ⟨d :: ds, pos'⟩) (hd : d ≠ ']') (fuel : Nat) :
    readItems (fuel + 1) false ⟨',' :: cs, pos⟩ = readItem fuel ⟨d :: ds, pos'⟩ := by
  rw [readItems, if_neg (by decide), if_neg (by decide), if_pos rfl, hskip]
  dsimp only
  split
  · next heq => cases heq
  · next heq => exact absurd (List.cons.inj heq).1 hd
  · rfl

theorem readItems_succ (h : Continues more fuel) {first : Bool} {c c' : Cursor} {r : List Node × Ending}
    (hread : readItems (fuel + 1) first c = (r, some c')) (k : Nat) :
    readItems (fuel + 1 + k) first (c.before more) = (r, some (c'.before more)) := by
  rw [Nat.add_right_comm]
  generalize hfuel : fuel + 1 = fuel' at hread
  fun_cases readItems fuel' first c with
  | case1 => cases hfuel
  | case2 => cases hread
  | case3 fuel' pos cs =>
    rw [readItems, if_pos rfl] at hread
    cases hread
    rw [Cursor.before_mk, List.cons_append, readItems, if_pos rfl, Cursor.before_mk]
  | case4 fuel' pos c cs hc =>
    cases hfuel
    rw [readItems, if_neg hc, if_pos rfl] at hread
    rw [Cursor.before_mk, List.cons_append, readItems, if_neg hc, if_pos rfl]
    exact h.item hread k
  | case5 fuel' first pos cs hfirst pos' hc hskip =>
    rw [readItems, if_neg hc, if_neg hfirst, if_pos rfl, hskip] at hread
    cases hread
  | case6 fuel' first pos cs hfirst pos' ds hc hskip =>
    rw [readItems, if_neg hc, if_neg hfirst, if_pos rfl, hskip] at hread
    cases hread
  | case7 fuel' first pos cs hfirst ds pos' hnil hclose hc hskip =>
    cases hfuel
    obtain rfl : first = false := Bool.eq_false_iff.2 hfirst
    cases ds with
    | nil => exact absurd rfl hnil
    | cons d ds =>
      have hd : d ≠ ']' := fun h => hclose ds (h ▸ rfl)
      rw [Nat.succ_eq_add_one, readItems_comma hskip hd] at hread
      have hmore := skipBlank_before (show (skipBlank cs (pos.next ',')).rest ≠ [] by rw [hskip]; nofun) more
      rw [hskip, Cursor.before_mk, List.cons_append] at hmore
      rw [Cursor.before_mk, List.cons_append, readItems_comma hmore hd]
      exact h.item hread k
  | case8 fuel' first pos c cs hclose hfirst hcomma =>
    rw [readItems, if_neg hclose, if_neg hfirst, if_neg hcomma] at hread
    cases hread

theorem readItem_succ (h : Continues more fuel) {c c' : Cursor} {r : List Node × Ending}
    (hread : readItem (fuel + 1) c = (r, some c')) (k : Nat) :
    readItem (fuel + 1 + k) (c.before more) = (r, some (c'.before more)) := by
  rw [Nat.add_right_comm]
  rw [readItem] at hread ⊢
  rcases hvalue : readValue fuel c with ⟨node, _ | next⟩
  · rw [hvalue] at hread
    cases hread
  · rw [hvalue] at hread
    rcases hitems : readItems fuel false (skipBlank next.rest next.pos) with ⟨r', next'⟩
    simp only [hitems, prepend] at hread
    obtain ⟨rfl, rfl⟩ := Prod.mk.inj hread
    have hrest := rest_ne_nil_of_readItems hitems
    have hnext : next.rest ≠ [] := fun h => hrest (by rw [h]; rfl)
    rw [h.value hvalue (.inl hnext) k]
    have hmore := h.items hitems k
    simp only [Cursor.before, skipBlank_before hrest more, prepend] at hmore ⊢
    rw [hmore]

theorem readEntry_succ (h : Continues more fuel) {c c' : Cursor} {r : List (Key × Node) × Ending}
    (hread : readEntry (fuel + 1) c = (r, some c')) (k : Nat) :
    readEntry (fuel + 1 + k) (c.before more) = (r, some (c'.before more)) := by
  obtain ⟨text, rest, pos, cs, pos', node, next, r', hscan, hskip, hvalue, hentries, rfl⟩ :=
    exists_of_readEntry hread
  have hnext : (skipBlank next.rest next.pos).rest ≠ [] := rest_ne_nil_of_readEntries hentries
  have hcs : (skipBlank cs (pos'.next ':')).rest ≠ [] := rest_ne_nil_of_readValue hvalue
  have hskip' := skipBlank_before (show (skipBlank rest pos).rest ≠ [] by rw [hskip]; nofun) more
  rw [hskip, Cursor.before_mk, List.cons_append] at hskip'
  have hvalue' := h.value hvalue (.inl (rest_ne_nil_of_skipBlank hnext)) k
  rw [← skipBlank_before hcs] at hvalue'
  have hentries' := h.entries hentries k
  rw [← skipBlank_before hnext] at hentries'
  rw [Nat.add_right_comm]
  exact readEntry_of (Literal.scanFrom_append hscan more) hskip' hvalue' hentries'

theorem readEntries_succ (h : Continues more fuel) {first : Bool} {c c' : Cursor}
    {r : List (Key × Node) × Ending} (hread : readEntries (fuel + 1) first c = (r, some c')) (k : Nat) :
    readEntries (fuel + 1 + k) first (c.before more) = (r, some (c'.before more)) := by
  rw [Nat.add_right_comm]
  generalize hfuel : fuel + 1 = fuel' at hread
  fun_cases readEntries fuel' first c with
  | case1 => cases hfuel
  | case2 => cases hread
  | case3 fuel' first pos cs =>
    rw [readEntries, if_pos rfl] at hread
    cases hread
    rw [Cursor.before_mk, List.cons_append, readEntries, if_pos rfl, Cursor.before_mk]
  | case4 fuel' pos cs hc =>
    cases hfuel
    rw [readEntries, if_neg hc, if_pos rfl, if_pos rfl] at hread
    rw [Cursor.before_mk, List.cons_append, readEntries, if_neg hc, if_pos rfl, if_pos rfl]
    exact h.entry hread k
  | case5 fuel' pos c cs hc hquote =>
    rw [readEntries, if_neg hc, if_pos rfl, if_neg hquote] at hread
    cases hread
  | case6 fuel' first pos cs hfirst pos' hc hskip =>
    rw [readEntries, if_neg hc, if_neg hfirst, if_pos rfl, hskip] at hread
    cases hread
  | case7 fuel' first pos cs hfirst pos' ds hc hskip =>
    cases hfuel
    rw [readEntries, if_neg hc, if_neg hfirst, if_pos rfl, hskip] at hread
    have hskip' := skipBlank_before (show (skipBlank cs (pos.next ',')).rest ≠ [] by rw [hskip]; nofun) more
    rw [hskip, Cursor.before_mk, List.cons_append] at hskip'
    rw [Cursor.before_mk, List.cons_append, readEntries, if_neg hc, if_neg hfirst, if_pos rfl, hskip']
    exact h.entry hread k
  | case8 fuel' first pos cs hfirst pos' ds hc hskip =>
    rw [readEntries, if_neg hc, if_neg hfirst, if_pos rfl, hskip] at hread
    cases hread
  | case9 fuel' first pos cs hfirst ds pos' hnil hquote hclose hc hskip =>
    rw [readEntries, if_neg hc, if_neg hfirst, if_pos rfl, hskip] at hread
    dsimp only at hread
    split at hread
    · cases hread
    · exact absurd rfl (hquote _)
    · cases hread
    · cases hread
  | case10 fuel' first pos c cs hclose hfirst hcomma =>
    rw [readEntries, if_neg hclose, if_neg hfirst, if_neg hcomma] at hread
    cases hread

end Continues

theorem continues (more : List Char) (fuel : Nat) : Continues more fuel := by
  induction fuel with
  | zero => exact ⟨nofun, nofun, nofun, nofun, nofun⟩
  | succ fuel ih =>
    exact ⟨ih.readValue_succ, ih.readItems_succ, ih.readItem_succ, ih.readEntries_succ, ih.readEntry_succ⟩

/-! ## Values that break off -/

/-- A list or map with a proper end is followed by the rest of the text. -/
def GoesOn {α : Type} (r : Reading (List α × Ending)) : Prop :=
  ∀ pos, r.1.2 = .closed pos → r.2.isSome

theorem goesOn_faultyEnd {α : Type} (e f s : Cause) (pos : Pos) :
    GoesOn (faultyEnd e f s pos : Reading (List α × Ending)) := nofun

theorem goesOn_prepend {α : Type} {r : Reading (List α × Ending)} (h : GoesOn r) (a : α) :
    GoesOn (prepend a r) := h

theorem goesOn_items (fuel : Nat) :
    (∀ first c, GoesOn (readItems fuel first c)) ∧ ∀ c, GoesOn (readItem fuel c) := by
  induction fuel with
  | zero => exact ⟨fun _ _ => goesOn_faultyEnd _ _ _ _, fun _ => goesOn_faultyEnd _ _ _ _⟩
  | succ fuel ih =>
    obtain ⟨hitems, hitem⟩ := ih
    refine ⟨fun first c => ?_, fun c => ?_⟩
    · generalize hfuel : fuel + 1 = fuel'
      fun_cases readItems fuel' first c with
      | case1 => cases hfuel
      | case3 => exact fun _ _ => rfl
      | case4 => exact Nat.succ.inj hfuel ▸ hitem _
      | case7 => exact Nat.succ.inj hfuel ▸ hitem _
      | case2 | case5 | case6 | case8 => exact goesOn_faultyEnd _ _ _ _
    · rw [readItem]
      rcases readValue fuel c with ⟨node, _ | next⟩
      · exact goesOn_prepend (goesOn_faultyEnd _ _ _ _) node
      · exact goesOn_prepend (hitems _ _) node

theorem goesOn_entries (fuel : Nat) :
    (∀ first c, GoesOn (readEntries fuel first c)) ∧ ∀ c, GoesOn (readEntry fuel c) := by
  induction fuel with
  | zero => exact ⟨fun _ _ => goesOn_faultyEnd _ _ _ _, fun _ => goesOn_faultyEnd _ _ _ _⟩
  | succ fuel ih =>
    obtain ⟨hentries, hentry⟩ := ih
    refine ⟨fun first c => ?_, fun c => ?_⟩
    · generalize hfuel : fuel + 1 = fuel'
      fun_cases readEntries fuel' first c with
      | case1 => cases hfuel
      | case3 => exact fun _ _ => rfl
      | case4 => exact Nat.succ.inj hfuel ▸ hentry _
      | case7 => exact Nat.succ.inj hfuel ▸ hentry _
      | case2 | case5 | case6 | case8 | case9 | case10 => exact goesOn_faultyEnd _ _ _ _
    · generalize hfuel : fuel + 1 = fuel'
      fun_cases readEntry fuel' c with
      | case1 => cases hfuel
      | case2 => exact nofun
      | case4 => exact goesOn_prepend (Nat.succ.inj hfuel ▸ hentries _ _) _
      | case3 | case5 | case6 | case7 => exact goesOn_prepend (goesOn_faultyEnd _ _ _ _) _

theorem ending_ofScan {α : Type} (start : Pos) (f : α → Scalar) (x : Scan α) :
    (ofScan start f x).1.ending = none := by
  cases x <;> rfl

/-- Reading a list or map with a proper end goes on behind it. -/
theorem isSome_of_readValue {fuel : Nat} {c : Cursor} {stop : Pos} :
    (readValue fuel c).1.ending = some (.closed stop) → (readValue fuel c).2.isSome := by
  fun_cases readValue fuel c with
  | case1 | case2 | case10 => exact nofun
  | case3 | case4 | case5 | case6 | case9 =>
    rw [ending_ofScan]
    exact nofun
  | case7 fuel pos cs items ending next hitems =>
    intro h
    have hnext := (goesOn_items fuel).1 true (skipBlank cs (pos.next '['))
    rw [hitems] at hnext
    exact hnext stop (Option.some.inj h)
  | case8 fuel pos cs entries ending next hentries =>
    intro h
    have hnext := (goesOn_entries fuel).1 true (skipBlank cs (pos.next '\x7b'))
    rw [hentries] at hnext
    exact hnext stop (Option.some.inj h)

theorem rest_skipBlank_eq_nil_iff (cs : List Char) (pos : Pos) :
    (skipBlank cs pos).rest = [] ↔ ∀ c ∈ cs, isBlank c = true := by
  induction cs generalizing pos with
  | nil => exact iff_of_true rfl nofun
  | cons c cs ih =>
    rw [skipBlank, List.forall_mem_cons]
    cases hc : isBlank c with
    | true => simpa using ih _
    | false => simp

theorem rest_skipBlank_append {cs : List Char} {pos : Pos} (h : (skipBlank cs pos).rest = [])
    (more : List Char) (pos' : Pos) : (skipBlank (cs ++ more) pos').rest = [] ↔
      ∀ c ∈ more, isBlank c = true := by
  rw [rest_skipBlank_eq_nil_iff, List.forall_mem_append]
  exact and_iff_right ((rest_skipBlank_eq_nil_iff cs pos).1 h)

theorem trailing_eq_none_iff (c : Cursor) :
    (if c.rest.isEmpty then none else some (c.pos.peek c.rest)) = none ↔ c.rest = [] := by
  rw [← List.isEmpty_iff]
  cases c.rest.isEmpty with
  | true => exact iff_of_true rfl rfl
  | false => exact iff_of_false nofun nofun

/-- A list or map with a proper end. -/
theorem exists_ending_of_tree? {n : Node} {t : Tree} (h : n.tree? = some t) (ht : ∀ v, t ≠ .scalar v) :
    ∃ stop, n.ending = some (.closed stop) := by
  obtain ⟨_, _, _, rfl, rfl⟩ | ⟨_, _, stop, _, rfl, _⟩ | ⟨_, _, stop, _, rfl, _⟩ := n.cases_of_tree? h
  · exact absurd rfl (ht _)
  · exact ⟨stop, rfl⟩
  · exact ⟨stop, rfl⟩

/-- A text that is a list or map is the same one with any text behind it, and nothing is left over if
that is white space. -/
theorem read_append_more {cs : List Char} {t : Tree} {root : Node} (h : read cs = ⟨root, none⟩)
    (hroot : root.tree? = some t) (ht : ∀ v, t ≠ .scalar v) (more : List Char) :
    (read (cs ++ more)).root = root ∧
      ((read (cs ++ more)).trailing = none ↔ ∀ c ∈ more, isBlank c = true) := by
  obtain ⟨stop, hending⟩ := exists_ending_of_tree? hroot ht
  rcases hvalue : readValue (3 * cs.length + 4) (skipBlank cs .start) with ⟨root', next⟩
  have hroot' : root' = root := by
    rw [read, hvalue] at h
    cases next with
    | none => exact congrArg Contents.root h
    | some c => exact congrArg Contents.root h
  subst hroot'
  obtain ⟨c, rfl⟩ : ∃ c, next = some c := by
    have hsome := isSome_of_readValue (by rw [hvalue]; exact hending)
    rw [hvalue] at hsome
    exact Option.isSome_iff_exists.1 hsome
  have hblank : (skipBlank c.rest c.pos).rest = [] := by
    rw [read, hvalue] at h
    exact (trailing_eq_none_iff _).1 (congrArg Contents.trailing h)
  have hmore := (continues more _).value hvalue (.inr (by rw [hending]; rfl)) (3 * more.length)
  rw [← skipBlank_before (rest_ne_nil_of_readValue hvalue)] at hmore
  have hfuel : 3 * (cs ++ more).length + 4 = 3 * cs.length + 4 + 3 * more.length := by
    rw [List.length_append]
    omega
  rw [read, hfuel, hmore]
  refine ⟨rfl, ?_⟩
  exact (trailing_eq_none_iff _).trans (rest_skipBlank_append hblank more c.pos)

/-- A text that is a list or map is read the same with white space behind it, and not at all with
anything else. -/
theorem readWith_append {text : String} {t : Tree} (h : tree? text = some t) (ht : ∀ v, t ≠ .scalar v)
    (more : String) {α : Type} (reader : Node → Except Error α) :
    ((∀ c ∈ more.toList, isBlank c = true) → readWith reader (text ++ more) = readWith reader text) ∧
      ((∃ c ∈ more.toList, isBlank c = false) → ∃ e, readWith reader (text ++ more) = .error e) := by
  rw [tree?] at h
  split at h
  · next root hread =>
    obtain ⟨hroot, htrailing⟩ := read_append_more hread h ht more.toList
    rw [← String.toList_append] at hroot htrailing
    rw [readWith, readWith, hread, hroot]
    constructor
    · intro hblank
      rw [htrailing.2 hblank]
    · rintro ⟨c, hc, hblank⟩
      cases htrailing' : (read (text ++ more).toList).trailing with
      | none => exact absurd (htrailing.1 htrailing' c hc) (by rw [hblank]; exact Bool.false_ne_true)
      | some pos =>
        cases reader root with
        | ok a => exact ⟨_, rfl⟩
        | error e => exact ⟨_, rfl⟩
  · cases h

end SiteNav.Json
