import SiteNav.Proofs.Yaml.Line

/-!
# Styles and characters of written texts

A style is chosen for a text only if the text can be read back from it. Whatever the style, nothing
but printable characters is written: a text with others stands between double quotes, where they are
escaped.
-/
namespace SiteNav.Yaml
open Written (spaces isPrintable)

/-- A text that is written as it is. -/
structure PlainText (cs : List Char) : Prop where
  ne_nil : cs ≠ []
  isPrintable : ∀ c ∈ cs, isPrintable c = true
  isBreak : ∀ c ∈ cs, isBreak c = false
  beforeGap : Written.beforeGap cs = false
  endsInGap : Written.endsIn Written.isGap cs = false
  beginsWithSign : Written.beginsWithSign cs = false
  holdsSign : Written.holdsSign cs = false

/-- A text that is written between single quotes, where no line is indented more than it has to be. -/
structure SingleText (cs : List Char) : Prop where
  isPrintable : ∀ c ∈ cs, isPrintable c = true
  newline : '\n' ∉ cs
  spaceBeforeBreak : Written.spaceBeforeBreak cs = false
  spaceAfterBreak : Written.spaceAfterBreak cs = false

/-- A text that is written as a literal block. -/
structure LiteralText (cs : List Char) : Prop where
  ne_nil : cs ≠ []
  isPrintable : ∀ c ∈ cs, isPrintable c = true

section Style
variable {cs : List Char}

theorem isPrintable_of_hasUnprintable (h : Written.hasUnprintable cs = false) :
    ∀ c ∈ cs, isPrintable c = true := by
  simpa [Written.hasUnprintable] using h

theorem PlainText.of_canBePlain (h : Written.canBePlain cs = true) : PlainText cs := by
  simp only [Written.canBePlain, Bool.and_eq_true, Bool.not_eq_true'] at h
  obtain ⟨⟨⟨⟨⟨⟨hempty, hgap⟩, hends⟩, hbreaks⟩, hunprintable⟩, hsign⟩, hholds⟩ := h
  have hprintable := isPrintable_of_hasUnprintable hunprintable
  refine ⟨List.isEmpty_eq_false_iff.1 hempty, hprintable, fun c hc => ?_, hgap, hends, hsign, hholds⟩
  rw [← isBreak_eq_of_isPrintable (hprintable c hc)]
  simpa using List.any_eq_false.1 hbreaks c hc

theorem SingleText.of_canBeSingle (h : Written.canBeSingle cs = true) (hline : '\n' ∉ cs) :
    SingleText cs := by
  simp only [Written.canBeSingle, Bool.and_eq_true, Bool.not_eq_true'] at h
  obtain ⟨⟨hunprintable, hbefore⟩, hafter⟩ := h
  exact ⟨isPrintable_of_hasUnprintable hunprintable, hline, hbefore, hafter⟩

theorem LiteralText.of_canBeLiteral (h : Written.canBeLiteral cs = true) : LiteralText cs := by
  simp only [Written.canBeLiteral, Bool.and_eq_true, Bool.not_eq_true'] at h
  obtain ⟨⟨⟨hempty, hunprintable⟩, _⟩, _⟩ := h
  exact ⟨List.isEmpty_eq_false_iff.1 hempty, isPrintable_of_hasUnprintable hunprintable⟩

/-- What a style asks of a text; between double quotes any text may stand. -/
def Written.Style.Suits (cs : List Char) : Written.Style → Prop
  | plain => PlainText cs
  | single => SingleText cs
  | double => True
  | literal => LiteralText cs

theorem suits_style (s : String) : (Written.style s).Suits s.toList := by
  unfold Written.style
  dsimp only
  split
  · split
    next hliteral => exact LiteralText.of_canBeLiteral hliteral
    · trivial
  · next hline =>
    split
    · next hplain =>
      rw [Bool.and_eq_true] at hplain
      exact PlainText.of_canBePlain hplain.2
    · split
      next hsingle => exact SingleText.of_canBeSingle hsingle (by simpa using hline)
      · trivial

end Style

section Printable
variable {cs : List Char}

theorem isPrintable_spaces {n : Nat} : ∀ c ∈ spaces n, isPrintable c = true := by
  intro c hc
  obtain rfl := List.eq_of_mem_replicate hc
  rfl

theorem isPrintable_singleFrom (indent : Nat) (broken : Bool) (hcs : ∀ c ∈ cs, isPrintable c = true) :
    ∀ c ∈ Written.singleFrom indent broken cs, isPrintable c = true := by
  have hpad : ∀ b : Bool, ∀ c ∈ (if b then spaces indent else []), isPrintable c = true := by
    intro b
    cases b
    · simp
    · exact isPrintable_spaces
  have hquote : isPrintable '\'' = true := rfl
  induction cs generalizing broken with
  | nil =>
    rw [Written.singleFrom, List.forall_mem_append, List.forall_mem_singleton]
    exact ⟨hpad broken, hquote⟩
  | cons c cs ih =>
    obtain ⟨hc, hcs⟩ := List.forall_mem_cons.1 hcs
    rw [Written.singleFrom]
    split
    · rw [List.forall_mem_cons]
      exact ⟨hc, ih true hcs⟩
    · rw [List.forall_mem_append, List.forall_mem_append]
      refine ⟨⟨hpad broken, ?_⟩, ih false hcs⟩
      split <;> simp [hquote, hc]

theorem isPrintable_literalFrom (indent : Nat) (broken : Bool) (hcs : ∀ c ∈ cs, isPrintable c = true) :
    ∀ c ∈ Written.literalFrom indent broken cs, isPrintable c = true := by
  induction cs generalizing broken with
  | nil => simp [Written.literalFrom]
  | cons c cs ih =>
    obtain ⟨hc, hcs⟩ := List.forall_mem_cons.1 hcs
    rw [Written.literalFrom]
    split
    · rw [List.forall_mem_cons]
      exact ⟨hc, ih true hcs⟩
    · rw [List.forall_mem_append, List.forall_mem_cons]
      refine ⟨?_, hc, ih false hcs⟩
      split
      · exact isPrintable_spaces
      · simp

theorem isPrintable_literalHeader (cs : List Char) :
    ∀ c ∈ Written.literalHeader cs, isPrintable c = true := by
  have hbar : isPrintable '|' = true := rfl
  have hdigit : isPrintable '2' = true := rfl
  have hminus : isPrintable '-' = true := rfl
  have hplus : isPrintable '+' = true := rfl
  rw [Written.literalHeader, List.forall_mem_cons, List.forall_mem_append]
  refine ⟨hbar, ?_, ?_⟩
  · split <;> simp [hdigit]
  · split
    · simp [hminus]
    · split <;> simp [hplus, hminus]
    · split
      · simp [hminus]
      · split <;> simp [hplus]

theorem isPrintable_hex (n v : Nat) : ∀ c ∈ Written.hex n v, isPrintable c = true := by
  have hdigit : ∀ d < 16, isPrintable (Nat.digitChar d).toUpper = true := by decide
  induction n generalizing v with
  | zero => simp [Written.hex]
  | succ n ih =>
    rw [Written.hex, List.forall_mem_append, List.forall_mem_singleton]
    exact ⟨ih _, hdigit _ (Nat.mod_lt _ (by decide))⟩

theorem isPrintable_escape (c : Char) : ∀ x ∈ Written.escape c, isPrintable x = true := by
  unfold Written.escape
  have hcode (x : Char) (hx : isPrintable x = true) (n : Nat) :
      ∀ y ∈ '\\' :: x :: Written.hex n c.toNat, isPrintable y = true := by
    rw [List.forall_mem_cons, List.forall_mem_cons]
    exact ⟨rfl, hx, isPrintable_hex n c.toNat⟩
  split
  case h_15 =>
    split
    case isTrue h => simpa using h
    case isFalse =>
      dsimp only
      split
      · exact hcode 'x' rfl 2
      · split
        · exact hcode 'u' rfl 4
        · exact hcode 'U' rfl 8
  all_goals simp [isPrintable]

theorem isPrintable_scalar (indent : Nat) (s : String) :
    ∀ c ∈ Written.scalar indent s, isPrintable c = true := by
  have hnewline : isPrintable '\n' = true := rfl
  have hsingle : isPrintable '\'' = true := rfl
  have hdouble : isPrintable '"' = true := rfl
  have hsuits := suits_style s
  rw [Written.scalar]
  cases hstyle : Written.style s with
  | plain =>
    have htext : PlainText s.toList := by rwa [hstyle] at hsuits
    exact htext.isPrintable
  | single =>
    have htext : SingleText s.toList := by rwa [hstyle] at hsuits
    exact List.forall_mem_cons.2 ⟨hsingle, isPrintable_singleFrom indent false htext.isPrintable⟩
  | double =>
    have hescaped : ∀ c ∈ s.toList.flatMap Written.escape, isPrintable c = true := by
      intro c hc
      obtain ⟨x, _, hx⟩ := List.mem_flatMap.1 hc
      exact isPrintable_escape x c hx
    exact List.forall_mem_cons.2 ⟨hdouble, List.forall_mem_append.2
      ⟨hescaped, List.forall_mem_singleton.2 hdouble⟩⟩
  | literal =>
    have htext : LiteralText s.toList := by rwa [hstyle] at hsuits
    exact List.forall_mem_append.2 ⟨isPrintable_literalHeader _, List.forall_mem_cons.2
      ⟨hnewline, isPrintable_literalFrom indent true htext.isPrintable⟩⟩

theorem isPrintable_endLine (hcs : ∀ c ∈ cs, isPrintable c = true) :
    ∀ c ∈ Written.endLine cs, isPrintable c = true := by
  have hnewline : isPrintable '\n' = true := rfl
  rw [Written.endLine]
  split
  · exact hcs
  · exact List.forall_mem_append.2 ⟨hcs, List.forall_mem_singleton.2 hnewline⟩

theorem isPrintable_entry (lead key : String) (hlead : ∀ c ∈ lead.toList, isPrintable c = true)
    (hkey : ∀ c ∈ key.toList, isPrintable c = true) (indent : Nat) (s : String) :
    ∀ c ∈ Written.entry lead key indent s, isPrintable c = true := by
  have hcolon : isPrintable ':' = true := rfl
  have hspace : isPrintable ' ' = true := rfl
  refine isPrintable_endLine (List.forall_mem_append.2 ⟨List.forall_mem_append.2 ⟨hlead, hkey⟩, ?_⟩)
  rw [List.forall_mem_cons, List.forall_mem_cons]
  exact ⟨hcolon, hspace, isPrintable_scalar indent s⟩

theorem isPrintable_listEntry {lead key : String} (hlead : ∀ c ∈ lead.toList, isPrintable c = true)
    (hkey : ∀ c ∈ key.toList, isPrintable c = true) {items : List (List Char)}
    (hitems : ∀ cs ∈ items, ∀ c ∈ cs, isPrintable c = true) :
    ∀ c ∈ Written.listEntry lead key items, isPrintable c = true := by
  rw [Written.listEntry]
  refine List.forall_mem_append.2 ⟨List.forall_mem_append.2 ⟨hlead, hkey⟩, ?_⟩
  split
  · simp [isPrintable]
  · refine List.forall_mem_append.2 ⟨by simp [isPrintable], fun c hc => ?_⟩
    obtain ⟨cs, hcs, hmem⟩ := List.mem_flatten.1 hc
    exact hitems cs hcs c hmem

theorem isPrintable_item (it : Item) : ∀ c ∈ Written.item it, isPrintable c = true :=
  List.forall_mem_append.2 ⟨isPrintable_entry _ _ (by simp [isPrintable]) (by simp [isPrintable]) _ _,
    isPrintable_entry _ _ (by simp [isPrintable]) (by simp [isPrintable]) _ _⟩

theorem isPrintable_group (g : Group) : ∀ c ∈ Written.group g, isPrintable c = true := by
  have htext := isPrintable_entry "- " "text" (by simp [isPrintable])
    (by simp [isPrintable]) 4 g.text
  have hflag : ∀ c ∈ (g.collapsible.map Written.collapsible).getD [], isPrintable c = true := by
    rcases g.collapsible with _ | _ | _ <;> simp [Written.collapsible, isPrintable]
  have hitems : ∀ cs ∈ g.items.map Written.item, ∀ c ∈ cs, isPrintable c = true := by
    intro cs hcs
    obtain ⟨it, _, rfl⟩ := List.mem_map.1 hcs
    exact isPrintable_item it
  exact List.forall_mem_append.2 ⟨List.forall_mem_append.2 ⟨htext, hflag⟩,
    isPrintable_listEntry (by simp [isPrintable]) (by simp [isPrintable]) hitems⟩

theorem isPrintable_site (s : Site) : ∀ c ∈ Written.site s, isPrintable c = true := by
  have hentry (key : String) (hkey : ∀ c ∈ key.toList, isPrintable c = true) (text : String) :=
    isPrintable_entry "" key (by simp) hkey 2 text
  have hgroups : ∀ cs ∈ s.sidebar.map Written.group, ∀ c ∈ cs, isPrintable c = true := by
    intro cs hcs
    obtain ⟨g, _, rfl⟩ := List.mem_map.1 hcs
    exact isPrintable_group g
  rw [Written.site, List.forall_mem_append, List.forall_mem_append, List.forall_mem_append]
  exact ⟨⟨⟨hentry "title" (by simp [isPrintable]) _, hentry "description" (by simp [isPrintable]) _⟩,
    hentry "basePath" (by simp [isPrintable]) _⟩,
    isPrintable_listEntry (by simp) (by simp [isPrintable]) hgroups⟩

end Printable

end SiteNav.Yaml
