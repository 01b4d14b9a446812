import SiteNav.Json.Dialect
import SiteNav.Proofs.Document.Shows
import SiteNav.Proofs.Json.Literal

/-!
# Written JSON contents

The text written for a content, at any depth and with any text after it, is read as a node that shows
the content, and reading stops right behind it. The induction is on the content; between its parts
stand only commas and line breaks with their indentation, which reading skips.
-/
namespace SiteNav.Json
open Document

theorem skipBlank_cons {c : Char} (hc : isBlank c = false) (cs : List Char) (pos : Pos) :
    skipBlank (c :: cs) pos = ⟨c :: cs, pos⟩ := by
  simp [skipBlank, hc]

theorem skipBlank_append {ws : List Char} (hws : ∀ c ∈ ws, isBlank c = true) (cs : List Char)
    (pos : Pos) : skipBlank (ws ++ cs) pos = skipBlank cs (pos.nexts ws) := by
  induction ws generalizing pos with
  | nil => rfl
  | cons w ws ih =>
    have hw : isBlank w = true := hws w (by simp)
    simp only [List.cons_append, skipBlank, hw, if_true]
    exact ih (fun c hc => hws c (by simp [hc])) (pos.next w)

theorem isBlank_of_mem_lineBreak (depth : Nat) : ∀ c ∈ lineBreak depth, isBlank c = true := by
  intro c hc
  simp only [lineBreak, List.mem_cons, List.mem_replicate] at hc
  rcases hc with rfl | ⟨_, rfl⟩ <;> rfl

/-- A line break and its indentation are skipped up to the next sign. -/
theorem skipBlank_lineBreak (depth : Nat) {c : Char} (hc : isBlank c = false) (cs : List Char)
    (pos : Pos) : ∃ pos', skipBlank (lineBreak depth ++ c :: cs) pos = ⟨c :: cs, pos'⟩ :=
  ⟨_, (skipBlank_append (isBlank_of_mem_lineBreak depth) _ pos).trans (skipBlank_cons hc cs _)⟩

namespace Written

theorem content_eq_cons (depth : Nat) (c : Content) :
    ∃ x tl, content depth c = x :: tl ∧ isBlank x = false ∧ x ≠ ']' := by
  cases c with
  | flag b =>
    cases b with
    | false => exact ⟨'f', ['a', 'l', 's', 'e'], by simp [content], rfl, by decide⟩
    | true => exact ⟨'t', ['r', 'u', 'e'], by simp [content], rfl, by decide⟩
  | text s => exact ⟨'"', _, by rw [content, Literal.write], rfl, by decide⟩
  | list cs => cases cs <;> exact ⟨'[', _, by rw [content], rfl, by decide⟩
  | map es => cases es <;> exact ⟨'\x7b', _, by rw [content], rfl, by decide⟩

theorem skipBlank_lineBreak_content (depth depth' : Nat) (c : Content) (rest : List Char)
    (pos : Pos) : ∃ pos', skipBlank (lineBreak depth ++ (content depth' c ++ rest)) pos =
      ⟨content depth' c ++ rest, pos'⟩ := by
  obtain ⟨x, tl, hx, hblank, _⟩ := content_eq_cons depth' c
  rw [hx]
  exact skipBlank_lineBreak depth hblank (tl ++ rest) pos

/-- What is to be shown of a content and of the entries that follow it gives what is to be shown of an
entry; the opening quote of its key is behind. -/
theorem readEntry_entry (depth depth' : Nat) (k : String) (c : Content)
    (es : List (String × Content)) (fuel : Nat) (rest : List Char) (pos : Pos)
    (hc : ∀ fuel rest pos, 3 * (content depth c).length ≤ fuel →
      ∃ node pos', readValue fuel ⟨content depth c ++ rest, pos⟩ = (node, some ⟨rest, pos'⟩) ∧
        dialect.Shows node c)
    (hes : ∀ fuel rest pos, 3 * (entries depth es).length + 1 ≤ fuel →
      ∃ nodes pos', readEntries fuel false
          (skipBlank (entries depth es ++ (lineBreak depth' ++ '}' :: rest)) pos) =
        ((nodes, .closed pos'), some ⟨rest, pos'⟩) ∧ dialect.ShowsEntries nodes es)
    (hfuel : 3 * (content depth c).length + 3 * (entries depth es).length + 1 ≤ fuel) :
    ∃ key node nodes pos', readEntry (fuel + 1) ⟨k.toList.flatMap Literal.escape ++
          '"' :: ':' :: ' ' :: (content depth c ++
            (entries depth es ++ (lineBreak depth' ++ '}' :: rest))), pos⟩ =
        (((key, node) :: nodes, .closed pos'), some ⟨rest, pos'⟩) ∧
      dialect.ShowsEntries ((key, node) :: nodes) ((k, c) :: es) := by
  obtain ⟨pos₁, hkey⟩ := Literal.scan_escaped k (':' :: ' ' :: (content depth c ++
    (entries depth es ++ (lineBreak depth' ++ '}' :: rest)))) pos
  obtain ⟨x, tl, hx, hblank, _⟩ := content_eq_cons depth c
  obtain ⟨node, pos₂, hnode, hshow⟩ := hc fuel (entries depth es ++ (lineBreak depth' ++ '}' :: rest))
    ((pos₁.next ':').next ' ') (by omega)
  obtain ⟨nodes, pos₃, hnodes, hshows⟩ := hes fuel rest pos₂ (by omega)
  refine ⟨⟨.ok k, pos₁⟩, node, nodes, pos₃, ?_, fun _ _ => rfl, hshow, hshows⟩
  have hspace : skipBlank (' ' :: (content depth c ++ (entries depth es ++
      (lineBreak depth' ++ '}' :: rest)))) (pos₁.next ':') =
        ⟨content depth c ++ (entries depth es ++ (lineBreak depth' ++ '}' :: rest)),
          (pos₁.next ':').next ' '⟩ := by
    rw [hx, List.cons_append, skipBlank, if_pos (show isBlank ' ' = true from rfl),
      skipBlank_cons hblank]
  simp only [readEntry, hkey, skipBlank_cons (c := ':') rfl, hspace, hnode, hnodes, prepend]

mutual

theorem readValue_content (depth : Nat) : ∀ (c : Content) (fuel : Nat) (rest : List Char) (pos : Pos),
    3 * (content depth c).length ≤ fuel →
      ∃ node pos', readValue fuel ⟨content depth c ++ rest, pos⟩ = (node, some ⟨rest, pos'⟩) ∧
        dialect.Shows node c
  | .flag b, fuel, rest, pos, hfuel => by
    obtain ⟨f, rfl⟩ : ∃ f, fuel = f + 1 :=
      ⟨fuel - 1, by cases b <;> simp [content] at hfuel <;> omega⟩
    cases b with
    | false =>
      refine ⟨.scalar pos (pos.nexts "false".toList) (.ok (.bool false)), pos.nexts "false".toList, ?_,
        fun _ _ => rfl⟩
      simp [content, readValue, scanWord, ofScan, Except.map, Pos.nexts]
    | true =>
      refine ⟨.scalar pos (pos.nexts "true".toList) (.ok (.bool true)), pos.nexts "true".toList, ?_,
        fun _ _ => rfl⟩
      simp [content, readValue, scanWord, ofScan, Except.map, Pos.nexts]
  | .text s, fuel, rest, pos, hfuel => by
    obtain ⟨f, rfl⟩ : ∃ f, fuel = f + 1 :=
      ⟨fuel - 1, by simp [content, Literal.write] at hfuel; omega⟩
    obtain ⟨pos', h⟩ := Literal.scan_escaped s rest (pos.next '"')
    refine ⟨.scalar pos pos' (.ok (.text s)), pos', ?_, fun _ => rfl⟩
    simp only [content, Literal.write_append, readValue, h, ofScan, Except.map]
  | .list [], fuel, rest, pos, hfuel => by
    obtain ⟨f, rfl⟩ : ∃ f, fuel = f + 2 := ⟨fuel - 2, by simp [content] at hfuel; omega⟩
    refine ⟨.list pos [] (.closed ((pos.next '[').next ']')), (pos.next '[').next ']', ?_,
      _, [], rfl, rfl, trivial⟩
    simp [content, readValue, skipBlank, isBlank, readItems]
  | .list (c :: cs), fuel, rest, pos, hfuel => by
    simp only [content, List.length_cons, List.length_append, List.length_nil, lineBreak,
      List.length_replicate] at hfuel
    obtain ⟨f, rfl⟩ : ∃ f, fuel = f + 3 := ⟨fuel - 3, by omega⟩
    obtain ⟨pos₁, hblank⟩ := skipBlank_lineBreak_content (depth + 1) (depth + 1) c
      (items (depth + 1) cs ++ (lineBreak depth ++ ']' :: rest)) (pos.next '[')
    obtain ⟨node, pos₂, hnode, hshow⟩ := readValue_content (depth + 1) c f
      (items (depth + 1) cs ++ (lineBreak depth ++ ']' :: rest)) pos₁ (by omega)
    obtain ⟨nodes, pos₃, hnodes, hshows⟩ := readItems_items (depth + 1) depth cs f rest pos₂ (by omega)
    obtain ⟨x, tl, hx, _, hx'⟩ := content_eq_cons (depth + 1) c
    refine ⟨.list pos (node :: nodes) (.closed pos₃), pos₃, ?_, _, _, rfl, rfl, hshow, hshows⟩
    rw [hx] at hblank hnode
    simp only [content, hx, List.cons_append, List.append_assoc, List.nil_append, readValue] at *
    simp only [hblank, readItems, readItem, hx', if_false, if_true, hnode, hnodes, prepend]
  | .map [], fuel, rest, pos, hfuel => by
    obtain ⟨f, rfl⟩ : ∃ f, fuel = f + 2 := ⟨fuel - 2, by simp [content] at hfuel; omega⟩
    refine ⟨.map pos [] (.closed ((pos.next '\x7b').next '}')), (pos.next '\x7b').next '}', ?_,
      _, [], [], rfl, rfl, .nil, trivial⟩
    simp [content, readValue, skipBlank, isBlank, readEntries]
  | .map ((k, c) :: es), fuel, rest, pos, hfuel => by
    simp only [content, entry, List.length_cons, List.length_append, List.length_nil, lineBreak,
      List.length_replicate] at hfuel
    obtain ⟨f, rfl⟩ : ∃ f, fuel = f + 3 := ⟨fuel - 3, by omega⟩
    obtain ⟨pos₁, hblank⟩ := skipBlank_lineBreak (depth + 1) (c := '"') rfl
      (k.toList.flatMap Literal.escape ++ '"' :: ':' :: ' ' :: (content (depth + 1) c ++
        (entries (depth + 1) es ++ (lineBreak depth ++ '}' :: rest)))) (pos.next '\x7b')
    obtain ⟨key, node, nodes, pos₂, hentry, hshow⟩ := readEntry_entry (depth + 1) depth k c es f rest
      (pos₁.next '"') (readValue_content (depth + 1) c) (readEntries_entries (depth + 1) depth es)
      (by omega)
    refine ⟨.map pos ((key, node) :: nodes) (.closed pos₂), pos₂, ?_, _, _, _, rfl, rfl, .refl _, hshow⟩
    simp only [content, entry, Literal.write_append, List.cons_append, List.append_assoc,
      List.nil_append, readValue] at *
    simp only [hblank, readEntries, Char.reduceEq, if_false, if_true, hentry]

theorem readItems_items (depth depth' : Nat) : ∀ (cs : List Content) (fuel : Nat) (rest : List Char)
    (pos : Pos), 3 * (items depth cs).length + 1 ≤ fuel →
      ∃ nodes pos', readItems fuel false
          (skipBlank (items depth cs ++ (lineBreak depth' ++ ']' :: rest)) pos) =
        ((nodes, .closed pos'), some ⟨rest, pos'⟩) ∧ dialect.ShowsItems nodes cs
  | [], fuel, rest, pos, hfuel => by
    obtain ⟨f, rfl⟩ : ∃ f, fuel = f + 1 := ⟨fuel - 1, by omega⟩
    obtain ⟨pos₁, hblank⟩ := skipBlank_lineBreak depth' (c := ']') rfl rest pos
    refine ⟨[], pos₁.next ']', ?_, trivial⟩
    simp only [items, List.nil_append, hblank, readItems, if_true]
  | c :: cs, fuel, rest, pos, hfuel => by
    simp only [items, List.length_cons, List.length_append] at hfuel
    obtain ⟨f, rfl⟩ : ∃ f, fuel = f + 2 := ⟨fuel - 2, by omega⟩
    obtain ⟨pos₁, hblank⟩ := skipBlank_lineBreak_content depth depth c
      (items depth cs ++ (lineBreak depth' ++ ']' :: rest)) (pos.next ',')
    obtain ⟨node, pos₂, hnode, hshow⟩ := readValue_content depth c f
      (items depth cs ++ (lineBreak depth' ++ ']' :: rest)) pos₁ (by omega)
    obtain ⟨nodes, pos₃, hnodes, hshows⟩ := readItems_items depth depth' cs f rest pos₂ (by omega)
    obtain ⟨x, tl, hx, _, hx'⟩ := content_eq_cons depth c
    refine ⟨node :: nodes, pos₃, ?_, hshow, hshows⟩
    rw [hx] at hblank hnode
    simp only [items, hx, List.cons_append, List.append_assoc,
      skipBlank_cons (c := ',') rfl] at *
    simp only [readItems, Char.reduceEq, Bool.false_eq_true, if_false, if_true, hblank]
    split
    · simp_all
    · simp_all
    · simp only [readItem, hnode, hnodes, prepend]

theorem readEntries_entries (depth depth' : Nat) : ∀ (es : List (String × Content)) (fuel : Nat)
    (rest : List Char) (pos : Pos), 3 * (entries depth es).length + 1 ≤ fuel →
      ∃ nodes pos', readEntries fuel false
          (skipBlank (entries depth es ++ (lineBreak depth' ++ '}' :: rest)) pos) =
        ((nodes, .closed pos'), some ⟨rest, pos'⟩) ∧ dialect.ShowsEntries nodes es
  | [], fuel, rest, pos, hfuel => by
    obtain ⟨f, rfl⟩ : ∃ f, fuel = f + 1 := ⟨fuel - 1, by omega⟩
    obtain ⟨pos₁, hblank⟩ := skipBlank_lineBreak depth' (c := '}') rfl rest pos
    refine ⟨[], pos₁.next '}', ?_, trivial⟩
    simp only [entries, List.nil_append, hblank, readEntries, if_true]
  | (k, c) :: es, fuel, rest, pos, hfuel => by
    simp only [entries, entry, List.length_cons, List.length_append] at hfuel
    obtain ⟨f, rfl⟩ : ∃ f, fuel = f + 2 := ⟨fuel - 2, by omega⟩
    obtain ⟨pos₁, hblank⟩ := skipBlank_lineBreak depth (c := '"') rfl
      (k.toList.flatMap Literal.escape ++ '"' :: ':' :: ' ' :: (content depth c ++
        (entries depth es ++ (lineBreak depth' ++ '}' :: rest)))) (pos.next ',')
    obtain ⟨key, node, nodes, pos₂, hentry, hshow⟩ := readEntry_entry depth depth' k c es f rest
      (pos₁.next '"') (readValue_content depth c) (readEntries_entries depth depth' es) (by omega)
    refine ⟨(key, node) :: nodes, pos₂, ?_, hshow⟩
    simp only [entries, entry, Literal.write_append, List.cons_append, List.append_assoc,
      skipBlank_cons (c := ',') rfl] at *
    simp only [readEntries, Char.reduceEq, Bool.false_eq_true, if_false, if_true, hblank, hentry]

end

end Written

theorem read_append {ws : List Char} (hws : ∀ c ∈ ws, isBlank c = true) (c : Content) :
    ∃ root, read (Written.content 0 c ++ ws) = ⟨root, none⟩ ∧ dialect.Shows root c := by
  obtain ⟨x, tl, hx, hblank, _⟩ := Written.content_eq_cons 0 c
  obtain ⟨node, pos, hnode, hshow⟩ := Written.readValue_content 0 c
    (3 * (Written.content 0 c ++ ws).length + 4) ws .start (by rw [List.length_append]; omega)
  have hstart : skipBlank (Written.content 0 c ++ ws) .start = ⟨Written.content 0 c ++ ws, .start⟩ := by
    rw [hx]
    exact skipBlank_cons hblank _ _
  have hend : skipBlank ws pos = ⟨[], pos.nexts ws⟩ := by
    simpa [skipBlank] using skipBlank_append hws [] pos
  refine ⟨node, ?_, hshow⟩
  simp only [read, hstart, hnode, hend, List.isEmpty_nil, if_true]

end SiteNav.Json
