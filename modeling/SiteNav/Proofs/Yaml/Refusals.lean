import SiteNav.Proofs.Document.Blame
import SiteNav.Proofs.Yaml.AsTree

/-!
# What YAML documents are refused for

A document that can be read without following too many aliases is refused for fields that its structures
lack or repeat, for a key that is no scalar, or for a value that is not of the form that is asked of it.
Main statement: there is nothing else to refuse it for, and all but one kind of values are refused at
their own paths.
-/
namespace SiteNav.Yaml
open Document

/-- Values and keys are seen as what they stand for. -/
def Tree.sight (t : Tree) : Sight Node Node where
  view n := (t.resolve? n).map fun n =>
    match n with
    | .list _ _ items => (n, .list items)
    | .map _ _ entries => (n, .map entries)
    | .scalar _ _ s => (n, if s.isVoid then .void else .scalar)
    | .nothing _ => (n, .void)
    | .reference _ _ => (n, .scalar)
  step k := (t.key? k).map fun s =>
    match k with
    | .reference _ _ => .reference s.text
    | _ => .key s.text
  isText n :=
    match t.resolve? n with
    | some (.scalar _ _ _) => true
    | _ => false
  isFlag n :=
    match t.resolve? n with
    | some (.scalar _ _ s) =>
      match s.isAbsent with
      | .ok absent => absent || s.flag?.isSome
      | .error _ => false
    | some (.nothing _) => true
    | _ => false
  positional := false

inductive Refusal (t : Tree) : Error → Prop
  | malformed : Refusal t .malformed
  | endless : Refusal t .endless
  | fields {m : Misfit} (place : Option (Path × Mark)) (h : t.sight.Amiss t.root m) :
      Refusal t (.misfit m place)
  | key (found : Found) (place : Option (Path × Mark)) :
      Refusal t (.misfit (.mistyped found .name) place)
  | mistyped {fm : Form} {o : Option Step} {p : Path} {n n' : Node} (found : Found)
      (h : t.sight.Asks t.root fm o p n) (hn : ¬t.sight.Fits fm n) (hn' : t.resolve? n = some n') :
      Refusal t (.misfit (.mistyped found fm.expected) (some (p, n'.mark)))
  | misspelled {fm : Form} {o : Option Step} {p : Path} {n n' : Node} (text declared : String)
      (h : t.sight.Asks t.root fm o p n) (hn : ¬t.sight.Fits fm n) (hn' : t.resolve? n = some n') :
      Refusal t (.misfit (.misspelled text declared) (some (p, n'.mark)))
  /-- A flag that is declared null, but is not, is refused at the path of the structure that it is in. -/
  | notNull {o : Option Step} {p : Path} {n : Node} (text : String) (mark : Mark)
      (h : t.sight.Asks t.root .flag o p n) (hn : ¬t.sight.Fits .flag n) :
      Refusal t (.misfit (.misspelled text "null") (some (p.tail, mark)))

/-- A scalar is reported for what it is, unless it is not what its tag says. -/
theorem Scalar.misfit_eq (s : Scalar) (expected : Found → Misfit) :
    (∃ found, s.misfit expected = expected found) ∨
      ∃ declared, s.misfit expected = .misspelled s.text declared := by
  rw [Scalar.misfit]
  split
  · exact .inl ⟨_, rfl⟩
  · dsimp only
    split_ifs
    -- A core tag makes a value of the text or declares what it is not.
    all_goals first
      | exact .inl ⟨_, rfl⟩
      | exact .inr ⟨_, rfl⟩
      | split
        · exact .inl ⟨_, rfl⟩
        · exact .inr ⟨_, rfl⟩

theorem Scalar.eq_of_isAbsent_eq_error {s : Scalar} {m : Misfit} (h : s.isAbsent = .error m) :
    m = .misspelled s.text "null" := by
  rw [Scalar.isAbsent] at h
  split at h
  · cases h
  · split at h
    · cases h
    · split_ifs at h
      cases h
      rfl

/-- Whatever the number of aliases that were followed. -/
abbrev guarantee (t : Tree) : Guarantee Reading :=
  (Guarantee.failing (Refusal t)).stateful Nat

section Refusals
variable {t : Tree} {fm : Form} {o : Option Step} {p : Path} {n n' : Node}

theorem refusal_refuse {α : Type} (P : α → Prop) (h : t.sight.Asks t.root fm o p n)
    (hn : ¬t.sight.Fits fm n) (hn' : t.resolve? n = some n') :
    (guarantee t).holds P (Tree.refuse p n' (.mistyped · fm.expected)) := by
  intro count
  cases n' with
  | scalar mark anchor s =>
    change Refusal t (.misfit (s.misfit _) _)
    obtain ⟨found, hfound⟩ | ⟨declared, hdeclared⟩ := s.misfit_eq (.mistyped · fm.expected)
    · rw [hfound]
      exact .mistyped _ h hn hn'
    · rw [hdeclared]
      exact .misspelled _ _ h hn hn'
  | list _ _ _ | map _ _ _ | reference _ _ | nothing _ => exact .mistyped _ h hn hn'

theorem refusal_follow (n : Node) :
    (guarantee t).holds (fun n' => t.resolve? n = some n') (t.follow n) := by
  intro count
  cases n with
  | scalar _ _ _ | list _ _ _ | map _ _ _ | nothing _ => rfl
  | reference mark number =>
    rw [Tree.run_follow_reference]
    by_cases hlimit : t.limit < count + 1
    · rw [if_pos hlimit]
      exact .endless
    · rw [if_neg hlimit]
      cases htarget : t.target? number with
      | none => exact .malformed
      | some n => exact htarget

theorem refusal_view (n : Node) :
    (guarantee t).holds (fun v => t.sight.view n = some v) (t.dialect.view n) := by
  refine Guarantee.bind _ (refusal_follow n) ?_
  intro n' hn'
  simp only [Tree.sight, hn', Option.map_some]
  cases n' <;> exact Guarantee.pure _ rfl

theorem resolve?_of_view {v : View Node Node} (h : t.sight.view n = some (n', v)) :
    t.resolve? n = some n' := by
  obtain ⟨m, hm, heq⟩ := Option.map_eq_some_iff.1 h
  cases m <;> cases heq <;> exact hm

theorem refusal_text (h : t.sight.Asks t.root .text o p n) :
    (guarantee t).holds (fun _ => True) (t.dialect.text p n) := by
  refine Guarantee.bind _ (refusal_follow n) ?_
  intro n' hn'
  cases n' with
  | scalar _ _ s => exact Guarantee.pure _ trivial
  | list _ _ _ | map _ _ _ | reference _ _ | nothing _ =>
    exact refusal_refuse _ h (by simp [Sight.Fits, Tree.sight, hn']) hn'

theorem refusal_flag (holder : Node) (h : t.sight.Asks t.root .flag o p n) :
    (guarantee t).holds (fun _ => True) (t.dialect.flag p holder n) := by
  refine Guarantee.bind _ (refusal_follow n) ?_
  intro n' hn'
  cases n' with
  | nothing _ => exact Guarantee.pure _ trivial
  | list _ _ _ | map _ _ _ | reference _ _ =>
    exact refusal_refuse _ h (by simp [Sight.Fits, Tree.sight, hn']) hn'
  | scalar _ _ s =>
    dsimp only
    cases habsent : s.isAbsent with
    | error m =>
      obtain rfl := Scalar.eq_of_isAbsent_eq_error habsent
      exact fun _ => .notNull _ _ h (by simp [Sight.Fits, Tree.sight, hn', habsent])
    | ok absent =>
      cases absent with
      | true => exact Guarantee.pure _ trivial
      | false =>
        cases hflag : s.flag? with
        | some b => exact Guarantee.pure _ trivial
        | none => exact refusal_refuse _ h (by simp [Sight.Fits, Tree.sight, hn', habsent, hflag]) hn'

theorem refusal_key (p : Path) (n k : Node) :
    (guarantee t).holds (fun step => t.sight.step k = some step) (t.dialect.key p n k) := by
  refine Guarantee.bind _ (refusal_follow k) ?_
  intro k' hk'
  cases k' with
  | scalar _ _ s =>
    cases k <;> refine Guarantee.pure _ ?_ <;> simp [Tree.sight, Tree.key?, hk']
  | list _ _ _ | map _ _ _ | reference _ _ | nothing _ => exact fun _ => .key _ _

end Refusals

theorem dialect_blames (t : Tree) : t.dialect.Blames (guarantee t) t.sight t.root where
  view _ := refusal_view _
  text h := refusal_text h
  flag holder h := refusal_flag holder h
  key p n k := refusal_key p n k
  mistyped P _ _ _ _ _ _ h hview hn := refusal_refuse P h hn (resolve?_of_view hview)
  missing _ _ _ _ h := fun _ => .fields _ (.missing h)
  repeated _ _ _ _ name := fun _ => .fields _ (.repeated name)
  twoSidebars _ := fun _ => .fields _ .twoSidebars
  noSidebar _ h := fun _ => .fields _ (.noSidebar h)
  close _ := fun _ => trivial
  skip _ := fun _ => trivial
  note _ := fun _ => trivial
  positional := rfl

/-- No structure can be written as a list. -/
theorem refusal_of_readWith {text : String} {e : Error}
    (h : readWith (fun t => t.dialect.readTracked t.root) text = .error e) :
    e = .malformed ∨ ∃ t, tree? text.toList = some t ∧ Refusal t e := by
  rw [readWith] at h
  cases htree : tree? text.toList with
  | none =>
    rw [htree] at h
    cases h
    exact .inl rfl
  | some t =>
    simp only [htree] at h
    have hmaps : ¬t.sight.Listed t.root := fun hlisted => Bool.false_ne_true hlisted.1
    have hread := (dialect_blames t).readTracked hmaps 0
    cases hr : (t.dialect.readTracked t.root).run 0 with
    | error e' =>
      rw [hr] at h hread
      cases h
      exact .inr ⟨t, rfl, hread⟩
    | ok r =>
      rw [hr] at h
      cases h

end SiteNav.Yaml
