import Mathlib.Data.List.Forall2
import Mathlib.Data.List.Pairwise
import Mathlib.Tactic.MkIffOfInductiveProp
import SiteNav.Document.SiteReader
import SiteNav.Proofs.Document.Strays

/-!
# What structures are read as

Reading a tree either fails without a reason or keeps the paths of its strays, whatever it kept before,
and returns one of the values that fit the tree. This is followed through the steps of a reader by a
rule for each way to put steps together. A structure gathers its fields in the slots of a draft: where
it stands in a map, each slot is settled by the values under its names, of which there is at most one;
where it stands in a list, the slots are filled one after the other.
-/
namespace SiteNav.Document

/-- A computation that tracks returns exactly the values with some property, and keeps these paths
besides those it finds. -/
def Yields {α : Type} (x : StateT (List Path) Option α) (more : List Path) (R : α → Prop) : Prop :=
  ∀ ps a ps', x.run ps = some (a, ps') ↔ R a ∧ ps' = ps ++ more

namespace Yields
variable {α β : Type} {x : StateT (List Path) Option α} {more more' : List Path} {R R' : α → Prop}

theorem congr (h : Yields x more R) (hR : ∀ a, R a ↔ R' a) : Yields x more R' := by
  intro ps a ps'
  rw [h ps a ps', hR a]

theorem pure (a : α) : Yields (pure a) [] (· = a) := by
  intro ps a' ps'
  change some (a, ps) = some (a', ps') ↔ _
  simp only [Option.some.injEq, Prod.mk.injEq, List.append_nil]
  exact and_congr eq_comm eq_comm

theorem lift (o : Option α) : Yields (liftM o) [] (o = some ·) := by
  intro ps a ps'
  change (o.bind fun a => some (a, ps)) = some (a, ps') ↔ _
  cases o with
  | none => simp
  | some b =>
    simp only [Option.bind_some, Option.some.injEq, Prod.mk.injEq, List.append_nil]
    exact and_congr Iff.rfl eq_comm

theorem of_forall_not (h : Yields x more R) (hR : ∀ a, ¬ R a) : Yields x more' fun _ => False := by
  intro ps a ps'
  simp only [h ps a ps', hR a, false_and]

theorem never : Yields (liftM (none : Option α)) more fun _ => False :=
  (lift none).of_forall_not nofun

theorem never_bind {f : α → StateT (List Path) Option β} :
    Yields (liftM (none : Option α) >>= f) more fun _ => False := by
  intro ps b ps'
  change none = some (b, ps') ↔ _
  simp

theorem lift_bind {a : α} {f : α → StateT (List Path) Option β} {S : β → Prop}
    (h : Yields (f a) more S) : Yields (liftM (some a) >>= f) more S :=
  h

theorem bind {f : α → StateT (List Path) Option β} {S : α → β → Prop} (hx : Yields x more R)
    (hf : ∀ a, R a → Yields (f a) more' (S a)) :
    Yields (x >>= f) (more ++ more') fun b => ∃ a, R a ∧ S a b := by
  intro ps b ps'
  change ((x.run ps).bind fun r => (f r.1).run r.2) = some (b, ps') ↔ _
  rw [Option.bind_eq_some_iff]
  constructor
  · rintro ⟨⟨a, ps₁⟩, hrun, hnext⟩
    obtain ⟨ha, rfl⟩ := (hx ps a ps₁).1 hrun
    obtain ⟨hb, rfl⟩ := (hf a ha _ b ps').1 hnext
    exact ⟨⟨a, ha, hb⟩, List.append_assoc ..⟩
  · rintro ⟨⟨a, ha, hb⟩, rfl⟩
    exact ⟨(a, ps ++ more), (hx ps a _).2 ⟨ha, rfl⟩,
      (hf a ha _ b _).2 ⟨hb, (List.append_assoc ..).symm⟩⟩

theorem put (h : Yields x more R) (f : α → β) :
    Yields (do return f (← x)) more fun b => ∃ a, R a ∧ b = f a := by
  rw [← List.append_nil more]
  exact h.bind fun a _ => Yields.pure (f a)

theorem fill {L : Prop} (h : Yields x more fun a => L ∧ R a) (f : α → β) :
    Yields (do return f (← x)) more fun b => L ∧ ∃ a, R a ∧ b = f a :=
  (h.put f).congr fun b => by simp only [and_assoc, exists_and_left]

end Yields

/-- What a slot holds is left as it is if there is no value for it. If there is one, the slot has to be
free and is filled with what that value is read as. -/
def Settled {α β : Type} (holds : α → β → Prop) (ts : List α) (old new : Option β) : Prop :=
  (ts = [] ∧ new = old) ∨ ∃ t b, ts = [t] ∧ old = none ∧ holds t b ∧ new = some b

theorem settled_some {α β : Type} {holds : α → β → Prop} {ts : List α} {b : β} :
    Settled holds ts none (some b) ↔ ∃ t, ts = [t] ∧ holds t b := by
  simp [Settled]

theorem settled_none {α β : Type} {holds : α → β → Prop} {ts : List α} :
    Settled holds ts none none ↔ ts = [] := by
  simp [Settled]

/-- A slot of a draft: the names and the shape of the field that fills it, and what the value of the
field is read as. -/
structure Slot (κ σ δ : Type) where
  {β : Type}
  names : List String
  shape : Shape
  /-- A list of fields may end before this one. -/
  optional : Bool := false
  holds : Tree κ σ → β → Prop
  get : δ → Option β
  put : β → δ → δ

namespace Slot
variable {κ σ δ : Type}

/-- The slots share no name, and neither is touched when the other is filled. -/
@[mk_iff]
structure Apart (s s' : Slot κ σ δ) : Prop where
  names : ∀ name, s.names.contains name = true → s'.names.contains name = false
  left : ∀ b draft, s.get (s'.put b draft) = s.get draft
  right : ∀ b draft, s'.get (s.put b draft) = s'.get draft

theorem Apart.symm {s s' : Slot κ σ δ} (h : s.Apart s') : s'.Apart s where
  names name hname := by
    by_contra hne
    rw [Bool.not_eq_false] at hne
    rw [h.names name hne] at hname
    cases hname
  left := h.right
  right := h.left

instance : Std.Symm (Apart (κ := κ) (σ := σ) (δ := δ)) :=
  ⟨fun _ _ => Apart.symm⟩

/-- The fields of a structure whose slots these are. -/
def fields (slots : List (Slot κ σ δ)) : List (List String × Shape) :=
  slots.map fun s => (s.names, s.shape)

theorem placed?_fields (slots : List (Slot κ σ δ)) (j : Nat) :
    Shape.placed? (fields slots) (0 + j) = slots[j]?.map (·.shape) := by
  rw [Nat.zero_add, Shape.placed?, fields, List.getElem?_map, Option.map_map]
  rfl

/-- The draft after the elements of a list have been put into the slots in order. -/
def Placed (M : Meaning κ σ) : List (Slot κ σ δ) → List (Tree κ σ) → δ → δ → Prop
  | [], ts, draft, last => (M.exact = true → ts = []) ∧ last = draft
  | s :: slots, t :: ts, draft, last => ∃ b, s.holds t b ∧ Placed M slots ts (s.put b draft) last
  | s :: slots, [], draft, last => s.optional = true ∧ Placed M slots [] draft last

/-- What a tree puts into the slots of an empty draft. -/
def Gathers (M : Meaning κ σ) (slots : List (Slot κ σ δ)) (empty : δ) (t : Tree κ σ) (draft : δ) :
    Prop :=
  match t with
  | .map es => ∀ s ∈ slots, Settled s.holds (M.values s.names es) none (s.get draft)
  | .list ts => M.positional = true ∧ Placed M slots ts empty draft
  | .scalar _ => False

end Slot

section Structures
variable {κ σ δ α : Type} (M : Meaning κ σ)

/-- The field fills the slot with what its value is read as. -/
structure Field.Fills (f : Field (StateT (List Path) Option) (Tree κ σ) δ) (s : Slot κ σ δ) : Prop where
  names : f.name :: f.aliases = s.names
  optional : f.optional = s.optional
  isSet : ∀ draft, f.isSet draft = (s.get draft).isSome
  read : ∀ p holder t draft, Yields (f.read p holder t draft) (M.strays s.shape p t) fun draft' =>
    M.Legible s.shape t ∧ ∃ b, s.holds t b ∧ draft' = s.put b draft

/-- The slots of a structure: one for each field, apart from each other, and together they are the
draft. A draft with nothing in it is not complete. -/
structure Layout.Serves (lay : Layout (StateT (List Path) Option) (Tree κ σ) δ α)
    (slots : List (Slot κ σ δ)) : Prop where
  fills : List.Forall₂ (Field.Fills M) lay.fields slots
  apart : slots.Pairwise Slot.Apart
  get_put : ∀ s ∈ slots, ∀ b draft, s.get (s.put b draft) = some b
  ext : ∀ draft draft', (∀ s ∈ slots, s.get draft = s.get draft') → draft = draft'
  get_empty : ∀ s ∈ slots, s.get lay.empty = none
  finish_empty : ∀ a, lay.finish lay.empty ≠ .ok a
  guise : ∀ s ∈ slots, s.names.contains "$__toml_private_datetime" = false

variable {M} {lay : Layout (StateT (List Path) Option) (Tree κ σ) δ α} {slots : List (Slot κ σ δ)}

theorem Field.Fills.answersTo {f : Field (StateT (List Path) Option) (Tree κ σ) δ} {s : Slot κ σ δ}
    (h : f.Fills M s) (name : String) : f.answersTo name = s.names.contains name := by
  rw [← h.names, List.contains_cons, Field.answersTo]

/-- A name belongs to no slot, or to the slot of the field that answers to it. -/
theorem Field.Fills.find? {fs : List (Field (StateT (List Path) Option) (Tree κ σ) δ)}
    (h : List.Forall₂ (Field.Fills M) fs slots) (name : String) :
    (fs.find? (·.answersTo name) = none ∧ Shape.named? (Slot.fields slots) name = none ∧
      ∀ s ∈ slots, s.names.contains name = false) ∨
    ∃ f s, fs.find? (·.answersTo name) = some f ∧
      Shape.named? (Slot.fields slots) name = some s.shape ∧ s ∈ slots ∧ f.Fills M s ∧
      s.names.contains name = true := by
  induction h with
  | nil => exact .inl ⟨rfl, rfl, nofun⟩
  | @cons f s fs slots hf _ ih =>
    have hname := hf.answersTo name
    cases hs : s.names.contains name with
    | true =>
      rw [hs] at hname
      refine .inr ⟨f, s, ?_, ?_, List.mem_cons_self, hf, hs⟩
      · rw [List.find?_cons, hname]
      · simp only [Shape.named?, Slot.fields, List.map_cons, List.find?_cons, hs, Option.map_some]
    | false =>
      rw [hs] at hname
      have hfind : (f :: fs).find? (·.answersTo name) = fs.find? (·.answersTo name) := by
        rw [List.find?_cons, hname]
      have hnamed : Shape.named? (Slot.fields (s :: slots)) name =
          Shape.named? (Slot.fields slots) name := by
        simp only [Shape.named?, Slot.fields, List.map_cons, List.find?_cons, hs]
      rw [hfind, hnamed]
      obtain ⟨hnone, hshape, hall⟩ | ⟨g, s', hg, hshape, hmem, hfills, hs'⟩ := ih
      · exact .inl ⟨hnone, hshape, List.forall_mem_cons.2 ⟨hs, hall⟩⟩
      · exact .inr ⟨g, s', hg, hshape, List.mem_cons_of_mem _ hmem, hfills, hs'⟩

theorem Yields.readStray {x : StateT (List Path) Option δ} {more : List Path} {R : δ → Prop}
    (hx : Yields x more R) (p : Path) (t : Tree κ σ) : Yields (do
        M.dialect.tracking.note p
        M.dialect.tracking.skip t
        x) ([p] ++ more) fun draft => M.accepts t = true ∧ R draft := by
  have hskip : M.dialect.tracking.skip t = liftM (if M.accepts t then some () else none) := rfl
  rw [hskip]
  intro ps draft ps'
  cases haccepts : M.accepts t with
  | true =>
    simp only [if_true, true_and]
    rw [← List.append_assoc]
    exact hx (ps ++ [p]) draft ps'
  | false =>
    change none = some (draft, ps') ↔ _
    simp only [reduceCtorEq, Bool.false_eq_true, false_and]

/-- By induction on the fields: each takes the next element, or may be left out after the last. -/
theorem Field.Fills.readElements {fs : List (Field (StateT (List Path) Option) (Tree κ σ) δ)}
    (h : List.Forall₂ (Field.Fills M) fs slots) (p : Path) (n : Tree κ σ)
    {shapes : Nat → Option Shape} {i : Nat} (hshapes : ∀ j, shapes (i + j) = slots[j]?.map (·.shape))
    (ts : List (Tree κ σ)) (draft : δ) :
    Yields (lay.readElements M.dialect.tracking p n fs i ts draft) (M.straysOfItems shapes p i ts)
      fun last => M.LegibleItems shapes i ts ∧ Slot.Placed M slots ts draft last := by
  induction h generalizing i ts draft with
  | nil =>
    obtain ⟨hstrays, hlegible⟩ := Meaning.items_of_forall_none (M := M) p ts hshapes
    have hsurplus : M.dialect.tracking.surplus n ts =
        liftM (if M.exact && !ts.isEmpty then none else some ()) := rfl
    rw [Layout.readElements, hsurplus, hstrays]
    cases hleft : M.exact && !ts.isEmpty with
    | true =>
      simp only [if_true]
      refine Yields.never_bind.congr fun last => iff_of_false id fun ⟨_, hplaced, _⟩ => ?_
      simp_all
    | false =>
      simp only [Bool.false_eq_true, if_false]
      refine (Yields.lift_bind (Yields.pure draft)).congr fun last => ?_
      have hts : M.exact = true → ts = [] := by simpa using hleft
      simp only [Slot.Placed, hlegible, true_and]
      exact (and_iff_right hts).symm
  | @cons f s fs slots hf _ ih =>
    have hshape : shapes i = some s.shape := hshapes 0
    have hrest : ∀ j, shapes (i + 1 + j) = slots[j]?.map (·.shape) := fun j => by
      rw [Nat.add_assoc, Nat.add_comm 1 j, hshapes (j + 1), List.getElem?_cons_succ]
    cases ts with
    | nil =>
      have hclose : M.dialect.tracking.close n = liftM (some ()) := rfl
      rw [Layout.readElements, hclose]
      refine Yields.lift_bind ?_
      cases hoptional : s.optional with
      | true =>
        simp only [hf.optional, hoptional, if_true]
        refine (ih hrest [] draft).congr fun last => ?_
        simp only [Meaning.LegibleItems, Slot.Placed, hoptional, true_and]
      | false =>
        simp only [hf.optional, hoptional, Bool.false_eq_true, if_false]
        refine Yields.never.congr fun last => ?_
        simp only [Slot.Placed, hoptional, Bool.false_eq_true, false_and, and_false]
    | cons t ts =>
      simp only [Layout.readElements, Meaning.straysOfItems, Meaning.LegibleItems, hshape]
      refine ((hf.read (.index i :: p) n t draft).bind fun next _ => ih hrest ts next).congr
        fun last => ?_
      constructor
      · rintro ⟨_, ⟨ht, b, hb, rfl⟩, hts, hplaced⟩
        exact ⟨⟨ht, hts⟩, b, hb, hplaced⟩
      · rintro ⟨⟨ht, hts⟩, b, hb, hplaced⟩
        exact ⟨_, ⟨ht, b, hb, rfl⟩, hts, hplaced⟩

namespace Layout.Serves

/-- A name of one slot is none of another, which is not touched when the first is filled. -/
theorem apart_of_ne (h : lay.Serves M slots) {s s' : Slot κ σ δ} (hs : s ∈ slots) (hs' : s' ∈ slots)
    (hne : s' ≠ s) : s.Apart s' :=
  h.apart.forall hs hs' hne.symm

variable (h : lay.Serves M slots)
include h

/-- The first value for a free slot is the one it is filled with, and it has to be the last. -/
theorem settled_cons {s : Slot κ σ δ} (hs : s ∈ slots) {name : String}
    (hname : s.names.contains name = true) (t : Tree κ σ) (es : List (κ × Tree κ σ)) {draft : δ}
    (hfree : s.get draft = none) (last : δ) :
    (∃ b, s.holds t b ∧ ∀ s' ∈ slots,
      Settled s'.holds (M.values s'.names es) (s'.get (s.put b draft)) (s'.get last)) ↔
    ∀ s' ∈ slots, Settled s'.holds (if s'.names.contains name then t :: M.values s'.names es
      else M.values s'.names es) (s'.get draft) (s'.get last) := by
  have hother : ∀ s' ∈ slots, s' ≠ s →
      s'.names.contains name = false ∧ ∀ b, s'.get (s.put b draft) = s'.get draft :=
    fun s' hs' hne =>
      ⟨(h.apart_of_ne hs hs' hne).names name hname, fun b => (h.apart_of_ne hs hs' hne).right b draft⟩
  constructor
  · rintro ⟨b, hb, hall⟩ s' hs'
    by_cases heq : s' = s
    · subst heq
      rw [if_pos hname]
      have hsettled := hall s' hs'
      rw [h.get_put s' hs'] at hsettled
      rcases hsettled with ⟨hts, hlast⟩ | ⟨_, _, _, hold, _⟩
      · exact .inr ⟨t, b, by rw [hts], hfree, hb, hlast⟩
      · cases hold
    · obtain ⟨hno, hget⟩ := hother s' hs' heq
      rw [hno, if_neg Bool.false_ne_true, ← hget b]
      exact hall s' hs'
  · intro hall
    have hsettled := hall s hs
    rw [if_pos hname] at hsettled
    rcases hsettled with ⟨hts, _⟩ | ⟨t', b, hts, _, hb, hlast⟩
    · cases hts
    · obtain ⟨rfl, hnone⟩ := List.cons.inj hts
      refine ⟨b, hb, fun s' hs' => ?_⟩
      by_cases heq : s' = s
      · subst heq
        exact .inl ⟨hnone, hlast.trans (h.get_put s' hs' b draft).symm⟩
      · obtain ⟨hno, hget⟩ := hother s' hs' heq
        have hrest := hall s' hs'
        rwa [hno, if_neg Bool.false_ne_true, ← hget b] at hrest

/-- By induction on the entries: one that belongs to no slot is a stray, and any other settles its slot
once and for all. -/
theorem readEntries (p : Path) (n : Tree κ σ) (es : List (κ × Tree κ σ)) (draft : δ) :
    Yields (lay.readEntries M.dialect.tracking p n es draft)
      (M.straysOfEntries (Slot.fields slots) p es) fun draft' =>
        M.LegibleEntries (Slot.fields slots) es ∧
          ∀ s ∈ slots, Settled s.holds (M.values s.names es) (s.get draft) (s.get draft') := by
  induction es generalizing draft with
  | nil =>
    refine (Yields.pure draft).congr fun draft' => ?_
    constructor
    · rintro rfl
      exact ⟨trivial, fun s _ => .inl ⟨rfl, rfl⟩⟩
    · rintro ⟨-, hall⟩
      refine h.ext _ _ fun s hs => ?_
      rcases hall s hs with ⟨_, heq⟩ | ⟨_, _, hts, _⟩
      · exact heq
      · cases hts
  | cons e es ih =>
    obtain ⟨k, t⟩ := e
    have hkey : M.dialect.tracking.key p n k = liftM ((M.name k).map Step.key) := rfl
    rw [Layout.readEntries, hkey]
    cases hname : M.name k with
    | none =>
      refine Yields.never_bind.congr fun draft' => ?_
      simp only [Meaning.LegibleEntries, hname, false_and]
    | some name =>
      refine Yields.lift_bind ?_
      simp only [Step.plain, Meaning.straysOfEntries, Meaning.LegibleEntries, Meaning.values_cons,
        hname, Option.any_some]
      obtain ⟨hfind, hnamed, hall⟩ | ⟨f, s, hfind, hnamed, hs, hf, hmem⟩ :=
        Field.Fills.find? h.fills name
      · rw [hfind, hnamed]
        refine ((ih draft).readStray (.key name :: p) t).congr fun draft' => ?_
        rw [and_assoc]
        refine and_congr_right fun _ => and_congr_right fun _ => forall₂_congr fun s hs => ?_
        rw [hall s hs, if_neg Bool.false_ne_true]
      · rw [hfind, hnamed]
        have hset := hf.isSet draft
        cases hfree : s.get draft with
        | some b =>
          rw [hfree, Option.isSome_some] at hset
          simp only [hset, if_true]
          refine Yields.never.congr fun draft' => ?_
          refine iff_of_false id fun hread => ?_
          rcases hread.2 s hs with ⟨hts, _⟩ | ⟨_, _, _, hold, _⟩
          · rw [if_pos hmem] at hts
            cases hts
          · rw [hfree] at hold
            cases hold
        | none =>
          rw [hfree, Option.isSome_none] at hset
          simp only [hset, Bool.false_eq_true, if_false]
          refine ((hf.read (.key name :: p) n t draft).bind fun next _ => ih next).congr fun last => ?_
          rw [← h.settled_cons hs hmem t es hfree last]
          constructor
          · rintro ⟨_, ⟨ht, b, hb, rfl⟩, hes, hall⟩
            exact ⟨⟨ht, hes⟩, b, hb, hall⟩
          · rintro ⟨⟨ht, hes⟩, b, hb, hall⟩
            exact ⟨_, ⟨ht, b, hb, rfl⟩, hes, hall⟩

omit h in
/-- Drafts are concluded if they are full. -/
theorem bind_conclude {x : StateT (List Path) Option δ} {more : List Path} {R : δ → Prop}
    (hx : Yields x more R) (p : Path) (n : Tree κ σ) :
    Yields (x >>= lay.conclude M.dialect.tracking p n) more fun a =>
      ∃ draft, R draft ∧ lay.finish draft = .ok a := by
  rw [← List.append_nil more]
  refine hx.bind fun draft _ => ?_
  rw [Layout.conclude]
  cases lay.finish draft with
  | ok a =>
    refine (Yields.pure a).congr fun a' => ?_
    rw [Except.ok.injEq, eq_comm]
  | error name => exact Yields.never.congr fun a => by simp only [reduceCtorEq]

/-- No structure is a scalar. Whatever else a scalar counts as, it leaves the draft empty. -/
theorem read_scalar (p : Path) (v : σ) {more : List Path} :
    Yields (lay.read M.dialect.tracking p (.scalar v)) more fun _ => False := by
  have hview : M.dialect.tracking.view (.scalar v) = liftM (M.dialect.view (.scalar v)) := rfl
  have hnever (hread : lay.read M.dialect.tracking p (.scalar v) = liftM (none : Option α)) :
      Yields (lay.read M.dialect.tracking p (.scalar v)) more fun _ => False := by
    rw [hread]
    exact Yields.never
  cases hlost : M.isLost v with
  | true =>
    apply hnever
    rw [Layout.read, hview]
    simp only [Meaning.dialect, hlost, if_true]
    rfl
  | false =>
    cases hvoid : M.isVoid v with
    | true =>
      have hread : lay.read M.dialect.tracking p (.scalar v) =
          Pure.pure lay.empty >>= lay.conclude M.dialect.tracking p (.scalar v) := by
        rw [Layout.read, hview]
        simp only [Meaning.dialect, hlost, hvoid, Bool.false_eq_true, if_false, if_true]
        rfl
      rw [hread]
      refine (bind_conclude (Yields.pure lay.empty) p _).of_forall_not ?_
      rintro a ⟨_, rfl, hfinish⟩
      exact h.finish_empty a hfinish
    | false =>
      cases hguise : M.guise v with
      | none =>
        apply hnever
        rw [Layout.read, hview]
        simp only [Meaning.dialect, hlost, hvoid, hguise, Bool.false_eq_true, if_false]
        rfl
      | some k =>
        have hread : lay.read M.dialect.tracking p (.scalar v) =
            lay.readEntries M.dialect.tracking p (.scalar v) [(k, .scalar v)] lay.empty >>=
              lay.conclude M.dialect.tracking p (.scalar v) := by
          rw [Layout.read, hview]
          simp only [Meaning.dialect, hlost, hvoid, hguise, Bool.false_eq_true, if_false]
          rfl
        rw [hread]
        refine (bind_conclude (h.readEntries p _ _ lay.empty) p _).of_forall_not ?_
        rintro a ⟨draft, ⟨_, hall⟩, hfinish⟩
        have hdraft : draft = lay.empty := h.ext _ _ fun s hs => by
          rcases hall s hs with ⟨_, heq⟩ | ⟨_, _, hts, _⟩
          · exact heq
          · rw [Meaning.values_cons, M.name_guise v k hguise, Option.any_some, h.guise s hs,
              if_neg Bool.false_ne_true] at hts
            cases hts
        exact h.finish_empty a (hdraft ▸ hfinish)

theorem read_list (p : Path) (ts : List (Tree κ σ)) :
    Yields (lay.read M.dialect.tracking p (.list ts))
      (M.straysOfItems (Shape.placed? (Slot.fields slots)) p 0 ts) fun a =>
        M.LegibleItems (Shape.placed? (Slot.fields slots)) 0 ts ∧ ∃ draft,
          (M.positional = true ∧ Slot.Placed M slots ts lay.empty draft) ∧
            lay.finish draft = .ok a := by
  cases hpositional : M.positional with
  | true =>
    have hplaced :
        Yields (lay.readElements M.dialect.tracking p (.list ts) lay.fields 0 ts lay.empty) _ _ :=
      Field.Fills.readElements h.fills p (.list ts) (Slot.placed?_fields slots) ts lay.empty
    have hread : lay.read M.dialect.tracking p (.list ts) =
        lay.readElements M.dialect.tracking p (.list ts) lay.fields 0 ts lay.empty >>=
          lay.conclude M.dialect.tracking p (.list ts) := by
      change (if M.positional = true then _ else _) = _
      rw [if_pos hpositional]
    rw [hread]
    refine (bind_conclude hplaced p (.list ts)).congr fun a => ?_
    simp only [true_and, and_assoc, exists_and_left]
  | false =>
    have hread : lay.read M.dialect.tracking p (.list ts) = liftM (none : Option α) := by
      change (if M.positional = true then _ else _) = _
      rw [if_neg (by rw [hpositional]; exact Bool.false_ne_true)]
      rfl
    rw [hread]
    exact Yields.never.congr fun a => by simp

/-- A structure is read from what its tree gathers. -/
theorem read (p : Path) (t : Tree κ σ) :
    Yields (lay.read M.dialect.tracking p t) (M.strays (.record (Slot.fields slots)) p t) fun a =>
      M.Legible (.record (Slot.fields slots)) t ∧
        ∃ draft, Slot.Gathers M slots lay.empty t draft ∧ lay.finish draft = .ok a := by
  cases t with
  | map es =>
    simp only [Meaning.strays, Meaning.Legible, Slot.Gathers]
    refine Yields.congr (x := lay.read M.dialect.tracking p (.map es))
      (bind_conclude (h.readEntries p (.map es) es lay.empty) p (.map es)) fun a => ?_
    constructor
    · rintro ⟨draft, ⟨hes, hall⟩, hfinish⟩
      exact ⟨hes, draft, fun s hs => h.get_empty s hs ▸ hall s hs, hfinish⟩
    · rintro ⟨hes, draft, hall, hfinish⟩
      exact ⟨draft, ⟨hes, fun s hs => (h.get_empty s hs).symm ▸ hall s hs⟩, hfinish⟩
  | list ts =>
    simp only [Meaning.strays, Meaning.Legible, Slot.Gathers]
    exact h.read_list p ts
  | scalar v =>
    simp only [Slot.Gathers, false_and, exists_false, and_false]
    exact h.read_scalar p v

section Pruned
variable (hholds : ∀ s ∈ slots, ∀ t b, s.holds (M.prune s.shape t) b ↔ s.holds t b)

theorem values_pruneEntries {s : Slot κ σ δ} (hs : s ∈ slots) (es : List (κ × Tree κ σ)) :
    M.values s.names (M.pruneEntries (Slot.fields slots) es) =
      (M.values s.names es).map (M.prune s.shape) := by
  induction es with
  | nil => rfl
  | cons e es ih =>
    obtain ⟨k, t⟩ := e
    cases hname : M.name k with
    | none =>
      simpa [Meaning.pruneEntries, Meaning.field?, Meaning.values_cons, hname] using ih
    | some name =>
      rw [Meaning.pruneEntries, Meaning.field?_of_name hname, Meaning.values_cons, hname,
        Option.any_some]
      obtain ⟨_, hnamed, hall⟩ | ⟨_, s', _, hnamed, hs', _, hmem⟩ := Field.Fills.find? h.fills name
      · rw [hnamed, hall s hs, if_neg Bool.false_ne_true]
        exact ih
      · rw [hnamed]
        simp only [Meaning.values_cons, hname, Option.any_some, ih]
        by_cases heq : s = s'
        · subst heq
          rw [if_pos hmem, if_pos hmem, List.map_cons]
        · have hno := (h.apart_of_ne hs' hs heq).names name hmem
          rw [hno, if_neg Bool.false_ne_true, if_neg Bool.false_ne_true]

include hholds

omit h in
theorem settled_prune {s : Slot κ σ δ} (hs : s ∈ slots) (ts : List (Tree κ σ)) (new : Option s.β) :
    Settled s.holds (ts.map (M.prune s.shape)) none new ↔ Settled s.holds ts none new := by
  simp only [Settled, List.map_eq_nil_iff, List.map_eq_singleton_iff]
  refine or_congr_right ⟨?_, ?_⟩
  · rintro ⟨_, b, ⟨t, rfl, rfl⟩, -, hb, hnew⟩
    exact ⟨t, b, rfl, trivial, (hholds s hs t b).1 hb, hnew⟩
  · rintro ⟨t, b, rfl, -, hb, hnew⟩
    exact ⟨_, b, ⟨t, rfl, rfl⟩, trivial, (hholds s hs t b).2 hb, hnew⟩

omit h in
theorem placed_prune {shapes : Nat → Option Shape} {i : Nat}
    (hshapes : ∀ j, shapes (i + j) = slots[j]?.map (·.shape)) (ts : List (Tree κ σ)) (draft last : δ) :
    Slot.Placed M slots (M.pruneItems shapes i ts) draft last ↔ Slot.Placed M slots ts draft last := by
  induction slots generalizing i ts draft with
  | nil => cases ts <;> simp [Slot.Placed, Meaning.pruneItems]
  | cons s slots ih =>
    have hrest : ∀ j, shapes (i + 1 + j) = slots[j]?.map (·.shape) := fun j => by
      rw [Nat.add_assoc, Nat.add_comm 1 j, hshapes (j + 1), List.getElem?_cons_succ]
    have hshape : shapes i = some s.shape := hshapes 0
    cases ts with
    | nil => simp [Slot.Placed, Meaning.pruneItems]
    | cons t ts =>
      simp only [Slot.Placed, Meaning.pruneItems, hshape, hholds s List.mem_cons_self,
        ih (fun s' hs' => hholds s' (List.mem_cons_of_mem _ hs')) hrest]

/-- A tree gathers the same with its strays and without them. -/
theorem gathers_prune (empty : δ) (t : Tree κ σ) (draft : δ) :
    Slot.Gathers M slots empty (M.prune (.record (Slot.fields slots)) t) draft ↔
      Slot.Gathers M slots empty t draft := by
  cases t with
  | scalar v => simp only [Meaning.prune]
  | list ts =>
    simp only [Meaning.prune, Slot.Gathers]
    exact and_congr_right fun _ => placed_prune hholds (Slot.placed?_fields slots) ts empty draft
  | map es =>
    simp only [Meaning.prune, Slot.Gathers]
    refine forall₂_congr fun s hs => ?_
    rw [h.values_pruneEntries hs es]
    exact settled_prune hholds hs _ _

end Pruned

end Layout.Serves

theorem Yields.readItemsFrom {α : Type} {M : Meaning κ σ}
    {readOne : Path → Tree κ σ → StateT (List Path) Option α} {sh : Shape}
    {P : Tree κ σ → α → Prop} (hone : ∀ p t, Yields (readOne p t) (M.strays sh p t) fun a =>
      M.Legible sh t ∧ P t a) (p : Path) (i : Nat) (ts : List (Tree κ σ)) :
    Yields (Document.readItemsFrom readOne p i ts) (M.straysOfItems (fun _ => some sh) p i ts)
      fun as => M.LegibleItems (fun _ => some sh) i ts ∧ List.Forall₂ P ts as := by
  induction ts generalizing i with
  | nil =>
    refine (Yields.pure []).congr fun as => ?_
    simp only [Meaning.LegibleItems, List.forall₂_nil_left_iff, true_and]
  | cons t ts ih =>
    refine ((hone (.index i :: p) t).bind fun a _ => (ih (i + 1)).put (a :: ·)).congr fun as => ?_
    simp only [Meaning.LegibleItems, List.forall₂_cons_left_iff]
    constructor
    · rintro ⟨a, ⟨ht, ha⟩, as', ⟨hts, has⟩, rfl⟩
      exact ⟨⟨ht, hts⟩, a, as', ha, has, rfl⟩
    · rintro ⟨⟨ht, hts⟩, a, as', ha, has, rfl⟩
      exact ⟨a, ⟨ht, ha⟩, as', ⟨hts, has⟩, rfl⟩

end Structures

end SiteNav.Document
