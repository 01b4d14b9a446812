import SiteNav.Proofs.Document.Comparison
import SiteNav.Proofs.Document.Tree
import SiteNav.Yaml.Dialect

/-!
# YAML documents as trees

Aliases stand for the nodes they refer to, so a document is unfolded into a tree by putting these in
their places. A list or map may hold an alias of itself; a document is therefore unfolded down to some
depth only. Reading counts the aliases that it follows and stops at a limit. Main statement: readers
see the tree in the document if it reaches as deep as they look, as long as they stay within the limit.
-/
namespace SiteNav.Yaml
open Document

inductive Leaf where
  | scalar (s : Scalar)
  /-- What a text without a document holds. -/
  | nothing
  /-- An alias that leads nowhere. -/
  | lost
  /-- A list or map below the depth that was asked for. -/
  | beyond

/-- There is no alias in a node. -/
inductive Node.AliasFree : Node → Prop
  | scalar (m : Mark) (a : Option Nat) (s : Scalar) : AliasFree (.scalar m a s)
  | list (m : Mark) (a : Option Nat) {items : List Node} (h : ∀ n ∈ items, AliasFree n) :
      AliasFree (.list m a items)
  | map (m : Mark) (a : Option Nat) {entries : List (Node × Node)}
      (hkey : ∀ e ∈ entries, AliasFree e.1) (hvalue : ∀ e ∈ entries, AliasFree e.2) :
      AliasFree (.map m a entries)
  | nothing (m : Mark) : AliasFree (.nothing m)

abbrev Unfolded := Document.Tree (Option Scalar) Leaf

def meaning : Meaning (Option Scalar) Leaf where
  name k := k.map (·.text)
  text
    | .scalar s => some s.text
    | _ => none
  flag
    | .scalar s =>
      match s.isAbsent with
      | .ok true => some none
      | .ok false => s.flag?.map some
      | .error _ => none
    | .nothing => some none
    | .lost | .beyond => none
  isLost
    | .lost => true
    | _ => false
  isVoid
    | .scalar s => s.isVoid
    | .nothing => true
    | .lost | .beyond => false
  positional := false
  exact := false

namespace Tree
variable (t : Tree)

/-- The node that a node stands for. -/
def resolve? : Node → Option Node
  | .reference _ number => t.target? number
  | n => some n

/-- The scalar that a key stands for. -/
def key? (k : Node) : Option Scalar :=
  match t.resolve? k with
  | some (.scalar _ _ s) => some s
  | _ => none

/-- A node with its aliases replaced by what they stand for, down to some depth. -/
def unfold (depth : Nat) (n : Node) : Unfolded :=
  match t.resolve? n, depth with
  | some (.scalar _ _ s), _ => .scalar (.scalar s)
  | some (.nothing _), _ => .scalar .nothing
  | none, _ => .scalar .lost
  | some (.list _ _ items), depth + 1 => .list (items.map (unfold depth))
  | some (.map _ _ entries), depth + 1 => .map (entries.map fun e => (t.key? e.1, unfold depth e.2))
  | _, _ => .scalar .beyond

end Tree

section Meters
variable {limit : Nat} {free : Prop} {α β γ δ : Type} {R : α → β → Prop} {S : γ → δ → Prop}

/-- A computation follows the same number of aliases from any count, none if the document is free of
them, and fails without a reason of its own only where that is too much. -/
def Metered (limit : Nat) (free : Prop) {α β : Type} (R : α → β → Prop) (x : Reading α) :
    Option β → Prop
  | none => ∀ count ≤ limit, ∃ e, x.run count = .error e
  | some b => ∃ a aliases, R a b ∧ (free → aliases = 0) ∧ ∀ count ≤ limit,
      x.run count = if count + aliases ≤ limit then .ok (a, count + aliases) else .error .endless

theorem Metered.throw (e : Error) : Metered limit free R (throw e : Reading α) none :=
  fun _ _ => ⟨e, rfl⟩

theorem Metered.pure {a : α} {b : β} (h : R a b) :
    Metered limit free R (pure a : Reading α) (some b) :=
  ⟨a, 0, h, fun _ => rfl, fun count hcount => by rw [Nat.add_zero, if_pos hcount]; rfl⟩

theorem Metered.bind {x : Reading α} {y : Option β} {f : α → Reading γ} {g : β → Option δ}
    (hx : Metered limit free R x y) (hf : ∀ a b, R a b → Metered limit free S (f a) (g b)) :
    Metered limit free S (x >>= f) (y >>= g) := by
  have hrun : ∀ count, (x >>= f).run count = (x.run count).bind fun r => (f r.1).run r.2 :=
    fun _ => rfl
  cases y with
  | none =>
    intro count hcount
    obtain ⟨e, he⟩ := hx count hcount
    exact ⟨e, by rw [hrun, he]; rfl⟩
  | some b =>
    obtain ⟨a, aliases, hab, hfree, ha⟩ := hx
    have hnext := hf a b hab
    change Metered limit free S (x >>= f) (g b)
    cases hg : g b with
    | none =>
      rw [hg] at hnext
      intro count hcount
      rw [hrun, ha count hcount]
      by_cases hlimit : count + aliases ≤ limit
      · rw [if_pos hlimit]
        exact hnext _ hlimit
      · rw [if_neg hlimit]
        exact ⟨_, rfl⟩
    | some d =>
      rw [hg] at hnext
      obtain ⟨c, more, hcd, hfree', hc⟩ := hnext
      refine ⟨c, aliases + more, hcd, fun h => by rw [hfree h, hfree' h], fun count hcount => ?_⟩
      rw [hrun, ha count hcount, ← Nat.add_assoc]
      by_cases hlimit : count + aliases ≤ limit
      · rw [if_pos hlimit]
        exact hc _ hlimit
      · rw [if_neg hlimit, if_neg (by omega)]
        rfl

end Meters

def metered (limit : Nat) (free : Prop) : Comparison Reading Option where
  rel := Metered limit free
  pure := Metered.pure
  bind := Metered.bind

namespace Tree
variable {t : Tree} {free : Prop}

abbrev limit (t : Tree) : Nat := 100 * t.root.size

theorem run_follow_reference (m : Mark) (number count : Nat) :
    (t.follow (.reference m number)).run count =
      if t.limit < count + 1 then .error .endless
      else (t.target? number).elim (.error .malformed) fun n => .ok (n, count + 1) := by
  change StateT.run (if t.limit < count + 1 then _ else _) count = _
  by_cases hlimit : t.limit < count + 1
  · rw [if_pos hlimit, if_pos hlimit]
    rfl
  · rw [if_neg hlimit, if_neg hlimit]
    cases t.target? number with
    | none => rfl
    | some n => rfl

theorem follow_metered {n : Node} (hfree : free → n.AliasFree) :
    Metered t.limit free (fun n' _ => t.resolve? n = some n') (t.follow n) (t.resolve? n) := by
  cases n with
  | scalar m a s => exact .pure rfl
  | list m a items => exact .pure rfl
  | map m a entries => exact .pure rfl
  | nothing m => exact .pure rfl
  | reference m number =>
    change Metered t.limit free _ _ (t.target? number)
    cases htarget : t.target? number with
    | none =>
      intro count hcount
      rw [run_follow_reference, htarget]
      split
      · exact ⟨_, rfl⟩
      · exact ⟨_, rfl⟩
    | some n =>
      refine ⟨n, 1, htarget, fun h => ?_, fun count hcount => ?_⟩
      · cases hfree h
      · rw [run_follow_reference, htarget]
        by_cases hlimit : count + 1 ≤ t.limit
        · rw [if_neg (by omega), if_pos hlimit, Option.elim_some]
        · rw [if_pos (by omega), if_neg hlimit]

theorem follow_bind_metered {α β : Type} {R : α → β → Prop} {n : Node} (hfree : free → n.AliasFree)
    {f : Node → Reading α} {y : Option β}
    (hsome : ∀ n', t.resolve? n = some n' → Metered t.limit free R (f n') y)
    (hnone : t.resolve? n = none → y = none) : Metered t.limit free R (t.follow n >>= f) y := by
  have hfollow := follow_metered (t := t) hfree
  cases hresolve : t.resolve? n with
  | none =>
    rw [hresolve] at hfollow
    rw [hnone hresolve]
    intro count hcount
    obtain ⟨e, he⟩ := hfollow count hcount
    refine ⟨e, ?_⟩
    change ((t.follow n).run count).bind (fun r => (f r.1).run r.2) = _
    rw [he]
    rfl
  | some n' =>
    rw [hresolve] at hfollow
    exact hfollow.bind (g := fun _ => y) fun a _ ha => hsome a (hresolve.trans ha)

theorem aliasFree_of_resolve? {n n' : Node} (hn : t.resolve? n = some n') (h : n.AliasFree) :
    n'.AliasFree := by
  cases h <;> cases hn <;> constructor <;> assumption

/-- The tree of a node, unfolded at least this deep. -/
def Unfolds (t : Tree) (free : Prop) (i : Nat) (n : Node) (T : Unfolded) : Prop :=
  ∃ depth, i ≤ depth ∧ t.unfold depth n = T ∧ (free → n.AliasFree)

def UnfoldsKey (t : Tree) (free : Prop) (k : Node) (k' : Option Scalar) : Prop :=
  t.key? k = k' ∧ (free → k.AliasFree)

section Readers
variable {i : Nat} {n : Node} {T : Unfolded}

theorem Unfolds.view (h : t.Unfolds free (i + 1) n T) :
    Metered t.limit free (fun v v' => True ∧ View.Alike (t.Unfolds free i) (t.UnfoldsKey free) v.2 v'.2)
      (t.dialect.view n) (meaning.dialect.view T) := by
  obtain ⟨depth, hdepth, rfl, hfree⟩ := h
  obtain ⟨depth, rfl⟩ : ∃ d, depth = d + 1 := ⟨depth - 1, by omega⟩
  have hinner : ∀ n : Node, (free → n.AliasFree) → t.Unfolds free i n (t.unfold depth n) := fun _ h =>
    ⟨depth, Nat.le_of_succ_le_succ hdepth, rfl, h⟩
  rw [unfold.eq_def]
  refine follow_bind_metered hfree (fun n' hn => ?_) (fun hn => ?_)
  · rw [hn]
    cases n' with
    | scalar m a s =>
      change Metered _ free _ (Pure.pure (_, if s.isVoid then View.void else View.scalar))
        (if s.isVoid then some (_, View.void) else some (_, View.scalar))
      cases s.isVoid with
      | true => exact .pure ⟨trivial, .void⟩
      | false => exact .pure ⟨trivial, .scalar⟩
    | list m a items =>
      refine .pure ⟨trivial, .list ?_⟩
      refine List.forall₂_map_right_iff.2 (List.forall₂_same.2 fun n hmem => hinner n fun h => ?_)
      cases aliasFree_of_resolve? hn (hfree h) with
      | list _ _ hitems => exact hitems n hmem
    | map m a entries =>
      refine .pure ⟨trivial, .map ?_⟩
      have hentries : free → (∀ e ∈ entries, e.1.AliasFree) ∧ ∀ e ∈ entries, e.2.AliasFree := by
        intro h
        cases aliasFree_of_resolve? hn (hfree h) with
        | map _ _ hkey hvalue => exact ⟨hkey, hvalue⟩
      exact List.forall₂_map_right_iff.2 (List.forall₂_same.2 fun e hmem =>
        ⟨⟨rfl, fun h => (hentries h).1 e hmem⟩, hinner e.2 fun h => (hentries h).2 e hmem⟩)
    | nothing m => exact .pure ⟨trivial, .void⟩
    | reference m number => exact .pure ⟨trivial, .scalar⟩
  · rw [hn]
    rfl

theorem Unfolds.text (h : t.Unfolds free i n T) (p p' : Path) :
    Metered t.limit free Eq (t.dialect.text p n) (meaning.dialect.text p' T) := by
  obtain ⟨depth, hdepth, rfl, hfree⟩ := h
  rw [unfold.eq_def]
  refine follow_bind_metered hfree (fun n' hn => ?_) (fun hn => ?_)
  · rw [hn]
    cases n' with
    | scalar m a s => exact .pure rfl
    | nothing m => exact .throw _
    | reference m number => exact .throw _
    | list m a items => cases depth <;> exact .throw _
    | map m a entries => cases depth <;> exact .throw _
  · rw [hn]
    rfl

theorem Unfolds.flag (h : t.Unfolds free i n T) (p p' : Path) (holder : Node) (holder' : Unfolded) :
    Metered t.limit free Eq (t.dialect.flag p holder n) (meaning.dialect.flag p' holder' T) := by
  obtain ⟨depth, hdepth, rfl, hfree⟩ := h
  rw [unfold.eq_def]
  refine follow_bind_metered hfree (fun n' hn => ?_) (fun hn => ?_)
  · rw [hn]
    cases n' with
    | scalar m a s =>
      dsimp only [Meaning.dialect, meaning]
      cases s.isAbsent with
      | error e => exact .throw _
      | ok absent =>
        cases absent with
        | true => exact .pure rfl
        | false =>
          cases s.flag? with
          | none => exact .throw _
          | some b => exact .pure rfl
    | nothing m => exact .pure rfl
    | reference m number => exact .throw _
    | list m a items => cases depth <;> exact .throw _
    | map m a entries => cases depth <;> exact .throw _
  · rw [hn]
    rfl

theorem UnfoldsKey.key {k : Node} {k' : Option Scalar} (h : t.UnfoldsKey free k k') (p p' : Path)
    (n : Node) (T : Unfolded) : Metered t.limit free (fun s s' => s.plain = s'.plain)
      (t.dialect.key p n k) (meaning.dialect.key p' T k') := by
  obtain ⟨rfl, hfree⟩ := h
  change Metered _ free _ _ (((t.key? k).map (·.text)).map Step.key)
  refine follow_bind_metered hfree (fun k' hk => ?_) (fun hk => ?_)
  · rw [key?, hk]
    cases k' with
    | scalar m a s => cases k <;> exact .pure rfl
    | nothing m => exact .throw _
    | reference m number => exact .throw _
    | list m a items => exact .throw _
    | map m a entries => exact .throw _
  · rw [key?, hk]
    rfl

end Readers

theorem dialect_alike (t : Tree) (free : Prop) : t.dialect.Alike (metered t.limit free)
    (t.Unfolds free) (fun _ _ => True) (t.UnfoldsKey free) meaning.dialect where
  view h := h.view
  text p p' h := h.text p p'
  flag p p' holder holder' h := h.flag p p' holder holder'
  key p p' n n' h := h.key p p' n n'
  mistyped R _ _ _ _ _ := show Metered t.limit free R _ none from .throw _
  reject {α β} R p p' l l' e := by
    change Metered t.limit free R (t.dialect.reject p l e) none
    cases l <;> exact .throw _
  close _ := .pure rfl
  surplus _ _ := .pure rfl
  skip {i n T} _ := by
    have haccepts : meaning.dialect.skip T = some () :=
      if_pos (Meaning.accepts_of_forall (fun _ => rfl) T)
    rw [haccepts]
    exact .pure rfl
  note _ := .pure rfl
  positional := rfl

end Tree

end SiteNav.Yaml
