import SiteNav.Document.Dialect

/-!
# Documents as trees

Whatever its format, a document is a tree of scalars, lists and maps. A meaning says what the keys and
scalars of a format serve as, and with it a tree is looked at through a dialect of its own, in which a
failure gives no reason. The values of a field are those of the entries whose keys answer to it.
-/
namespace SiteNav.Document

inductive Tree (κ σ : Type) where
  | scalar (value : σ)
  | list (items : List (Tree κ σ))
  | map (entries : List (κ × Tree κ σ))

/-- What the keys and scalars of a format serve as. -/
structure Meaning (κ σ : Type) where
  /-- The name that a key spells. -/
  name : κ → Option String
  text : σ → Option String
  /-- A scalar as a flag that may be left open. -/
  flag : σ → Option (Option Bool)
  /-- There is nothing to look at. -/
  isLost : σ → Bool := fun _ => false
  /-- The scalar counts as a list or map without content where one is called for. -/
  isVoid : σ → Bool := fun _ => false
  /-- The key under which a scalar also counts as a map that holds it. -/
  guise : σ → Option κ := fun _ => none
  /-- A value nobody asked for may hold this scalar. -/
  isSound : σ → Bool := fun _ => true
  /-- A structure may be written as the list of its fields. -/
  positional : Bool
  /-- No values may follow the fields of such a list. -/
  exact : Bool
  /-- No structure has a field of the name that guises have. -/
  name_guise : ∀ s k, guise s = some k → name k = some "$__toml_private_datetime" := by simp

namespace Tree
variable {κ σ : Type}

mutual

/-- The tests hold of all keys and all scalars of a tree. -/
def all (key : κ → Bool) (scalar : σ → Bool) : Tree κ σ → Bool
  | .scalar s => scalar s
  | .list ts => allItems key scalar ts
  | .map es => allEntries key scalar es

def allItems (key : κ → Bool) (scalar : σ → Bool) : List (Tree κ σ) → Bool
  | [] => true
  | t :: ts => all key scalar t && allItems key scalar ts

def allEntries (key : κ → Bool) (scalar : σ → Bool) : List (κ × Tree κ σ) → Bool
  | [] => true
  | (k, t) :: es => key k && all key scalar t && allEntries key scalar es

end

mutual

theorem all_of_all {key key' : κ → Bool} {scalar : σ → Bool} (hkey : ∀ k, key k = true → key' k = true) :
    ∀ t : Tree κ σ, t.all key scalar = true → t.all key' scalar = true
  | .scalar _, h => h
  | .list ts, h => allItems_of_allItems hkey ts h
  | .map es, h => allEntries_of_allEntries hkey es h

theorem allItems_of_allItems {key key' : κ → Bool} {scalar : σ → Bool}
    (hkey : ∀ k, key k = true → key' k = true) :
    ∀ ts : List (Tree κ σ), allItems key scalar ts = true → allItems key' scalar ts = true
  | [], _ => rfl
  | t :: ts, h => by
    rw [allItems, Bool.and_eq_true] at h ⊢
    exact ⟨all_of_all hkey t h.1, allItems_of_allItems hkey ts h.2⟩

theorem allEntries_of_allEntries {key key' : κ → Bool} {scalar : σ → Bool}
    (hkey : ∀ k, key k = true → key' k = true) :
    ∀ es : List (κ × Tree κ σ), allEntries key scalar es = true → allEntries key' scalar es = true
  | [], _ => rfl
  | (k, t) :: es, h => by
    rw [allEntries, Bool.and_eq_true, Bool.and_eq_true] at h ⊢
    exact ⟨⟨hkey k h.1.1, all_of_all hkey t h.1.2⟩, allEntries_of_allEntries hkey es h.2⟩

end

mutual

theorem all_of_forall {key : κ → Bool} {scalar : σ → Bool} (hkey : ∀ k, key k = true)
    (hscalar : ∀ s, scalar s = true) : ∀ t : Tree κ σ, t.all key scalar = true
  | .scalar s => hscalar s
  | .list ts => allItems_of_forall hkey hscalar ts
  | .map es => allEntries_of_forall hkey hscalar es

theorem allItems_of_forall {key : κ → Bool} {scalar : σ → Bool} (hkey : ∀ k, key k = true)
    (hscalar : ∀ s, scalar s = true) : ∀ ts : List (Tree κ σ), allItems key scalar ts = true
  | [] => rfl
  | t :: ts => by
    rw [allItems, all_of_forall hkey hscalar t, allItems_of_forall hkey hscalar ts, Bool.and_self]

theorem allEntries_of_forall {key : κ → Bool} {scalar : σ → Bool} (hkey : ∀ k, key k = true)
    (hscalar : ∀ s, scalar s = true) : ∀ es : List (κ × Tree κ σ), allEntries key scalar es = true
  | [] => rfl
  | (k, t) :: es => by
    rw [allEntries, hkey k, all_of_forall hkey hscalar t, allEntries_of_forall hkey hscalar es,
      Bool.and_self, Bool.and_self]

end

end Tree

namespace Meaning
variable {κ σ : Type} (M : Meaning κ σ)

/-- Nobody minds this value where nothing is asked for. -/
def accepts (t : Tree κ σ) : Bool :=
  t.all (fun _ => true) M.isSound

/-- Every key of the tree spells a name, and every scalar is sound. -/
def WellFormed (t : Tree κ σ) : Prop :=
  t.all (fun k => (M.name k).isSome) M.isSound = true

theorem WellFormed.accepts {M : Meaning κ σ} {t : Tree κ σ} (h : M.WellFormed t) :
    M.accepts t = true :=
  Tree.all_of_all (fun _ _ => rfl) t h

theorem accepts_of_forall {M : Meaning κ σ} (h : ∀ s, M.isSound s = true) (t : Tree κ σ) :
    M.accepts t = true :=
  Tree.all_of_forall (fun _ => rfl) h t

def dialect : Dialect Option (Tree κ σ) κ where
  view t :=
    match t with
    | .list ts => some (t, .list ts)
    | .map es => some (t, .map es)
    | .scalar s =>
      if M.isLost s then none
      else if M.isVoid s then some (t, .void)
      else match M.guise s with
        | some k => some (t, .map [(k, t)])
        | none => some (t, .scalar)
  text _ t :=
    match t with
    | .scalar s => M.text s
    | _ => none
  flag _ _ t :=
    match t with
    | .scalar s => M.flag s
    | _ => none
  key _ _ k := (M.name k).map .key
  mistyped _ _ _ := none
  reject _ _ _ := none
  close _ := some ()
  surplus _ rest := if M.exact && !rest.isEmpty then none else some ()
  skip t := if M.accepts t then some () else none
  note _ := some ()
  positional := M.positional

/-- The values of the entries whose keys spell one of the names. -/
def values (names : List String) (es : List (κ × Tree κ σ)) : List (Tree κ σ) :=
  (es.filter fun e => (M.name e.1).any names.contains).map (·.2)

theorem values_cons (names : List String) (k : κ) (t : Tree κ σ) (es : List (κ × Tree κ σ)) :
    M.values names ((k, t) :: es) =
      if (M.name k).any names.contains then t :: M.values names es else M.values names es := by
  simp only [values, List.filter_cons]
  split <;> rfl

end Meaning

end SiteNav.Document
