import Mathlib.Data.List.Perm.Basic
import SiteNav.Toml.Node

/-!
# Tables as maps

A table keeps its entries in the order of their keys, so what it holds is a list of entries up to their
order. Setting an entry adds it or puts it in the place of the one with the same key.
-/
namespace SiteNav.Toml.Entries
variable {es l r : Entries} {k : String} {n old : Node}

def Sorted (es : Entries) : Prop :=
  es.Pairwise fun a b => a.1 < b.1

theorem get?_eq_none (h : k ∉ es.map (·.1)) : es.get? k = none := by
  induction es with
  | nil => rfl
  | cons e es ih =>
    obtain ⟨key, node⟩ := e
    rw [List.map_cons, List.mem_cons, not_or] at h
    rw [get?, if_neg (Ne.symm h.1), ih h.2]

theorem get?_eq_some (hsorted : es.Sorted) (h : (k, n) ∈ es) : es.get? k = some n := by
  induction es with
  | nil => simp at h
  | cons e es ih =>
    obtain ⟨key, node⟩ := e
    obtain ⟨hkey, htail⟩ := List.pairwise_cons.1 hsorted
    rw [get?]
    rcases List.mem_cons.1 h with heq | hmem
    · cases heq
      rw [if_pos rfl]
    · have hlt : key < k := hkey _ hmem
      rw [if_neg (by rintro rfl; exact String.lt_irrefl _ hlt), ih htail hmem]

theorem mem_set {e : String × Node} (h : e ∈ set k n es) : e = (k, n) ∨ e ∈ es := by
  induction es with
  | nil => simpa [set] using h
  | cons x es ih =>
    obtain ⟨key, node⟩ := x
    rw [set] at h
    split at h
    · rcases List.mem_cons.1 h with h | h
      · exact .inl h
      · exact .inr (List.mem_cons_of_mem _ h)
    · split at h
      · exact List.mem_cons.1 h
      · rcases List.mem_cons.1 h with h | h
        · exact .inr (h ▸ List.mem_cons_self)
        · exact (ih h).imp_right (List.mem_cons_of_mem _)

theorem Sorted.set (hsorted : es.Sorted) (k : String) (n : Node) : (es.set k n).Sorted := by
  induction es with
  | nil => exact List.pairwise_singleton _ _
  | cons x es ih =>
    obtain ⟨key, node⟩ := x
    obtain ⟨hkey, htail⟩ := List.pairwise_cons.1 hsorted
    rw [Entries.set]
    split
    case isTrue heq =>
      exact List.pairwise_cons.2 ⟨heq ▸ hkey, htail⟩
    case isFalse hne =>
      split
      case isTrue hlt =>
        refine List.pairwise_cons.2 ⟨fun e he => ?_, hsorted⟩
        rcases List.mem_cons.1 he with rfl | he
        · exact hlt
        · exact String.lt_trans hlt (hkey e he)
      case isFalse hnot =>
        have hlt : key < k := by
          rcases Decidable.em (key < k) with hlt | hge
          · exact hlt
          · exact absurd (String.le_antisymm (String.not_lt.1 hnot) (String.not_lt.1 hge)) hne
        refine List.pairwise_cons.2 ⟨fun e he => ?_, ih htail⟩
        rcases mem_set he with rfl | he
        · exact hlt
        · exact hkey e he

theorem set_perm_cons (h : k ∉ es.map (·.1)) : (es.set k n).Perm ((k, n) :: es) := by
  induction es with
  | nil => exact .refl _
  | cons x es ih =>
    obtain ⟨key, node⟩ := x
    rw [List.map_cons, List.mem_cons, not_or] at h
    rw [set, if_neg (Ne.symm h.1)]
    split
    · exact .refl _
    · exact ((ih h.2).cons _).trans (.swap _ _ _)

theorem exists_set_eq_append (hsorted : es.Sorted) (h : (k, old) ∈ es) (n : Node) :
    ∃ before after, es = before ++ (k, old) :: after ∧ es.set k n = before ++ (k, n) :: after := by
  induction es with
  | nil => simp at h
  | cons x es ih =>
    obtain ⟨key, node⟩ := x
    obtain ⟨hkey, htail⟩ := List.pairwise_cons.1 hsorted
    rcases List.mem_cons.1 h with heq | hmem
    · cases heq
      exact ⟨[], es, rfl, by rw [set, if_pos rfl]; rfl⟩
    · have hlt : key < k := hkey _ hmem
      obtain ⟨before, after, hes, hset⟩ := ih htail hmem
      refine ⟨(key, node) :: before, after, by rw [hes]; rfl, ?_⟩
      rw [set, if_neg (by rintro rfl; exact String.lt_irrefl _ hlt), if_neg (String.lt_asymm hlt),
        hset]
      rfl

/-- A table holds entries if they are its own ones in some order. -/
structure Holds (es l : Entries) : Prop where
  sorted : es.Sorted
  perm : es.Perm l

theorem Holds.nil : Holds [] [] :=
  ⟨.nil, .refl _⟩

theorem Holds.get?_eq_none (h : es.Holds l) (hk : k ∉ l.map (·.1)) : es.get? k = none :=
  Entries.get?_eq_none fun hmem => hk ((h.perm.map _).mem_iff.1 hmem)

theorem Holds.get?_eq_some (h : es.Holds l) (hk : (k, n) ∈ l) : es.get? k = some n :=
  Entries.get?_eq_some h.sorted (h.perm.mem_iff.2 hk)

theorem Holds.add (h : es.Holds l) (hk : k ∉ l.map (·.1)) (n : Node) :
    (es.set k n).Holds (l ++ [(k, n)]) :=
  have hes : k ∉ es.map (·.1) := fun hmem => hk ((h.perm.map _).mem_iff.1 hmem)
  ⟨h.sorted.set k n, (set_perm_cons hes).trans
    ((h.perm.cons _).trans (List.perm_append_singleton _ _).symm)⟩

theorem Holds.replace (h : es.Holds (l ++ [(k, old)])) (n : Node) :
    (es.set k n).Holds (l ++ [(k, n)]) := by
  have hmem : (k, old) ∈ es := h.perm.mem_iff.2 (by simp)
  obtain ⟨before, after, hes, hset⟩ := exists_set_eq_append h.sorted hmem n
  have hrest : (before ++ after).Perm l := by
    have hperm := h.perm
    rw [hes] at hperm
    exact (List.perm_middle.symm.trans (hperm.trans (List.perm_append_singleton _ _))).cons_inv
  refine ⟨h.sorted.set k n, ?_⟩
  rw [hset]
  exact List.perm_middle.trans ((hrest.cons _).trans (List.perm_append_singleton _ _).symm)

end SiteNav.Toml.Entries
