import SiteNav.Proofs.Document.Comparison

/-!
# Reading without keeping paths

A tracking reader does what the reader without tracking does, and keeps paths on the side. So the two
are compared by what they return, and the paths are left out of the comparison. Main statement: from
alike nodes the two read the same site, if any.
-/
namespace SiteNav.Document
variable {m m' : Type → Type} [Monad m] [Monad m'] {ν κ ν' κ' : Type}

/-- Both return something, or both fail, for whatever reason. -/
inductive Concur {ε ε' α β : Type} (R : α → β → Prop) : Except ε α → Except ε' β → Prop
  | ok {a : α} {b : β} (h : R a b) : Concur R (.ok a) (.ok b)
  | error (e : ε) (e' : ε') : Concur R (.error e) (.error e')

theorem Concur.refl {ε α : Type} {R : α → α → Prop} (hR : ∀ a, R a a) (x : Except ε α) :
    Concur R x x := by
  cases x with
  | ok a => exact .ok (hR a)
  | error e => exact .error e e

namespace Comparison

def concurrence (ε ε' : Type) : Comparison (Except ε) (Except ε') where
  rel R x y := Concur R x y
  pure h := .ok h
  bind hx hf := by
    cases hx with
    | ok h => exact hf _ _ h
    | error e e' => exact .error e e'

/-- Computations that run in step: from the same state they come to the same. -/
def inStep (c : Comparison m m') (σ : Type) : Comparison (StateT σ m) (StateT σ m') where
  rel {α β} R x y := ∀ s,
    c.rel (fun (r : α × σ) (r' : β × σ) => R r.1 r'.1 ∧ r.2 = r'.2) (x.run s) (y.run s)
  pure h _ := c.pure ⟨h, rfl⟩
  bind hx hf s := by
    refine c.bind (hx s) ?_
    rintro ⟨a, s⟩ ⟨b, _⟩ ⟨h, rfl⟩
    exact hf a b h s

/-- The paths that the first computation keeps are left out. -/
def untracked (c : Comparison m m') : Comparison (StateT (List Path) m) m' where
  rel {α β} R x y := ∀ ps, c.rel (fun (r : α × List Path) (b : β) => R r.1 b) (x.run ps) y
  pure h _ := c.pure h
  bind hx hf ps := c.bind (hx ps) fun r b h => hf r.1 b h r.2

variable {c : Comparison m m'}

theorem untracked_lift [LawfulMonad m'] {α β : Type} {R : α → β → Prop} {x : m α} {y : m' β}
    (h : c.rel R x y) : c.untracked.rel R (liftM x) y := by
  intro ps
  rw [← bind_pure y]
  exact c.bind h fun _ _ hab => c.pure hab

end Comparison

/-- Nothing but what it fails with depends on the path at which a dialect looks at a node, so that it is
alike to itself. -/
theorem Dialect.Alike.self {c : Comparison m m} {d : Dialect m ν κ}
    (hrefl : ∀ {α : Type} {R : α → α → Prop}, (∀ a, R a a) → ∀ x : m α, c.rel R x x)
    (htext : ∀ p p' n, c.rel Eq (d.text p n) (d.text p' n))
    (hflag : ∀ p p' holder holder' n, c.rel Eq (d.flag p holder n) (d.flag p' holder' n))
    (hkey : ∀ p p' n n' k, c.rel (fun s s' => s.plain = s'.plain) (d.key p n k) (d.key p' n' k))
    (hmistyped : ∀ {α β : Type} (R : α → β → Prop) p p' n n' e,
      c.rel R (d.mistyped p n e) (d.mistyped p' n' e))
    (hreject : ∀ {α β : Type} (R : α → β → Prop) p p' l l' e,
      c.rel R (d.reject p l e) (d.reject p' l' e))
    (hnote : ∀ p p', c.rel Eq (d.note p) (d.note p')) :
    d.Alike c (fun _ => Eq) Eq Eq d where
  view {_ n _} h := by
    subst h
    refine hrefl (fun v => ⟨rfl, ?_⟩) (d.view n)
    rcases v.2 with _ | _ | ns | es
    · exact .scalar
    · exact .void
    · exact .list (List.forall₂_same.2 fun _ _ => rfl)
    · exact .map (List.forall₂_same.2 fun _ _ => ⟨rfl, rfl⟩)
  text p p' h := h ▸ htext p p' _
  flag p p' holder holder' h := h ▸ hflag p p' holder holder' _
  key p p' n n' h := h ▸ hkey p p' n n' _
  mistyped := hmistyped
  reject := hreject
  close h := h ▸ hrefl (fun _ => rfl) _
  surplus h hns := by
    obtain rfl := h
    obtain rfl := List.forall₂_eq_eq_eq ▸ hns
    exact hrefl (fun _ => rfl) _
  skip h := h ▸ hrefl (fun _ => rfl) _
  note _ := hnote _ _
  positional := rfl

variable [LawfulMonad m'] {c : Comparison m m'} {N : Nat → ν → ν' → Prop} {H : ν → ν' → Prop}
  {K : κ → κ' → Prop} {d : Dialect m ν κ} {d' : Dialect m' ν' κ'}

theorem Dialect.Alike.untracked (hd : d.Alike c N H K d') :
    d.tracking.Alike c.untracked N H K d' where
  view hn := c.untracked_lift (hd.view hn)
  text p p' hn := c.untracked_lift (hd.text p p' hn)
  flag p p' holder holder' hn := c.untracked_lift (hd.flag p p' holder holder' hn)
  key p p' n n' hk := c.untracked_lift (hd.key p p' n n' hk)
  mistyped R p p' n n' e := c.untracked_lift (hd.mistyped R p p' n n' e)
  reject R p p' l l' e := c.untracked_lift (hd.reject R p p' l l' e)
  close hn := c.untracked_lift (hd.close hn)
  surplus hn hns := c.untracked_lift (hd.surplus hn hns)
  skip hn := c.untracked_lift (hd.skip hn)
  note {_ p'} hp := by
    rw [← bind_pure (d'.note p')]
    exact c.untracked.bind (c.untracked_lift (hd.note hp)) fun _ _ _ _ => c.pure rfl
  positional := hd.positional

/-- Alike nodes are read as the same site with tracking and without. -/
theorem Dialect.Alike.readTracked_untracked (hd : d.Alike c N H K d') {i : Nat} {n : ν} {n' : ν'}
    (hn : N (i + 6) n n') : c.rel (fun r s => r.1 = s) (d.readTracked n) (d'.readSite n') :=
  hd.untracked.readSite hn []

end SiteNav.Document
