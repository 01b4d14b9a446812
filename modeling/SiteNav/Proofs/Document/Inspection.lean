import SiteNav.Document.SiteReader

/-!
# What a reader has seen

A site that is read leaves no part of its document unseen: every value is read as something or skipped,
and every list and map is closed. So a property that each look at a value makes sure of, and that lists
and maps have if they are closed and their parts have it, holds of the whole document.
-/
namespace SiteNav.Document
variable {m : Type → Type} [Monad m] {ν κ : Type}

/-- A way to say that a computation returns only values with some property. -/
structure Guarantee (m : Type → Type) [Monad m] where
  holds : {α : Type} → (α → Prop) → m α → Prop
  pure : ∀ {α : Type} {P : α → Prop} {a : α}, P a → holds P (pure a)
  bind : ∀ {α β : Type} {P : α → Prop} {Q : β → Prop} {x : m α} {f : α → m β},
    holds P x → (∀ a, P a → holds Q (f a)) → holds Q (x >>= f)
  imp : ∀ {α : Type} {P Q : α → Prop} {x : m α}, (∀ a, P a → Q a) → holds P x → holds Q x

/-- What is seen at a node makes sure of `W` there, once a list or map has the property `C` of closed
ones and its parts have `W`. -/
def View.Ensures (W C : ν → Prop) (n holder : ν) : View ν κ → Prop
  | .list ns => C holder → (∀ x ∈ ns, W x) → W n
  | .map es => C holder → (∀ e ∈ es, W e.2) → W n
  | .void => W n
  | .scalar => True

/-- Every look through the dialect makes sure of `W` where it looks, and of `C` where it is closed. -/
structure Dialect.Inspects (g : Guarantee m) (W C : ν → Prop) (d : Dialect m ν κ) : Prop where
  view : ∀ n, g.holds (fun v => v.2.Ensures W C n v.1) (d.view n)
  text : ∀ p n, g.holds (fun _ => W n) (d.text p n)
  flag : ∀ p holder n, g.holds (fun _ => W n) (d.flag p holder n)
  key : ∀ p n k, g.holds (fun _ => True) (d.key p n k)
  mistyped : ∀ {α : Type} (P : α → Prop) p n e, g.holds P (d.mistyped p n e)
  reject : ∀ {α : Type} (P : α → Prop) p l e, g.holds P (d.reject p l e)
  close : ∀ n, g.holds (fun _ => C n) (d.close n)
  surplus : ∀ n ns, g.holds (fun _ => (∀ x ∈ ns, W x) ∧ C n) (d.surplus n ns)
  skip : ∀ n, g.holds (fun _ => W n) (d.skip n)
  note : ∀ p, g.holds (fun _ => True) (d.note p)

variable {g : Guarantee m} {W C : ν → Prop} {d : Dialect m ν κ} (hd : d.Inspects g W C)
include hd

namespace Layout
variable {δ α : Type} {lay : Layout m ν δ α}
  (hread : ∀ f ∈ lay.fields, ∀ p holder n draft, g.holds (fun _ => W n) (f.read p holder n draft))
include hread

theorem readEntries_inspects (p : Path) (n : ν) (es : List (κ × ν)) (draft : δ) :
    g.holds (fun _ => ∀ e ∈ es, W e.2) (lay.readEntries d p n es draft) := by
  induction es generalizing draft with
  | nil => exact g.pure nofun
  | cons e es ih =>
    obtain ⟨k, v⟩ := e
    have hrest : ∀ draft, W v →
        g.holds (fun _ => ∀ e ∈ (k, v) :: es, W e.2) (lay.readEntries d p n es draft) :=
      fun draft hv => g.imp (fun _ hes => List.forall_mem_cons.2 ⟨hv, hes⟩) (ih draft)
    refine g.bind (hd.key p n k) fun step _ => ?_
    cases hfind : lay.fields.find? (·.answersTo step.plain) with
    | none =>
      refine g.bind (hd.note _) fun _ _ => ?_
      exact g.bind (hd.skip v) fun _ hv => hrest draft hv
    | some f =>
      dsimp only
      split
      · exact hd.reject ..
      · exact g.bind (hread f (List.mem_of_find?_eq_some hfind) _ _ v draft) fun next hv => hrest next hv

omit hread in
theorem readElements_inspects {fs : List (Field m ν δ)}
    (hread : ∀ f ∈ fs, ∀ p holder n draft, g.holds (fun _ => W n) (f.read p holder n draft))
    (p : Path) (n : ν) (i : Nat) (ns : List ν) (draft : δ) :
    g.holds (fun _ => (∀ x ∈ ns, W x) ∧ C n) (lay.readElements d p n fs i ns draft) := by
  induction fs generalizing i ns draft with
  | nil =>
    simp only [readElements]
    exact g.bind (hd.surplus n ns) fun _ h => g.pure h
  | cons f fs ih =>
    have ih := ih fun f hf => hread f (List.mem_cons_of_mem _ hf)
    cases ns with
    | nil =>
      simp only [readElements]
      refine g.bind (hd.close n) fun _ _ => ?_
      split
      · exact ih ..
      · exact hd.reject ..
    | cons v rest =>
      simp only [readElements]
      refine g.bind (hread f List.mem_cons_self _ _ v draft) fun next hv => ?_
      exact g.imp (fun _ h => ⟨List.forall_mem_cons.2 ⟨hv, h.1⟩, h.2⟩) (ih ..)

omit hread in
theorem conclude_inspects {P : Prop} (hP : P) (p : Path) (n : ν) (draft : δ) :
    g.holds (fun _ => P) (lay.conclude d p n draft) := by
  rw [conclude]
  split
  · exact g.pure hP
  · exact hd.reject ..

theorem read_inspects (p : Path) (n : ν) : g.holds (fun _ => W n) (lay.read d p n) := by
  refine g.bind (hd.view n) ?_
  rintro ⟨holder, view⟩ hview
  cases view with
  | scalar => exact hd.mistyped ..
  | void => exact conclude_inspects hd hview ..
  | map es =>
    refine g.bind (readEntries_inspects hd hread p holder es _) fun draft hes => ?_
    exact g.bind (hd.close holder) fun _ hclose => conclude_inspects hd (hview hclose hes) ..
  | list ns =>
    dsimp only
    split
    · refine g.bind (readElements_inspects hd hread p holder 0 ns _) fun draft h => ?_
      exact conclude_inspects hd (hview h.2 h.1) ..
    · exact hd.mistyped ..

end Layout

omit hd in
theorem readItemsFrom_inspects {α : Type} {readOne : Path → ν → m α}
    (hone : ∀ p n, g.holds (fun _ => W n) (readOne p n)) (p : Path) (i : Nat) (ns : List ν) :
    g.holds (fun _ => ∀ x ∈ ns, W x) (readItemsFrom readOne p i ns) := by
  induction ns generalizing i with
  | nil => exact g.pure nofun
  | cons n ns ih =>
    refine g.bind (hone _ n) fun a hn => ?_
    exact g.bind (ih (i + 1)) fun as hns => g.pure (List.forall_mem_cons.2 ⟨hn, hns⟩)

theorem readList_inspects {α : Type} {readOne : Path → ν → m α}
    (hone : ∀ p n, g.holds (fun _ => W n) (readOne p n)) (p : Path) (n : ν) :
    g.holds (fun _ => W n) (readList d readOne p n) := by
  refine g.bind (hd.view n) ?_
  rintro ⟨holder, view⟩ hview
  cases view with
  | scalar => exact hd.mistyped ..
  | map es => exact hd.mistyped ..
  | void => exact g.pure hview
  | list ns =>
    refine g.bind (readItemsFrom_inspects hone p 0 ns) fun as hns => ?_
    exact g.bind (hd.close holder) fun _ hclose => g.pure (hview hclose hns)

namespace Dialect.Inspects

omit hd in
/-- What becomes of a value does not matter. -/
theorem andThen {α β : Type} {n : ν} {x : m α} (hx : g.holds (fun _ => W n) x) (f : α → β) :
    g.holds (fun _ => W n) (do return f (← x)) :=
  g.bind hx fun _ hn => g.pure hn

theorem readItem (p : Path) (n : ν) : g.holds (fun _ => W n) (d.readItem p n) := by
  refine Layout.read_inspects hd ?_ p n
  simp only [Dialect.itemLayout, List.forall_mem_cons]
  exact ⟨fun p _ n _ => andThen (hd.text p n) _, fun p _ n _ => andThen (hd.text p n) _, nofun⟩

theorem readGroup (p : Path) (n : ν) : g.holds (fun _ => W n) (d.readGroup p n) := by
  refine Layout.read_inspects hd ?_ p n
  simp only [Dialect.groupLayout, List.forall_mem_cons]
  exact ⟨fun p _ n _ => andThen (hd.text p n) _, fun p h n _ => andThen (hd.flag p h n) _,
    fun p _ n _ => andThen (readList_inspects hd hd.readItem p n) _, nofun⟩

theorem readSidebar (p : Path) (n : ν) : g.holds (fun _ => W n) (d.readSidebar p n) :=
  readList_inspects hd hd.readGroup p n

theorem readTheme (p : Path) (n : ν) : g.holds (fun _ => W n) (d.themeLayout.read d p n) := by
  refine Layout.read_inspects hd ?_ p n
  simp only [Dialect.themeLayout, List.forall_mem_cons]
  exact ⟨fun p _ n _ => andThen (hd.readSidebar p n) _, nofun⟩

/-- A site that is read makes sure of its whole document. -/
theorem readSite (n : ν) : g.holds (fun _ => W n) (d.readSite n) := by
  have hraw : g.holds (fun _ => W n) (d.siteLayout.read d [] n) := by
    refine Layout.read_inspects hd ?_ [] n
    simp only [Dialect.siteLayout, List.forall_mem_cons]
    exact ⟨fun p _ n _ => andThen (hd.text p n) _, fun p _ n _ => andThen (hd.text p n) _,
      fun p _ n _ => andThen (hd.text p n) _, fun p _ n _ => andThen (hd.readSidebar p n) _,
      fun p _ n _ => andThen (hd.readTheme p n) _, nofun⟩
  refine g.bind hraw fun raw hn => ?_
  split
  · exact g.pure hn
  · exact hd.reject ..

end Dialect.Inspects

omit hd

/-- Keeping paths takes nothing from what a computation makes sure of. -/
def Guarantee.tracking (g : Guarantee m) : Guarantee (StateT (List Path) m) where
  holds {α} P x := ∀ ps, g.holds (fun r : α × List Path => P r.1) (x.run ps)
  pure h _ := g.pure h
  bind hx hf ps := g.bind (hx ps) fun r h => hf r.1 h r.2
  imp h hx ps := g.imp (fun r => h r.1) (hx ps)

theorem Guarantee.tracking_lift {g : Guarantee m} {α : Type} {P : α → Prop} {x : m α}
    (h : g.holds P x) : g.tracking.holds P (liftM x) :=
  fun _ => g.bind h fun _ ha => g.pure ha

theorem Dialect.Inspects.tracking (hd : d.Inspects g W C) : d.tracking.Inspects g.tracking W C where
  view n := g.tracking_lift (hd.view n)
  text p n := g.tracking_lift (hd.text p n)
  flag p holder n := g.tracking_lift (hd.flag p holder n)
  key p n k := g.tracking_lift (hd.key p n k)
  mistyped P p n e := g.tracking_lift (hd.mistyped P p n e)
  reject P p l e := g.tracking_lift (hd.reject P p l e)
  close n := g.tracking_lift (hd.close n)
  surplus n ns := g.tracking_lift (hd.surplus n ns)
  skip n := g.tracking_lift (hd.skip n)
  note p := g.tracking.bind (g.tracking_lift (hd.note p)) fun _ _ _ => g.pure trivial

def Guarantee.except (ε : Type) : Guarantee (Except ε) where
  holds P x := ∀ a, x = .ok a → P a
  pure h a ha := Except.ok.inj ha ▸ h
  bind {α β P Q x f} hx hf b hb := by
    cases x with
    | error e => cases hb
    | ok a => exact hf a (hx a rfl) b hb
  imp h hx a ha := h a (hx a ha)

end SiteNav.Document
