import Mathlib.Data.List.Forall2
import SiteNav.Document.SiteReader

/-!
# Readers over two dialects

Readers of sites are written over any dialect, so two dialects that look at their nodes alike read the
same from them. Alike is up to a relation between the nodes and one between the keys, and up to the way
in which computations in the two monads compare. Nodes are related down to a number of levels; a site
takes six of them. Main statement: from alike nodes the same site is read, if any, and the same dotted
paths are left over.
-/
namespace SiteNav.Document

/-- A way to compare computations in two monads by a relation between what they return, kept when
computations are put in sequence. -/
structure Comparison (m m' : Type → Type) [Monad m] [Monad m'] where
  rel : {α β : Type} → (α → β → Prop) → m α → m' β → Prop
  pure : ∀ {α β : Type} {R : α → β → Prop} {a : α} {b : β}, R a b → rel R (pure a) (pure b)
  bind : ∀ {α β γ δ : Type} {R : α → β → Prop} {S : γ → δ → Prop} {x : m α} {y : m' β}
    {f : α → m γ} {g : β → m' δ}, rel R x y → (∀ a b, R a b → rel S (f a) (g b)) →
    rel S (x >>= f) (y >>= g)

/-- Paths by way of keys and positions with the same spelling. -/
def Path.Alike (p p' : Path) : Prop :=
  p.map Step.plain = p'.map Step.plain

theorem Path.Alike.cons {s s' : Step} {p p' : Path} (hs : s.plain = s'.plain) (hp : Path.Alike p p') :
    Path.Alike (s :: p) (s' :: p') := by
  simp only [Path.Alike, List.map_cons, hs, show p.map Step.plain = p'.map Step.plain from hp]

theorem Path.Alike.dotted_eq {p p' : Path} (h : Path.Alike p p') : p.dotted = p'.dotted := by
  simp only [Path.dotted, List.map_reverse, show p.map Step.plain = p'.map Step.plain from h]

theorem Path.Alike.map_dotted_eq {ps ps' : List Path} (h : List.Forall₂ Path.Alike ps ps') :
    ps.map (·.dotted) = ps'.map (·.dotted) := by
  induction h with
  | nil => rfl
  | cons hp _ ih => rw [List.map_cons, List.map_cons, hp.dotted_eq, ih]

section
variable {m m' : Type → Type} [Monad m] [Monad m'] {ν κ ν' κ' : Type}

inductive View.Alike (N : ν → ν' → Prop) (K : κ → κ' → Prop) : View ν κ → View ν' κ' → Prop
  | scalar : Alike N K .scalar .scalar
  | void : Alike N K .void .void
  | list {ns : List ν} {ns' : List ν'} (h : List.Forall₂ N ns ns') : Alike N K (.list ns) (.list ns')
  | map {es : List (κ × ν)} {es' : List (κ' × ν')}
      (h : List.Forall₂ (fun e e' => K e.1 e'.1 ∧ N e.2 e'.2) es es') : Alike N K (.map es) (.map es')

/-- Dialects that look alike at nodes which `N` relates down to some level, and at keys which `K`
relates. A look at the inside of a list or map takes a level, and the nodes that turn out to hold the
inside are related by `H`. -/
structure Dialect.Alike (c : Comparison m m') (N : Nat → ν → ν' → Prop) (H : ν → ν' → Prop)
    (K : κ → κ' → Prop) (d : Dialect m ν κ) (d' : Dialect m' ν' κ') : Prop where
  view : ∀ {i n n'}, N (i + 1) n n' →
    c.rel (fun v v' => H v.1 v'.1 ∧ View.Alike (N i) K v.2 v'.2) (d.view n) (d'.view n')
  text : ∀ {i n n'} p p', N i n n' → c.rel Eq (d.text p n) (d'.text p' n')
  flag : ∀ {i n n'} p p' holder holder', N i n n' →
    c.rel Eq (d.flag p holder n) (d'.flag p' holder' n')
  key : ∀ {k k'} p p' n n', K k k' →
    c.rel (fun s s' => s.plain = s'.plain) (d.key p n k) (d'.key p' n' k')
  mistyped : ∀ {α β : Type} (R : α → β → Prop) p p' n n' e,
    c.rel R (d.mistyped p n e) (d'.mistyped p' n' e)
  reject : ∀ {α β : Type} (R : α → β → Prop) p p' l l' e,
    c.rel R (d.reject p l e) (d'.reject p' l' e)
  close : ∀ {n n'}, H n n' → c.rel Eq (d.close n) (d'.close n')
  surplus : ∀ {i n n' ns ns'}, H n n' → List.Forall₂ (N i) ns ns' →
    c.rel Eq (d.surplus n ns) (d'.surplus n' ns')
  skip : ∀ {i n n'}, N i n n' → c.rel Eq (d.skip n) (d'.skip n')
  note : ∀ {p p'}, Path.Alike p p' → c.rel Eq (d.note p) (d'.note p')
  positional : d.positional = d'.positional

/-- Fields of the same name that read alike. -/
structure Field.Alike {δ : Type} (c : Comparison m m') (N : ν → ν' → Prop) (f : Field m ν δ)
    (f' : Field m' ν' δ) : Prop where
  name : f.name = f'.name
  aliases : f.aliases = f'.aliases
  optional : f.optional = f'.optional
  isSet : f.isSet = f'.isSet
  read : ∀ {p p' n n'} holder holder' draft, Path.Alike p p' → N n n' →
    c.rel Eq (f.read p holder n draft) (f'.read p' holder' n' draft)

structure Layout.Alike {δ α : Type} (c : Comparison m m') (N : ν → ν' → Prop) (lay : Layout m ν δ α)
    (lay' : Layout m' ν' δ α) : Prop where
  record : lay.record = lay'.record
  fields : List.Forall₂ (Field.Alike c N) lay.fields lay'.fields
  empty : lay.empty = lay'.empty
  finish : lay.finish = lay'.finish

variable {c : Comparison m m'} {N : Nat → ν → ν' → Prop} {H : ν → ν' → Prop} {K : κ → κ' → Prop}
  {d : Dialect m ν κ} {d' : Dialect m' ν' κ'} {i : Nat} {n : ν} {n' : ν'} {p p' : Path}

theorem Field.Alike.answersTo {δ : Type} {N : ν → ν' → Prop} {f : Field m ν δ} {f' : Field m' ν' δ}
    (h : f.Alike c N f') (name : String) : f.answersTo name = f'.answersTo name := by
  simp only [Field.answersTo, h.name, h.aliases]

/-- Of alike fields the same one answers to a name. -/
theorem Field.Alike.find? {δ : Type} {N : ν → ν' → Prop} {fs : List (Field m ν δ)}
    {fs' : List (Field m' ν' δ)} (h : List.Forall₂ (Field.Alike c N) fs fs') (name : String) :
    (fs.find? (·.answersTo name) = none ∧ fs'.find? (·.answersTo name) = none) ∨
      ∃ f f', fs.find? (·.answersTo name) = some f ∧ fs'.find? (·.answersTo name) = some f' ∧
        Field.Alike c N f f' := by
  induction h with
  | nil => exact .inl ⟨rfl, rfl⟩
  | @cons f f' fs fs' hf _ ih =>
    cases hname : f.answersTo name with
    | true =>
      have hname' : f'.answersTo name = true := (hf.answersTo name).symm.trans hname
      exact .inr ⟨f, f', by simp [hname], by simp [hname'], hf⟩
    | false =>
      have hname' : f'.answersTo name = false := (hf.answersTo name).symm.trans hname
      simpa [List.find?_cons, hname, hname'] using ih

namespace Layout
variable {δ α : Type} {lay : Layout m ν δ α} {lay' : Layout m' ν' δ α}

theorem Alike.readEntries (hd : d.Alike c N H K d') (hlay : lay.Alike c (N i) lay')
    (hp : Path.Alike p p') {es : List (κ × ν)} {es' : List (κ' × ν')}
    (hes : List.Forall₂ (fun e e' => K e.1 e'.1 ∧ N i e.2 e'.2) es es') (draft : δ) :
    c.rel Eq (lay.readEntries d p n es draft) (lay'.readEntries d' p' n' es' draft) := by
  induction hes generalizing draft with
  | nil => exact c.pure rfl
  | @cons e e' es es' he _ ih =>
    obtain ⟨k, v⟩ := e
    obtain ⟨k', v'⟩ := e'
    refine c.bind (hd.key p p' n n' he.1) fun step step' hstep => ?_
    rw [hstep]
    obtain ⟨hf, hf'⟩ | ⟨f, f', hf, hf', halike⟩ := Field.Alike.find? hlay.fields step'.plain
    · rw [hf, hf']
      refine c.bind (hd.note (.cons hstep hp)) fun _ _ _ => ?_
      exact c.bind (hd.skip he.2) fun _ _ _ => ih draft
    · rw [hf, hf']
      simp only [halike.isSet, halike.name]
      cases f'.isSet draft with
      | true => exact hd.reject ..
      | false =>
        refine c.bind (halike.read n n' draft (.cons hstep hp) he.2) ?_
        rintro next _ rfl
        exact ih next

theorem Alike.readElements (hd : d.Alike c N H K d') (hn : H n n') (hp : Path.Alike p p')
    (hrecord : lay.record = lay'.record) {fs : List (Field m ν δ)} {fs' : List (Field m' ν' δ)}
    (hfs : List.Forall₂ (Field.Alike c (N i)) fs fs') (j : Nat) {ns : List ν} {ns' : List ν'}
    (hns : List.Forall₂ (N i) ns ns') (draft : δ) :
    c.rel Eq (lay.readElements d p n fs j ns draft) (lay'.readElements d' p' n' fs' j ns' draft) := by
  induction hfs generalizing j ns ns' draft with
  | nil =>
    simp only [Layout.readElements]
    exact c.bind (hd.surplus hn hns) fun _ _ _ => c.pure rfl
  | @cons f f' fs fs' hf _ ih =>
    cases hns with
    | nil =>
      simp only [Layout.readElements, hf.optional, hrecord]
      refine c.bind (hd.close hn) fun _ _ _ => ?_
      cases f'.optional with
      | true => exact ih (j + 1) .nil draft
      | false => exact hd.reject ..
    | cons hv hrest =>
      simp only [Layout.readElements]
      refine c.bind (hf.read n n' draft (.cons rfl hp) hv) ?_
      rintro next _ rfl
      exact ih (j + 1) hrest next

theorem Alike.conclude (hd : d.Alike c N H K d') (hlay : lay.Alike c (N i) lay') (draft : δ) :
    c.rel Eq (lay.conclude d p n draft) (lay'.conclude d' p' n' draft) := by
  simp only [Layout.conclude, hlay.finish]
  cases lay'.finish draft with
  | ok a => exact c.pure rfl
  | error name => exact hd.reject ..

theorem Alike.read (hd : d.Alike c N H K d') (hlay : lay.Alike c (N i) lay') (hp : Path.Alike p p')
    (hn : N (i + 1) n n') : c.rel Eq (lay.read d p n) (lay'.read d' p' n') := by
  refine c.bind (hd.view hn) ?_
  rintro ⟨n, view⟩ ⟨n', view'⟩ ⟨hn, hview⟩
  cases hview with
  | scalar =>
    simp only [hlay.record]
    exact hd.mistyped ..
  | void =>
    simp only [hlay.empty]
    exact hlay.conclude hd _
  | list hns =>
    simp only [hd.positional, hlay.record, hlay.empty]
    cases d'.positional with
    | true =>
      refine c.bind (Alike.readElements hd hn hp hlay.record hlay.fields 0 hns _) ?_
      rintro draft _ rfl
      exact hlay.conclude hd draft
    | false => exact hd.mistyped ..
  | map hes =>
    simp only [hlay.empty]
    refine c.bind (hlay.readEntries hd hp hes _) ?_
    rintro draft _ rfl
    exact c.bind (hd.close hn) fun _ _ _ => hlay.conclude hd draft

end Layout

theorem readItemsFrom_alike {α : Type} {M : ν → ν' → Prop} {readOne : Path → ν → m α}
    {readOne' : Path → ν' → m' α} (hone : ∀ p p' n n', Path.Alike p p' → M n n' →
      c.rel Eq (readOne p n) (readOne' p' n')) (hp : Path.Alike p p') (j : Nat) {ns : List ν}
    {ns' : List ν'} (hns : List.Forall₂ M ns ns') :
    c.rel Eq (readItemsFrom readOne p j ns) (readItemsFrom readOne' p' j ns') := by
  induction hns generalizing j with
  | nil => exact c.pure rfl
  | cons hv _ ih =>
    refine c.bind (hone _ _ _ _ (.cons rfl hp) hv) ?_
    rintro a _ rfl
    refine c.bind (ih (j + 1)) ?_
    rintro as _ rfl
    exact c.pure rfl

theorem readList_alike (hd : d.Alike c N H K d') {α : Type} {readOne : Path → ν → m α}
    {readOne' : Path → ν' → m' α} (hone : ∀ p p' n n', Path.Alike p p' → N i n n' →
      c.rel Eq (readOne p n) (readOne' p' n')) (hp : Path.Alike p p') (hn : N (i + 1) n n') :
    c.rel Eq (readList d readOne p n) (readList d' readOne' p' n') := by
  refine c.bind (hd.view hn) ?_
  rintro ⟨n, view⟩ ⟨n', view'⟩ ⟨hn, hview⟩
  cases hview with
  | scalar => exact hd.mistyped ..
  | void => exact c.pure rfl
  | map _ => exact hd.mistyped ..
  | list hns =>
    refine c.bind (readItemsFrom_alike hone hp 0 hns) ?_
    rintro as _ rfl
    exact c.bind (hd.close hn) fun _ _ _ => c.pure rfl

namespace Dialect.Alike
variable (hd : d.Alike c N H K d')
include hd

/-- What is read for a field goes into the draft. -/
theorem putText {δ : Type} (put : String → δ) (hn : N i n n') :
    c.rel Eq (do return put (← d.text p n)) (do return put (← d'.text p' n')) := by
  refine c.bind (hd.text p p' hn) ?_
  rintro s _ rfl
  exact c.pure rfl

theorem itemLayout : d.itemLayout.Alike c (N i) d'.itemLayout where
  record := rfl
  fields := .cons ⟨rfl, rfl, rfl, rfl, fun _ _ _ _ hn => hd.putText _ hn⟩ <|
    .cons ⟨rfl, rfl, rfl, rfl, fun _ _ _ _ hn => hd.putText _ hn⟩ .nil
  empty := rfl
  finish := rfl

theorem readItem (hp : Path.Alike p p') (hn : N (i + 1) n n') :
    c.rel Eq (d.readItem p n) (d'.readItem p' n') :=
  hd.itemLayout.read hd hp hn

theorem groupLayout : d.groupLayout.Alike c (N (i + 2)) d'.groupLayout where
  record := rfl
  fields := by
    refine .cons ⟨rfl, rfl, rfl, rfl, fun _ _ _ _ hn => hd.putText _ hn⟩ <|
      .cons ⟨rfl, rfl, rfl, rfl, fun holder holder' draft hp hn => ?_⟩ <|
      .cons ⟨rfl, rfl, rfl, rfl, fun _ _ draft hp hn => ?_⟩ .nil
    · refine c.bind (hd.flag _ _ holder holder' hn) ?_
      rintro flag _ rfl
      exact c.pure rfl
    · refine c.bind (readList_alike hd (fun _ _ _ _ hp hn => hd.readItem hp hn) hp hn) ?_
      rintro items _ rfl
      exact c.pure rfl
  empty := rfl
  finish := rfl

theorem readGroup (hp : Path.Alike p p') (hn : N (i + 3) n n') :
    c.rel Eq (d.readGroup p n) (d'.readGroup p' n') :=
  hd.groupLayout.read hd hp hn

theorem readSidebar (hp : Path.Alike p p') (hn : N (i + 4) n n') :
    c.rel Eq (d.readSidebar p n) (d'.readSidebar p' n') :=
  readList_alike hd (fun _ _ _ _ hp hn => hd.readGroup hp hn) hp hn

theorem themeLayout : d.themeLayout.Alike c (N (i + 4)) d'.themeLayout where
  record := rfl
  fields := by
    refine .cons ⟨rfl, rfl, rfl, rfl, fun _ _ draft hp hn => ?_⟩ .nil
    refine c.bind (hd.readSidebar hp hn) ?_
    rintro groups _ rfl
    exact c.pure rfl
  empty := rfl
  finish := rfl

theorem siteLayout : d.siteLayout.Alike c (N (i + 5)) d'.siteLayout where
  record := rfl
  fields := by
    refine .cons ⟨rfl, rfl, rfl, rfl, fun _ _ _ _ hn => hd.putText _ hn⟩ <|
      .cons ⟨rfl, rfl, rfl, rfl, fun _ _ _ _ hn => hd.putText _ hn⟩ <|
      .cons ⟨rfl, rfl, rfl, rfl, fun _ _ _ _ hn => hd.putText _ hn⟩ <|
      .cons ⟨rfl, rfl, rfl, rfl, fun _ _ draft hp hn => ?_⟩ <|
      .cons ⟨rfl, rfl, rfl, rfl, fun _ _ draft hp hn => ?_⟩ .nil
    · refine c.bind (hd.readSidebar (i := i + 1) hp hn) ?_
      rintro groups _ rfl
      exact c.pure rfl
    · refine c.bind (hd.themeLayout.read hd hp hn) ?_
      rintro groups _ rfl
      exact c.pure rfl
  empty := rfl
  finish := rfl

theorem readSite (hn : N (i + 6) n n') : c.rel Eq (d.readSite n) (d'.readSite n') := by
  refine c.bind (hd.siteLayout.read hd (show Path.Alike [] [] from rfl) hn) ?_
  rintro raw _ rfl
  cases raw.settle with
  | ok s => exact c.pure rfl
  | error e => exact hd.reject ..

end Dialect.Alike

end

section Tracking
variable {m m' : Type → Type} [Monad m] [Monad m'] {ν κ ν' κ' : Type}

/-- What computations return and the paths they have kept are both compared. -/
def Comparison.tracking (c : Comparison m m') :
    Comparison (StateT (List Path) m) (StateT (List Path) m') where
  rel {α β} R x y := ∀ ps ps', List.Forall₂ Path.Alike ps ps' →
    c.rel (fun (r : α × List Path) (r' : β × List Path) =>
      R r.1 r'.1 ∧ List.Forall₂ Path.Alike r.2 r'.2) (x.run ps) (y.run ps')
  pure h _ _ hps := c.pure ⟨h, hps⟩
  bind hx hf ps ps' hps := c.bind (hx ps ps' hps) fun r r' h => hf r.1 r'.1 h.1 r.2 r'.2 h.2

variable {c : Comparison m m'}

theorem Comparison.tracking_lift {α β : Type} {R : α → β → Prop} {x : m α} {y : m' β}
    (h : c.rel R x y) : c.tracking.rel R (liftM x) (liftM y) :=
  fun _ _ hps => c.bind h fun _ _ hab => c.pure ⟨hab, hps⟩

variable {N : Nat → ν → ν' → Prop} {H : ν → ν' → Prop} {K : κ → κ' → Prop} {d : Dialect m ν κ}
  {d' : Dialect m' ν' κ'}

theorem Dialect.Alike.tracking (hd : d.Alike c N H K d') :
    d.tracking.Alike c.tracking N H K d'.tracking where
  view hn := c.tracking_lift (hd.view hn)
  text p p' hn := c.tracking_lift (hd.text p p' hn)
  flag p p' holder holder' hn := c.tracking_lift (hd.flag p p' holder holder' hn)
  key p p' n n' hk := c.tracking_lift (hd.key p p' n n' hk)
  mistyped R p p' n n' e := c.tracking_lift (hd.mistyped R p p' n n' e)
  reject R p p' l l' e := c.tracking_lift (hd.reject R p p' l l' e)
  close hn := c.tracking_lift (hd.close hn)
  surplus hn hns := c.tracking_lift (hd.surplus hn hns)
  skip hn := c.tracking_lift (hd.skip hn)
  note hp := c.tracking.bind (c.tracking_lift (hd.note hp)) fun _ _ _ _ _ hps =>
    c.pure ⟨rfl, List.rel_append hps (.cons hp .nil)⟩
  positional := hd.positional

/-- Alike nodes are read as the same site, with alike paths left over. -/
theorem Dialect.Alike.readTracked (hd : d.Alike c N H K d') {i : Nat} {n : ν} {n' : ν'}
    (hn : N (i + 6) n n') : c.rel (fun r r' => r.1 = r'.1 ∧ List.Forall₂ Path.Alike r.2 r'.2)
      (d.readTracked n) (d'.readTracked n') :=
  hd.tracking.readSite hn [] [] .nil

end Tracking

/-- Both return something, or both fail, for whatever reason. -/
inductive SameOutcome {ε α β : Type} (R : α → β → Prop) : Except ε α → Option β → Prop
  | ok {a : α} {b : β} (h : R a b) : SameOutcome R (.ok a) (some b)
  | error (e : ε) : SameOutcome R (.error e) none

def Comparison.except (ε : Type) : Comparison (Except ε) Option where
  rel R x y := SameOutcome R x y
  pure h := .ok h
  bind hx hf := by
    cases hx with
    | ok h => exact hf _ _ h
    | error e => exact .error e

end SiteNav.Document
