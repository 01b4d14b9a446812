import SiteNav.Yaml.Tree

/-!
# One document at most

A node is built from the tokens up to a mark of a document at most. Main statement: there is no tree if
a document begins behind another one, or anything but more marks stands behind the mark of an end.
-/
namespace SiteNav.Yaml

def Lexeme.IsMark : Lexeme → Prop
  | .document _ => True
  | _ => False

def Lexeme.IsDirective : Lexeme → Prop
  | .version _ _ | .tagHandle _ _ => True
  | _ => False

/-- What is left of a source after some of its tokens, none of which marks a document. -/
def Source.Passes (s s' : Source) : Prop :=
  ∃ used, s.tokens = used ++ s'.tokens ∧ ∀ t ∈ used, ¬ t.lexeme.IsMark

namespace Source.Passes
variable {s s' s'' : Source}

theorem refl (s : Source) : s.Passes s :=
  ⟨[], rfl, fun _ h => absurd h List.not_mem_nil⟩

theorem trans (h : s.Passes s') (h' : s'.Passes s'') : s.Passes s'' := by
  obtain ⟨used, heq, hused⟩ := h
  obtain ⟨used', heq', hused'⟩ := h'
  refine ⟨used ++ used', by rw [heq, heq', List.append_assoc], fun t ht => ?_⟩
  rcases List.mem_append.1 ht with ht | ht
  · exact hused t ht
  · exact hused' t ht

end Source.Passes

namespace Builder
variable {α β : Type} {s : Source}

/-- A builder that takes no mark of a document, if it comes to an end. -/
def Takes (s : Source) (x : Builder α) : Prop :=
  ∀ a s', x.run s = some (a, s') → s.Passes s'

theorem exists_of_run_bind {x : Builder α} {f : α → Builder β} {r : β × Source}
    (h : (x >>= f).run s = some r) : ∃ a s', x.run s = some (a, s') ∧ (f a).run s' = some r := by
  change ((x.run s).bind fun r => (f r.1).run r.2) = some r at h
  obtain ⟨⟨a, s'⟩, ha, hr⟩ := Option.bind_eq_some_iff.1 h
  exact ⟨a, s', ha, hr⟩

/-- The next token is looked at and left where it is. -/
theorem exists_of_run_peek {f : Token → Builder β} {r : β × Source}
    (h : (peek >>= f).run s = some r) : ∃ t rest, s.tokens = t :: rest ∧ (f t).run s = some r := by
  obtain ⟨tokens, anchors, handles⟩ := s
  cases tokens with
  | nil => cases h
  | cons t tokens => exact ⟨t, tokens, rfl, h⟩

namespace Takes

theorem pure (a : α) : Takes s (pure a) := by
  intro _ s' h
  cases h
  exact .refl s

theorem failure : Takes s (failure : Builder α) := by
  intro _ _ h
  cases h

theorem bind {x : Builder α} {f : α → Builder β} (hx : Takes s x) (hf : ∀ a s', Takes s' (f a)) :
    Takes s (x >>= f) := by
  intro b s'' h
  obtain ⟨a, s', ha, hb⟩ := exists_of_run_bind h
  exact (hx a s' ha).trans (hf a s' b s'' hb)

theorem peek {f : Token → Builder β} (hf : ∀ t rest, s.tokens = t :: rest → Takes s (f t)) :
    Takes s (Builder.peek >>= f) := by
  intro b s' h
  obtain ⟨t, rest, ht, hb⟩ := exists_of_run_peek h
  exact hf t rest ht b s' hb

theorem advance {t : Token} {rest : List Token} {f : Unit → Builder β} (ht : s.tokens = t :: rest)
    (hmark : ¬ t.lexeme.IsMark) (hf : ∀ s', Takes s' (f ())) : Takes s (Builder.advance >>= f) := by
  intro b s' h
  have hrest : Source.Passes { s with tokens := s.tokens.tail } s' := hf _ b s' h
  refine Source.Passes.trans ⟨[t], ?_, fun t' ht' => ?_⟩ hrest
  · rw [ht]
    rfl
  · rwa [List.mem_singleton.1 ht']

end Takes

theorem takes_define (name : String) : Takes s (define name) := by
  intro a s' h
  cases h
  exact ⟨[], rfl, fun _ h => absurd h List.not_mem_nil⟩

theorem takes_lookUp (name : String) : Takes s (lookUp name) := by
  intro a s' h
  obtain ⟨_, _, hget, h⟩ := exists_of_run_bind h
  cases hget
  split at h
  · cases h
    exact .refl s
  · cases h

theorem takes_expand (handle suffix : String) : Takes s (expand handle suffix) := by
  intro a s' h
  rw [expand] at h
  split at h
  · cases h
    exact .refl s
  · obtain ⟨_, _, hget, h⟩ := exists_of_run_bind h
    cases hget
    split at h
    · cases h
      exact .refl s
    · cases h

theorem takes_takeAnchor : Takes s takeAnchor := by
  rw [takeAnchor]
  refine .peek fun t _ ht => ?_
  split
  · next name h => exact .advance ht (h ▸ id) fun s => .bind (takes_define name) fun _ _ => .pure _
  · exact .pure _

theorem takes_takeTag : Takes s takeTag := by
  rw [takeTag]
  refine .peek fun t _ ht => ?_
  split
  · next handle suffix h =>
    exact .advance ht (h ▸ id) fun s => .bind (takes_expand handle suffix) fun _ _ => .pure _
  · exact .pure _

theorem takes_properties : Takes s properties := by
  rw [properties]
  refine .bind takes_takeAnchor fun anchor s => ?_
  split
  · exact .bind takes_takeTag fun _ _ => .pure _
  · refine .bind takes_takeTag fun tag s => ?_
    split
    · exact .bind takes_takeAnchor fun _ _ => .pure _
    · exact .pure _

/-- None of the builders takes a mark of a document. -/
structure Stays (fuel : Nat) : Prop where
  node : ∀ s block dashes, Takes s (node fuel block dashes)
  blockItems : ∀ s, Takes s (blockItems fuel)
  dashEntries : ∀ s, Takes s (dashEntries fuel)
  blockEntries : ∀ s, Takes s (blockEntries fuel)
  flowItems : ∀ s first, Takes s (flowItems fuel first)
  pair : ∀ s, Takes s (pair fuel)
  flowEntries : ∀ s first, Takes s (flowEntries fuel first)

section Succ
variable {fuel : Nat} (h : Stays fuel)
include h

theorem node_succ (s : Source) (block dashes : Bool) : Takes s (node (fuel + 1) block dashes) := by
  rw [node]
  refine .peek fun first _ hfirst => ?_
  split
  · next name hx => exact .advance hfirst (hx ▸ id) fun s => .bind (takes_lookUp name) fun _ _ => .pure _
  · refine .bind takes_properties fun p s => .peek fun t _ ht => ?_
    split
    · exact .bind (h.dashEntries s) fun _ _ => .pure _
    · next hx => exact .advance ht (hx ▸ id) fun s => .pure _
    · next hx => exact .advance ht (hx ▸ id) fun s => .bind (h.flowItems s true) fun _ _ => .pure _
    · next hx => exact .advance ht (hx ▸ id) fun s => .bind (h.flowEntries s true) fun _ _ => .pure _
    · next hx => exact .advance ht (hx ▸ id) fun s => .bind (h.blockItems s) fun _ _ => .pure _
    · next hx => exact .advance ht (hx ▸ id) fun s => .bind (h.blockEntries s) fun _ _ => .pure _
    · split
      · exact .pure _
      · exact .failure

theorem blockItems_succ (s : Source) : Takes s (blockItems (fuel + 1)) := by
  have hrest (n : Node) (s : Source) : Takes s (do return n :: (← blockItems fuel)) :=
    .bind (h.blockItems s) fun _ _ => .pure _
  rw [blockItems]
  refine .peek fun t _ ht => ?_
  split
  · next hx =>
    refine .advance ht (hx ▸ id) fun s => .peek fun t' _ ht' => ?_
    dsimp only
    split
    · exact .bind (.pure _) hrest
    · exact .bind (.pure _) hrest
    · exact .bind (h.node s true false) hrest
  · next hx => exact .advance ht (hx ▸ id) fun s => .pure _
  · exact .failure

theorem dashEntries_succ (s : Source) : Takes s (dashEntries (fuel + 1)) := by
  have hrest (n : Node) (s : Source) : Takes s (do return n :: (← dashEntries fuel)) :=
    .bind (h.dashEntries s) fun _ _ => .pure _
  rw [dashEntries]
  refine .peek fun t _ ht => ?_
  split
  · next hx =>
    refine .advance ht (hx ▸ id) fun s => .peek fun t' _ ht' => ?_
    dsimp only
    split
    · exact .bind (.pure _) hrest
    · exact .bind (.pure _) hrest
    · exact .bind (.pure _) hrest
    · exact .bind (.pure _) hrest
    · exact .bind (h.node s true false) hrest
  · exact .pure _

/-- The value of an entry of a block, and the entries after it. -/
def blockValue (fuel : Nat) (k : Node) : Builder (List (Node × Node)) := do
  let t ← peek
  let v ← match t.lexeme with
    | .value => do
      advance
      if endsEntry (← peek).lexeme then pure (left t.after) else node fuel true true
    | _ => pure (left t.mark)
  return (k, v) :: (← blockEntries fuel)

theorem takes_blockValue (k : Node) (s : Source) : Takes s (blockValue fuel k) := by
  have hentries (e : Node × Node) (s : Source) : Takes s (do return e :: (← blockEntries fuel)) :=
    .bind (h.blockEntries s) fun _ _ => .pure _
  rw [blockValue]
  refine .peek fun t _ ht => ?_
  dsimp only
  split
  · next hx =>
    refine .advance ht (hx ▸ id) fun s => .peek fun t' _ ht' => ?_
    split
    · exact .bind (.pure _) fun v => hentries (k, v)
    · exact .bind (h.node s true true) fun v => hentries (k, v)
  · exact .bind (.pure _) fun v => hentries (k, v)

theorem blockEntries_succ (s : Source) : Takes s (blockEntries (fuel + 1)) := by
  rw [blockEntries]
  refine .peek fun t _ ht => ?_
  split
  · next hx =>
    refine .advance ht (hx ▸ id) fun s => .peek fun t' _ ht' => ?_
    dsimp only
    split
    · exact .bind (.pure _) (takes_blockValue h)
    · exact .bind (h.node s true true) (takes_blockValue h)
  · next hx => exact .advance ht (hx ▸ id) fun s => .pure _
  · exact .failure

/-- An element between brackets, or their end. -/
def flowItem (fuel : Nat) : Builder (List Node) := do
  let t ← peek
  match t.lexeme with
  | .flowListEnd =>
    advance
    return []
  | .key =>
    advance
    let entry ← pair fuel
    return .map t.mark none [entry] :: (← flowItems fuel false)
  | _ =>
    let n ← node fuel false false
    return n :: (← flowItems fuel false)

theorem takes_flowItem (s : Source) : Takes s (flowItem fuel) := by
  rw [flowItem]
  refine .peek fun t _ ht => ?_
  split
  · next hx => exact .advance ht (hx ▸ id) fun s => .pure _
  · next hx =>
    exact .advance ht (hx ▸ id) fun s => .bind (h.pair s) fun _ s =>
      .bind (h.flowItems s false) fun _ _ => .pure _
  · exact .bind (h.node s false false) fun _ s => .bind (h.flowItems s false) fun _ _ => .pure _

theorem flowItems_succ (s : Source) (first : Bool) : Takes s (flowItems (fuel + 1) first) := by
  rw [flowItems]
  refine .peek fun t _ ht => ?_
  split
  · next hx => exact .advance ht (hx ▸ id) fun s => .pure _
  · dsimp only
    split
    · exact takes_flowItem h s
    · split
      · next hx => exact .advance ht (hx ▸ id) (takes_flowItem h)
      · exact .bind .failure fun _ => takes_flowItem h

/-- The value of the only entry of a map. -/
def pairValue (fuel : Nat) (k : Node) : Builder (Node × Node) := do
  match (← peek).lexeme with
  | .value =>
    advance
    let t ← peek
    match t.lexeme with
    | .comma | .flowListEnd => return (k, left t.mark)
    | _ => return (k, ← node fuel false false)
  | _ => return (k, left (← peek).mark)

theorem takes_pairValue (k : Node) (s : Source) : Takes s (pairValue fuel k) := by
  rw [pairValue]
  refine .peek fun t _ ht => ?_
  split
  · next hx =>
    refine .advance ht (hx ▸ id) fun s => .peek fun t _ ht => ?_
    split
    · exact .pure _
    · exact .pure _
    · exact .bind (h.node s false false) fun _ _ => .pure _
  · exact .peek fun t _ ht => .pure _

theorem pair_succ (s : Source) : Takes s (pair (fuel + 1)) := by
  rw [pair]
  refine .peek fun t _ ht => ?_
  dsimp only
  split
  · next hx => exact .advance ht (hx ▸ id) fun s => .bind (.pure _) (takes_pairValue h)
  · next hx => exact .advance ht (hx ▸ id) fun s => .bind (.pure _) (takes_pairValue h)
  · next hx => exact .advance ht (hx ▸ id) fun s => .bind (.pure _) (takes_pairValue h)
  · exact .bind (h.node s false false) (takes_pairValue h)

/-- The value of an entry between braces, and the entries after it. -/
def flowValue (fuel : Nat) (k : Node) : Builder (List (Node × Node)) := do
  let t ← peek
  let v ← match t.lexeme with
    | .value => do
      advance
      let t ← peek
      match t.lexeme with
      | .comma | .flowMapEnd => pure (left t.mark)
      | _ => node fuel false false
    | _ => pure (left t.mark)
  return (k, v) :: (← flowEntries fuel false)

theorem takes_entries (e : Node × Node) (s : Source) :
    Takes s (do return e :: (← flowEntries fuel false)) :=
  .bind (h.flowEntries s false) fun _ _ => .pure _

theorem takes_flowValue (k : Node) (s : Source) : Takes s (flowValue fuel k) := by
  rw [flowValue]
  refine .peek fun t _ ht => ?_
  dsimp only
  split
  · next hx =>
    refine .advance ht (hx ▸ id) fun s => .peek fun t' _ ht' => ?_
    split
    · exact .bind (.pure _) fun v => takes_entries h (k, v)
    · exact .bind (.pure _) fun v => takes_entries h (k, v)
    · exact .bind (h.node s false false) fun v => takes_entries h (k, v)
  · exact .bind (.pure _) fun v => takes_entries h (k, v)

/-- An entry between braces, or their end. -/
def flowEntry (fuel : Nat) : Builder (List (Node × Node)) := do
  let t ← peek
  match t.lexeme with
  | .flowMapEnd =>
    advance
    return []
  | .key =>
    advance
    let t ← peek
    let k ← match t.lexeme with
      | .value | .comma | .flowMapEnd => pure (left t.mark)
      | _ => node fuel false false
    flowValue fuel k
  | _ =>
    let k ← node fuel false false
    let v := left (← peek).mark
    return (k, v) :: (← flowEntries fuel false)

theorem takes_flowEntry (s : Source) : Takes s (flowEntry fuel) := by
  rw [flowEntry]
  refine .peek fun t _ ht => ?_
  split
  · next hx => exact .advance ht (hx ▸ id) fun s => .pure _
  · next hx =>
    refine .advance ht (hx ▸ id) fun s => .peek fun t' _ ht' => ?_
    dsimp only
    split
    · exact .bind (.pure _) (takes_flowValue h)
    · exact .bind (.pure _) (takes_flowValue h)
    · exact .bind (.pure _) (takes_flowValue h)
    · exact .bind (h.node s false false) (takes_flowValue h)
  · exact .bind (h.node s false false) fun k s => .peek fun t _ _ => takes_entries h (k, left t.mark) s

theorem flowEntries_succ (s : Source) (first : Bool) : Takes s (flowEntries (fuel + 1) first) := by
  rw [flowEntries]
  refine .peek fun t _ ht => ?_
  split
  · next hx => exact .advance ht (hx ▸ id) fun s => .pure _
  · dsimp only
    split
    · exact takes_flowEntry h s
    · split
      · next hx => exact .advance ht (hx ▸ id) (takes_flowEntry h)
      · exact .bind .failure fun _ => takes_flowEntry h

end Succ

theorem stays (fuel : Nat) : Stays fuel := by
  induction fuel with
  | zero =>
    exact ⟨fun _ _ _ => .failure, fun _ => .failure, fun _ => .failure, fun _ => .failure,
      fun _ _ => .failure, fun _ => .failure, fun _ _ => .failure⟩
  | succ fuel ih =>
    exact ⟨node_succ ih, blockItems_succ ih, dashEntries_succ ih, blockEntries_succ ih, flowItems_succ ih,
      pair_succ ih, flowEntries_succ ih⟩

/-! ## Around the document -/

theorem exists_of_run_advance {t : Token} {rest : List Token} {f : Unit → Builder β} {r : β × Source}
    (ht : s.tokens = t :: rest) (h : (advance >>= f).run s = some r) :
    (f ()).run { s with tokens := rest } = some r := by
  have hnext : (f ()).run { s with tokens := s.tokens.tail } = some r := h
  rwa [ht] at hnext

theorem tokens_of_directives {fuel : Nat} {versionSeen : Bool} {known handles : List (String × String)}
    {s s' : Source} (h : (directives fuel versionSeen known).run s = some (handles, s')) :
    ∃ used, s.tokens = used ++ s'.tokens ∧ ∀ t ∈ used, t.lexeme.IsDirective := by
  induction fuel generalizing versionSeen known s with
  | zero => cases h
  | succ fuel ih =>
    rw [directives] at h
    obtain ⟨t, rest, ht, h⟩ := exists_of_run_peek h
    split at h
    · next major minor hx =>
      dsimp only at h
      split at h
      · cases h
      · obtain ⟨used, hused, hall⟩ := ih (exists_of_run_advance ht h)
        exact ⟨t :: used, by rw [ht, List.cons_append, ← hused],
          List.forall_mem_cons.2 ⟨hx ▸ trivial, hall⟩⟩
    · next handle expansion hx =>
      dsimp only at h
      split at h
      · cases h
      · obtain ⟨used, hused, hall⟩ := ih (exists_of_run_advance ht h)
        exact ⟨t :: used, by rw [ht, List.cons_append, ← hused],
          List.forall_mem_cons.2 ⟨hx ▸ trivial, hall⟩⟩
    · cases h
      exact ⟨[], rfl, fun _ h => absurd h List.not_mem_nil⟩

theorem tokens_of_ending {fuel : Nat} {s s' : Source} (h : (ending fuel).run s = some ((), s')) :
    ∃ closing t rest, s.tokens = closing ++ t :: rest ∧ t.lexeme = .streamEnd ∧
      ∀ t ∈ closing, t.lexeme = .document .stop := by
  induction fuel generalizing s with
  | zero => cases h
  | succ fuel ih =>
    rw [ending] at h
    obtain ⟨t, rest, ht, h⟩ := exists_of_run_peek h
    split at h
    · next hx =>
      obtain ⟨closing, t', rest', hrest, hend, hall⟩ := ih (exists_of_run_advance ht h)
      exact ⟨t :: closing, t', rest', by rw [ht, List.cons_append, ← hrest], hend,
        List.forall_mem_cons.2 ⟨hx, hall⟩⟩
    · next hx => exact ⟨[], t, rest, ht, hx, fun _ h => absurd h List.not_mem_nil⟩
    · cases h

end Builder

/-- The tokens of at most one document: directives and the mark of its beginning, if any, the document,
and marks of its end. -/
inductive IsSingle : List Token → Prop
  | bare {body closing : List Token} : (∀ t ∈ body, ¬ t.lexeme.IsMark) →
      (∀ t ∈ closing, t.lexeme = .document .stop) → IsSingle (body ++ closing)
  | opened {ds body closing : List Token} {d : Token} : (∀ t ∈ ds, t.lexeme.IsDirective) →
      d.lexeme = .document .start → (∀ t ∈ body, ¬ t.lexeme.IsMark) →
      (∀ t ∈ closing, t.lexeme = .document .stop) → IsSingle (ds ++ d :: (body ++ closing))

namespace Builder

theorem takes_contents (fuel : Nat) (s : Source) : Takes s (contents fuel) := by
  rw [contents]
  refine .peek fun t _ ht => ?_
  split
  · exact .pure _
  · exact .pure _
  · exact .pure _
  · exact .pure _
  · exact (stays fuel).node s true false

/-- A node and what comes after the document. -/
theorem tokens_of_closing {fuel : Nat} {s s' : Source} {n : Node} {x : Builder Node} (hx : Takes s x)
    (h : (do
      let n ← x
      ending fuel
      return n : Builder Node).run s = some (n, s')) :
    ∃ body closing t rest, s.tokens = body ++ closing ++ t :: rest ∧ t.lexeme = .streamEnd ∧
      (∀ t ∈ body, ¬ t.lexeme.IsMark) ∧ ∀ t ∈ closing, t.lexeme = .document .stop := by
  obtain ⟨n, s₁, hnode, h⟩ := exists_of_run_bind h
  obtain ⟨⟨⟩, s₂, hending, h⟩ := exists_of_run_bind h
  obtain ⟨body, hbody, hmarks⟩ := hx n s₁ hnode
  obtain ⟨closing, t, rest, hclosing, ht, hstops⟩ := tokens_of_ending hending
  exact ⟨body, closing, t, rest, by rw [hbody, hclosing, List.append_assoc], ht, hmarks, hstops⟩

/-- A document whose beginning is marked. -/
def opened (fuel : Nat) : Builder Node := do
  let handles ← directives fuel false []
  match (← peek).lexeme with
  | .document .start =>
    advance
    modify fun s => { s with handles := handles ++ standardHandles }
    let n ← contents fuel
    ending fuel
    return n
  | _ => failure

/-- A document whose beginning is not. -/
def bare (fuel : Nat) : Builder Node := do
  let n ← node fuel true false
  ending fuel
  return n

/-- What a document is built from. -/
inductive Built (fuel : Nat) (s s' : Source) (n : Node) : Prop
  | nothing {t : Token} {rest : List Token} : s.tokens = t :: rest → t.lexeme = .streamEnd →
      n = .nothing t.mark → Built fuel s s' n
  | opened : (opened fuel).run s = some (n, s') → Built fuel s s' n
  | bare {t : Token} {rest : List Token} : s.tokens = t :: rest → t.lexeme ≠ .streamEnd →
      ¬ t.lexeme.IsDirective → (bare fuel).run s = some (n, s') → Built fuel s s' n

theorem built_of_document {fuel : Nat} {s s' : Source} {n : Node}
    (h : (document fuel).run s = some (n, s')) : Built fuel s s' n := by
  rw [document] at h
  obtain ⟨t, rest, ht, hrun⟩ := exists_of_run_peek h
  split at hrun
  · next hx =>
    cases hrun
    exact .nothing ht hx rfl
  · exact .opened hrun
  · exact .opened hrun
  · exact .opened hrun
  · next hend hversion hhandle _ =>
    refine .bare ht hend (fun hdirective => ?_) hrun
    generalize t.lexeme = x at *
    cases x with
    | version major minor => exact hversion major minor rfl
    | tagHandle handle expansion => exact hhandle handle expansion rfl
    | _ => exact hdirective

theorem tokens_of_opened {fuel : Nat} {s s' : Source} {n : Node}
    (h : (opened fuel).run s = some (n, s')) :
    ∃ ds d body closing t rest, s.tokens = ds ++ d :: (body ++ closing ++ t :: rest) ∧
      (∀ t ∈ ds, t.lexeme.IsDirective) ∧ d.lexeme = .document .start ∧
      (∀ t ∈ body, ¬ t.lexeme.IsMark) ∧ (∀ t ∈ closing, t.lexeme = .document .stop) ∧
      t.lexeme = .streamEnd := by
  obtain ⟨handles, s₁, hdirectives, h⟩ := exists_of_run_bind h
  obtain ⟨ds, hds, hdirective⟩ := tokens_of_directives hdirectives
  obtain ⟨d, rest, hd, h⟩ := exists_of_run_peek h
  split at h
  · next hstart =>
    obtain ⟨body, closing, t, rest', hrest, ht, hbody, hclosing⟩ :=
      tokens_of_closing (s := { s₁ with tokens := rest, handles := handles ++ standardHandles })
        (takes_contents fuel _) (exists_of_run_advance hd h)
    refine ⟨ds, d, body, closing, t, rest', ?_, hdirective, hstart, hbody, hclosing, ht⟩
    rw [hds, hd]
    exact congrArg (fun ts => ds ++ d :: ts) hrest
  · cases h

/-- What is built from is one document, up to the end of the tokens. -/
theorem isSingle_of_document {fuel : Nat} {s s' : Source} {n : Node}
    (h : (document fuel).run s = some (n, s')) :
    ∃ tokens t rest, s.tokens = tokens ++ t :: rest ∧ t.lexeme = .streamEnd ∧ IsSingle tokens := by
  cases built_of_document h with
  | @nothing t rest ht hx _ =>
    have hnone : IsSingle ([] ++ []) :=
      .bare (fun _ h => absurd h List.not_mem_nil) fun _ h => absurd h List.not_mem_nil
    exact ⟨[], t, rest, ht, hx, hnone⟩
  | opened hrun =>
    obtain ⟨ds, d, body, closing, t, rest, hs, hds, hd, hbody, hclosing, ht⟩ := tokens_of_opened hrun
    refine ⟨_, t, rest, ?_, ht, .opened hds hd hbody hclosing⟩
    rw [hs, List.append_assoc ds, List.cons_append]
  | bare _ _ _ hrun =>
    obtain ⟨body, closing, t, rest, hs, ht, hbody, hclosing⟩ :=
      tokens_of_closing ((stays fuel).node s true false) hrun
    exact ⟨_, t, rest, hs, ht, .bare hbody hclosing⟩

/-- If there are only directives, there is nothing. -/
theorem root_of_directives {fuel : Nat} {s s' : Source} {n : Node} {ds : List Token} {e : Token}
    (h : (document fuel).run s = some (n, s')) (hs : s.tokens = ds ++ [e])
    (hds : ∀ d ∈ ds, d.lexeme.IsDirective) (he : e.lexeme = .streamEnd) : ∃ m, n = .nothing m := by
  cases built_of_document h with
  | nothing _ _ hn => exact ⟨_, hn⟩
  | opened hrun =>
    obtain ⟨_, d, body, closing, t, rest, hs', -, hd, -⟩ := tokens_of_opened hrun
    have hmem : d ∈ ds ++ [e] := hs ▸ hs' ▸ List.mem_append_right _ List.mem_cons_self
    rcases List.mem_append.1 hmem with hmem | hmem
    · have hdirective := hds d hmem
      rw [hd] at hdirective
      exact hdirective.elim
    · rw [List.mem_singleton.1 hmem, he] at hd
      cases hd
  | bare ht hend hdirective _ =>
    rw [hs] at ht
    cases ds with
    | nil =>
      cases ht
      exact absurd he hend
    | cons d ds =>
      obtain ⟨rfl, -⟩ := List.cons.inj ht
      exact absurd (hds d List.mem_cons_self) hdirective

end Builder

/-- A text that is a tree holds one document at most. -/
theorem isSingle_of_tree? {cs : List Char} {t : Tree} (h : tree? cs = some t) :
    ∃ tokens e rest, tokens? cs = some (tokens ++ e :: rest) ∧ e.lexeme = .streamEnd ∧
      IsSingle tokens := by
  obtain ⟨tokens, htokens, h⟩ := Option.bind_eq_some_iff.1 h
  obtain ⟨⟨root, s'⟩, hrun, -⟩ := Option.bind_eq_some_iff.1 h
  obtain ⟨tokens', e, rest, rfl, he, hsingle⟩ := Builder.isSingle_of_document hrun
  exact ⟨tokens', e, rest, htokens, he, hsingle⟩

end SiteNav.Yaml
