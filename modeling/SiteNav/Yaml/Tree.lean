import SiteNav.Yaml.Node
import SiteNav.Yaml.Outline

/-!
# From tokens to a tree

A text holds at most one document. Where a value is left out an empty scalar stands for it. The number
of an anchor is how many names were known before it, so a name that is used again takes a new number,
which the next new name takes too; an alias refers to a name that stands before it.
-/
namespace SiteNav.Yaml

/-- What a tree is built from: the tokens that are left, the known anchors with their numbers, and
what handles of tags expand to. -/
structure Source where
  tokens : List Token
  anchors : List (String × Nat)
  handles : List (String × String)

abbrev Builder := StateT Source Option

namespace Builder

def peek : Builder Token := do
  match (← get).tokens with
  | t :: _ => return t
  | [] => failure

def advance : Builder Unit :=
  modify fun s => { s with tokens := s.tokens.tail }

def define (name : String) : Builder Nat := do
  let s ← get
  let number := s.anchors.length
  set { s with anchors := (name, number) :: s.anchors.filter (·.1 ≠ name) }
  return number

def lookUp (name : String) : Builder Nat := do
  match (← get).anchors.lookup name with
  | some number => return number
  | none => failure

def expand (handle suffix : String) : Builder String := do
  if handle.isEmpty then return suffix
  else match (← get).handles.lookup handle with
    | some expansion => return expansion ++ suffix
    | none => failure

def takeAnchor : Builder (Option Nat) := do
  match (← peek).lexeme with
  | .anchor name =>
    advance
    return some (← define name)
  | _ => return none

def takeTag : Builder (Option String) := do
  match (← peek).lexeme with
  | .tag handle suffix =>
    advance
    return some (← expand handle suffix)
  | _ => return none

def properties : Builder (Option Nat × Option String) := do
  match ← takeAnchor with
  | some a => return (some a, ← takeTag)
  | none =>
    let tag ← takeTag
    match tag with
    | some _ => return (← takeAnchor, tag)
    | none => return (none, none)

def left (m : Mark) : Node := .scalar m none .empty

/-- The tag `!` takes nothing from the way a scalar is written. -/
def scalarTag (tag : Option String) : Option String :=
  if tag = some "!" then none else tag

/-- Tokens before which the value of an entry of a block is left out. -/
def endsEntry : Lexeme → Bool
  | .key | .value | .blockEnd => true
  | _ => false

mutual

/-- A node. A list whose dashes are not indented deeper than its key needs no block of its own. -/
def node : Nat → (block dashes : Bool) → Builder Node
  | 0, _, _ => failure
  | fuel + 1, block, dashes => do
    let first ← peek
    match first.lexeme with
    | .reference name =>
      advance
      return .reference first.mark (← lookUp name)
    | _ =>
      let (anchor, tag) ← properties
      let t ← peek
      match t.lexeme, block, dashes with
      | .dash, _, true => return .list first.mark anchor (← dashEntries fuel)
      | .scalar style text, _, _ =>
        advance
        return .scalar first.mark anchor ⟨text, style, scalarTag tag⟩
      | .flowList, _, _ =>
        advance
        return .list first.mark anchor (← flowItems fuel true)
      | .flowMap, _, _ =>
        advance
        return .map first.mark anchor (← flowEntries fuel true)
      | .blockList, true, _ =>
        advance
        return .list first.mark anchor (← blockItems fuel)
      | .blockMap, true, _ =>
        advance
        return .map first.mark anchor (← blockEntries fuel)
      | _, _, _ =>
        if anchor.isSome || tag.isSome then
          return .scalar first.mark anchor ⟨"", .plain, tag⟩
        else failure

def blockItems : Nat → Builder (List Node)
  | 0 => failure
  | fuel + 1 => do
    let t ← peek
    match t.lexeme with
    | .dash =>
      advance
      let n ← match (← peek).lexeme with
        | .dash | .blockEnd => pure (left t.after)
        | _ => node fuel true false
      return n :: (← blockItems fuel)
    | .blockEnd =>
      advance
      return []
    | _ => failure

def dashEntries : Nat → Builder (List Node)
  | 0 => failure
  | fuel + 1 => do
    let t ← peek
    match t.lexeme with
    | .dash =>
      advance
      let n ← match (← peek).lexeme with
        | .dash | .key | .value | .blockEnd => pure (left t.after)
        | _ => node fuel true false
      return n :: (← dashEntries fuel)
    | _ => return []

def blockEntries : Nat → Builder (List (Node × Node))
  | 0 => failure
  | fuel + 1 => do
    let t ← peek
    match t.lexeme with
    | .key =>
      advance
      let k ← if endsEntry (← peek).lexeme then pure (left t.after) else node fuel true true
      let t ← peek
      let v ← match t.lexeme with
        | .value => do
          advance
          if endsEntry (← peek).lexeme then pure (left t.after) else node fuel true true
        | _ => pure (left t.mark)
      return (k, v) :: (← blockEntries fuel)
    | .blockEnd =>
      advance
      return []
    | _ => failure

def flowItems : Nat → Bool → Builder (List Node)
  | 0, _ => failure
  | fuel + 1, first => do
    match (← peek).lexeme with
    | .flowListEnd =>
      advance
      return []
    | x =>
      unless first do
        match x with
        | .comma => advance
        | _ => failure
      let t ← peek
      match t.lexeme with
      | .flowListEnd =>
        advance
        return []
      | .key =>
        advance
        let entry ← pair fuel
        return .map t.mark none [entry] :: (← flowItems fuel false)
      | _ =>
        let n ← node fuel false false
        return n :: (← flowItems fuel false)

/-- The only entry of a map that is an element of a list in brackets. Where its key is left out, the
token found instead is passed over. -/
def pair : Nat → Builder (Node × Node)
  | 0 => failure
  | fuel + 1 => do
    let t ← peek
    let k ← match t.lexeme with
      | .value | .comma | .flowListEnd => do
        advance
        pure (left t.after)
      | _ => node fuel false false
    match (← peek).lexeme with
    | .value =>
      advance
      let t ← peek
      match t.lexeme with
      | .comma | .flowListEnd => return (k, left t.mark)
      | _ => return (k, ← node fuel false false)
    | _ => return (k, left (← peek).mark)

def flowEntries : Nat → Bool → Builder (List (Node × Node))
  | 0, _ => failure
  | fuel + 1, first => do
    match (← peek).lexeme with
    | .flowMapEnd =>
      advance
      return []
    | x =>
      unless first do
        match x with
        | .comma => advance
        | _ => failure
      let t ← peek
      match t.lexeme with
      | .flowMapEnd =>
        advance
        return []
      | .key =>
        advance
        let t ← peek
        let k ← match t.lexeme with
          | .value | .comma | .flowMapEnd => pure (left t.mark)
          | _ => node fuel false false
        let t ← peek
        let v ← match t.lexeme with
          | .value => do
            advance
            let t ← peek
            match t.lexeme with
            | .comma | .flowMapEnd => pure (left t.mark)
            | _ => node fuel false false
          | _ => pure (left t.mark)
        return (k, v) :: (← flowEntries fuel false)
      | _ =>
        let k ← node fuel false false
        let v := left (← peek).mark
        return (k, v) :: (← flowEntries fuel false)

end

def standardHandles : List (String × String) :=
  [("!", "!"), ("!!", "tag:yaml.org,2002:")]

/-- Directives before a document: each handle and the version at most once. -/
def directives : Nat → (versionSeen : Bool) → List (String × String) → Builder (List (String × String))
  | 0, _, _ => failure
  | fuel + 1, versionSeen, handles => do
    match (← peek).lexeme with
    | .version major minor =>
      if versionSeen || major ≠ 1 || (minor ≠ 1 && minor ≠ 2) then failure
      advance
      directives fuel true handles
    | .tagHandle handle expansion =>
      if (handles.lookup handle).isSome then failure
      advance
      directives fuel versionSeen ((handle, expansion) :: handles)
    | _ => return handles

def contents (fuel : Nat) : Builder Node := do
  let t ← peek
  match t.lexeme with
  | .version _ _ | .tagHandle _ _ | .document _ | .streamEnd => return left t.mark
  | _ => node fuel true false

def ending : Nat → Builder Unit
  | 0 => failure
  | fuel + 1 => do
    match (← peek).lexeme with
    | .document .stop =>
      advance
      ending fuel
    | .streamEnd => return ()
    | _ => failure

def document (fuel : Nat) : Builder Node := do
  let t ← peek
  match t.lexeme with
  | .streamEnd => return .nothing t.mark
  | .version _ _ | .tagHandle _ _ | .document .start =>
    let handles ← directives fuel false []
    match (← peek).lexeme with
    | .document .start =>
      advance
      modify fun s => { s with handles := handles ++ standardHandles }
      let n ← contents fuel
      ending fuel
      return n
    | _ => failure
  | _ =>
    let n ← node fuel true false
    ending fuel
    return n

end Builder

structure Tree where
  root : Node
  anchored : List (Nat × Node)

/-- Of nodes with the same number the last counts. -/
def Tree.target? (t : Tree) (number : Nat) : Option Node :=
  t.anchored.reverse.lookup number

def tree? (cs : List Char) : Option Tree := do
  let tokens ← tokens? cs
  let fuel := 3 * tokens.length + 3
  let (root, _) ← (Builder.document fuel).run ⟨tokens, [], Builder.standardHandles⟩
  return ⟨root, root.anchored⟩

end SiteNav.Yaml
