import SiteNav.Yaml.Token

/-!
# YAML documents as trees

A node starts where its first property, sign or character stands. Anchored nodes carry a number, and
an alias the number of the node it stands for; a list or map may hold an alias of itself.
-/
namespace SiteNav.Yaml

structure Scalar where
  text : String
  style : Style
  tag : Option String
  deriving DecidableEq

def Scalar.empty : Scalar := ⟨"", .plain, none⟩

def Scalar.isVoid (s : Scalar) : Bool :=
  s.text.isEmpty && s.style == .plain

inductive Node where
  | scalar (mark : Mark) (anchor : Option Nat) (value : Scalar)
  | list (mark : Mark) (anchor : Option Nat) (items : List Node)
  | map (mark : Mark) (anchor : Option Nat) (entries : List (Node × Node))
  | reference (mark : Mark) (target : Nat)
  /-- What a text without a document holds. -/
  | nothing (mark : Mark)

namespace Node

def mark : Node → Mark
  | scalar m _ _ | list m _ _ | map m _ _ | reference m _ | nothing m => m

def anchor : Node → Option Nat
  | scalar _ a _ | list _ a _ | map _ a _ => a
  | _ => none

mutual

/-- The number of scalars, aliases, and beginnings and ends of lists and maps. -/
def size : Node → Nat
  | scalar _ _ _ | reference _ _ | nothing _ => 1
  | list _ _ items => sizeItems items + 2
  | map _ _ entries => sizeEntries entries + 2

def sizeItems : List Node → Nat
  | [] => 0
  | n :: rest => size n + sizeItems rest

def sizeEntries : List (Node × Node) → Nat
  | [] => 0
  | (k, v) :: rest => size k + size v + sizeEntries rest

end

mutual

/-- The nodes with a number, in the order they start. -/
def anchored (n : Node) : List (Nat × Node) :=
  (n.anchor.map fun a => (a, n)).toList ++
    match n with
    | list _ _ items => anchoredItems items
    | map _ _ entries => anchoredEntries entries
    | _ => []

def anchoredItems : List Node → List (Nat × Node)
  | [] => []
  | n :: rest => anchored n ++ anchoredItems rest

def anchoredEntries : List (Node × Node) → List (Nat × Node)
  | [] => []
  | (k, v) :: rest => anchored k ++ anchored v ++ anchoredEntries rest

end

end Node

end SiteNav.Yaml
