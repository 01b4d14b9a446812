import SiteNav.Json.Number

/-!
# JSON documents as trees

A tree holds all that a text says up to its first fault, with the places that reports refer to. The
end of a list or map is the place after its bracket, or the fault found instead, as it reads to
someone who wants the elements, who has already read all fields of a positional structure, or who
skips the whole.
-/
namespace SiteNav.Json

inductive Scalar where
  | null
  | bool (b : Bool)
  | number (n : Number)
  | text (s : String)
  deriving DecidableEq

inductive Ending where
  | closed (pos : Pos)
  | faulty (elements fields skipped : Fault)

/-- A key: what it spells, and the place after it and the white space that follows, together with a
closing brace there. -/
structure Key where
  text : Except Fault String
  stop : Pos

inductive Node where
  | scalar (start stop : Pos) (value : Except Fault Scalar)
  | list (start : Pos) (items : List Node) (ending : Ending)
  | map (start : Pos) (entries : List (Key × Node)) (ending : Ending)
  /-- The text ends in a fault inside this value. -/
  | broken (start : Pos) (wanted skipped : Fault)

def Node.start : Node → Pos
  | scalar p _ _ | list p _ _ | map p _ _ | broken p _ _ => p

end SiteNav.Json
