import SiteNav.Yaml.Mark

/-!
# Gaps between words

Blanks between words on one line are kept. Where lines meet, the blanks around the breaks are
dropped, a single line feed becomes a space, and of more breaks a line feed in front is dropped.
Texts are kept latest character first.
-/
namespace SiteNav.Yaml

inductive Gap where
  | blanks (cs : List Char)
  /-- The first break, which an escape leaves out, and the other breaks. -/
  | lines (first more : List Char)

namespace Gap

def nil : Gap := .blanks []

def isNil : Gap → Bool
  | blanks [] => true
  | _ => false

def hasLines : Gap → Bool
  | blanks _ => false
  | lines _ _ => true

def push (c : Char) : Gap → Gap
  | blanks cs => if isBreak c then lines [c] [] else blanks (c :: cs)
  | lines first more => if isBreak c then lines first (c :: more) else lines first more

def after (acc : List Char) : Gap → List Char
  | blanks cs => cs ++ acc
  | lines ['\n'] [] => ' ' :: acc
  | lines ['\n'] more => more ++ acc
  | lines first more => more ++ first ++ acc

end Gap

end SiteNav.Yaml
