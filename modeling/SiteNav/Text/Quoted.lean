import SiteNav.Text.Extending
import SiteNav.Text.Unprintable

/-!
# Texts quoted in messages

A quoted text stands between double quotes and stays on one line: quotes, backslashes and the usual
controls are escaped with a backslash, and every other character that has no printed form of its own
is written as its code point in braces.
-/
namespace SiteNav.Text

def hexDigits (n : Nat) : List Char :=
  Nat.toDigits 16 n

/-- The escape of a character by its code point, lower-case and without leading zeros. -/
def codePointEscape (c : Char) : List Char :=
  '\\' :: 'u' :: '\x7b' :: (hexDigits c.toNat ++ ['\x7d'])

def escapeChar (c : Char) : List Char :=
  match c with
  | '"' => ['\\', '"']
  | '\\' => ['\\', '\\']
  | '\n' => ['\\', 'n']
  | '\r' => ['\\', 'r']
  | '\t' => ['\\', 't']
  | '\x00' => ['\\', '0']
  | c =>
    if ' ' ≤ c ∧ c ≤ '~' then [c]
    else if isExtending c || isUnprintable c then codePointEscape c
    else [c]

def quotedChars (cs : List Char) : List Char :=
  '"' :: (cs.flatMap escapeChar ++ ['"'])

def quoted (s : String) : String :=
  String.ofList (quotedChars s.toList)

end SiteNav.Text
