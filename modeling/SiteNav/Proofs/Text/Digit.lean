import SiteNav.Text.Digit

/-!
# Digits of code points

Writing a number in hexadecimal digits and reading it back, and the character that a code point names.
-/
namespace SiteNav.Text

theorem scalar?_toNat (c : Char) : scalar? c.toNat = some c := by
  have hvalid : c.toNat.isValidChar := c.valid
  have hchar := Char.ofNat_toNat c
  rw [Char.ofNat, dif_pos hvalid] at hchar
  rw [scalar?, dif_pos hvalid, hchar]

theorem digit?_upper : ∀ n < 16, digit? 16 (Nat.digitChar n).toUpper = some n := by decide

theorem lt_space_iff (c : Char) : c < ' ' ↔ c.toNat < 32 := Iff.rfl

end SiteNav.Text
