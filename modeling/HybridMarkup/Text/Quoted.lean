/-
The quoted form of a text, in which every payload of a dump is shown.

A quoted text stands between double quotes on one line. The quote, the backslash and the four
controls that have a letter are written with a backslash; any other character that cannot be
shown by itself is written by its number. The apostrophe needs no escape and gets none.
-/
import HybridMarkup.Text.Class

set_option autoImplicit false

namespace HybridMarkup.Text

/-- The lower-case hexadecimal digits of a number. -/
def hexDigits (n : Nat) : Text := Nat.toDigits 16 n

/-- How one character is written between the quotes. -/
def quotedChar (c : Char) : Text :=
  if c = '\x00' then ['\\', '0']
  else if c = '\t' then ['\\', 't']
  else if c = '\n' then ['\\', 'n']
  else if c = '\r' then ['\\', 'r']
  else if c = '"' then ['\\', '"']
  else if c = '\\' then ['\\', '\\']
  else if CharSet.escaped.contains c then ['\\', 'u', '{'] ++ hexDigits c.toNat ++ ['}']
  else [c]

/-- The quoted form. -/
def quoted (t : Text) : Text := '"' :: t.flatMap quotedChar ++ ['"']

end HybridMarkup.Text
