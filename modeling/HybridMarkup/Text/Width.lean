/-
How many columns a character takes on a terminal.
-/
import HybridMarkup.Text.Class
import HybridMarkup.Text.Class.Wide
import HybridMarkup.Text.Class.ZeroWidth

set_option autoImplicit false

namespace HybridMarkup.Text

/-- The columns of a character, if it is not a control, which has no width at all. The Khmer sign
for "and so on" is three letters wide. -/
def width? (c : Char) : Option Nat :=
  if c.toNat < 0x20 || (0x7f ≤ c.toNat && c.toNat < 0xa0) then none
  else if c = '\u17d8' then some 3
  else if CharSet.zeroWidth.contains c then some 0
  else if CharSet.wide.contains c then some 2
  else some 1

/-- The columns of a text, when a control counts as `control` columns. -/
def columns (control : Nat) : Text → Nat
  | [] => 0
  | c :: t => (width? c).getD control + columns control t

end HybridMarkup.Text
