/-
Sets of characters given by a table.

A property of characters is a union of runs of code points, so it is recorded by the ascending
list of code points where membership changes. Looking a character up walks that list and stops
at the first change beyond it, which makes the early (ASCII) characters cheap and lets a closed
membership question be settled by evaluation.
-/

set_option autoImplicit false

namespace HybridMarkup

/-- A set of characters, recorded by the ascending code points at which membership changes.
The empty set records none; the first code point of `flips` is the least member. -/
structure CharSet where
  flips : List Nat

namespace CharSet

/-- Whether a code point is in the set whose remaining changes are given, when `inside` tells
whether the code points before the first of them are. -/
def decideFrom (inside : Bool) : List Nat → Nat → Bool
  | [], _ => inside
  | change :: changes, n => if n < change then inside else decideFrom (!inside) changes n

/-- Whether the character is a member. -/
def contains (s : CharSet) (c : Char) : Bool :=
  decideFrom false s.flips c.toNat

end CharSet

end HybridMarkup
