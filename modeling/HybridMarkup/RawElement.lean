/-
Script and style elements, whose body is not markup.

The body ends where the element's own end tag begins, and an end tag inside a string or a comment
does not count. A script has the strings and comments of the host language; a style has quoted
strings and block comments only.
-/
import HybridMarkup.HostCode

set_option autoImplicit false

namespace HybridMarkup

/-- The two elements whose body is opaque. -/
inductive RawElement where
  | script
  | style
deriving DecidableEq, Repr

namespace RawElement

/-- The name of the element. -/
def name : RawElement → Text
  | script => "script".toList
  | style => "style".toList

/-- The element of this name, in whichever case. -/
def ofName? (name : Text) : Option RawElement :=
  if Text.equalIgnoringCase name script.name then some script
  else if Text.equalIgnoringCase name style.name then some style
  else none

/-- What begins the end tag of the element. -/
def closing (e : RawElement) : Text := '<' :: '/' :: e.name

/-- Whether the end tag of the element begins here, in whichever case. -/
def atClosing (e : RawElement) (t : Text) : Bool := Text.startsWithIgnoringCase e.closing t

/-- Whether something begins here that may matter within the body: a string, a comment or the
end tag. A style has neither line comments nor template literals. What is taken for a possible end
tag has its case folded, so there are a few more of them than `atClosing` accepts. -/
def atStop (e : RawElement) : Text → Bool
  | '/' :: '*' :: _ => true
  | '/' :: '/' :: _ => e == script
  | '\'' :: _ => true
  | '"' :: _ => true
  | '\x60' :: _ => e == script
  | t => Text.startsWithFolded e.closing t

/-- One round of looking for the end of the body: to the next place that may matter, and over what
begins there unless it is the end tag. What is still to come is left to `next`. -/
def bodyRound (e : RawElement) (next : Text → Text) (t : Text) : Text :=
  match Text.seek e.atStop t with
  | [] => []
  | c :: t => if e.atClosing (c :: t) then c :: t else next ((HostCode.skipForm (c :: t)).getD t)

/-- What is left of the text after the body of the element: its end tag, or nothing. Every round
takes at least one character, so the length of the text is fuel enough. -/
def skipBodyIn (e : RawElement) : Nat → Text → Text
  | 0, _ => []
  | fuel + 1, t => e.bodyRound (e.skipBodyIn fuel) t

/-- What is left of the text after the body of the element. -/
def skipBody (e : RawElement) (t : Text) : Text := e.skipBodyIn (t.length + 1) t

end RawElement

end HybridMarkup
