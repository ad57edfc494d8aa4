/-
Numbers of the settings language, which are whole numbers in four bases and decimal fractions.

No setting is a number, so their values are never worked out. A document may hold them all the
same, and is only read if they are written as numbers are.
-/
import HybridMarkup.Toml.Basic

set_option autoImplicit false

namespace HybridMarkup.Toml

/-- Whether a text is a row of digits, in which an underscore may stand between any two. -/
def isDigits (digit : Char → Bool) : Text → Bool
  | [] => false
  | [c] => digit c
  | c :: '_' :: t => digit c && isDigits digit t
  | c :: t => digit c && isDigits digit t

/-- A text without the sign at its front. -/
def unsigned : Text → Text
  | '+' :: t => t
  | '-' :: t => t
  | t => t

/-- Whether a text is a whole number without a sign. It begins with zero only if it is zero. -/
def isWhole (t : Text) : Bool := isDigits Char.isDigit t && (t.head? != some '0' || t.length == 1)

/-- Whether a text is a decimal number without a sign: a whole number, a fraction if there is a
point, and an exponent if there is an `e`. -/
def isDecimal (t : Text) : Bool :=
  let (mantissa, exponent) := t.span fun c => c != 'e' && c != 'E'
  let (whole, fraction) := mantissa.span (· != '.')
  isWhole whole &&
    (fraction.isEmpty || isDigits Char.isDigit (fraction.drop 1)) &&
    (exponent.isEmpty || isDigits Char.isDigit (unsigned (exponent.drop 1)))

/-- Whether a text is a number. The digits of a base other than ten take no sign. -/
def isNumber : Text → Bool
  | '0' :: 'x' :: t => isDigits (fun c => (hexDigit? c).isSome) t
  | '0' :: 'o' :: t => isDigits (fun c => '0' ≤ c && c ≤ '7') t
  | '0' :: 'b' :: t => isDigits (fun c => c == '0' || c == '1') t
  | t =>
    let t := unsigned t
    isDecimal t || t == "inf".toList || t == "nan".toList

end HybridMarkup.Toml
