/-
Strings of the settings language, in four notations: on one line or over several, and with escapes
between double quotes or without between single ones.
-/
import HybridMarkup.Toml.Basic

set_option autoImplicit false

namespace HybridMarkup.Toml

/-! ## Escapes -/

/-- The number written with the given count of hexadecimal digits. -/
def hexNumber? : Nat → Nat → Reader Nat
  | 0, value, t => some (value, t)
  | _ + 1, _, [] => none
  | count + 1, value, c :: t => (hexDigit? c).bind fun d => hexNumber? count (16 * value + d) t

/-- The character of a code point, if it is one of Unicode's scalar values. -/
def scalar? (n : Nat) : Option Char := if n.isValidChar then some (Char.ofNat n) else none

/-- The character that an escape stands for, read from behind the backslash. -/
def escape? : Reader Char
  | 'b' :: t => some ('\x08', t)
  | 't' :: t => some ('\t', t)
  | 'n' :: t => some ('\n', t)
  | 'f' :: t => some ('\x0c', t)
  | 'r' :: t => some ('\r', t)
  | 'e' :: t => some ('\x1b', t)
  | '"' :: t => some ('"', t)
  | '\\' :: t => some ('\\', t)
  | 'x' :: t => (hexNumber? 2 0 t).bind fun (n, t) => (scalar? n).map (·, t)
  | 'u' :: t => (hexNumber? 4 0 t).bind fun (n, t) => (scalar? n).map (·, t)
  | 'U' :: t => (hexNumber? 8 0 t).bind fun (n, t) => (scalar? n).map (·, t)
  | _ => none

/-! ## Strings -/

/-- The rest of a string on one line, behind its opening quote. Every round takes a character. -/
def basicRest? : Nat → Reader Text
  | 0, _ => none
  | _ + 1, [] => none
  | fuel + 1, c :: t =>
    if c = '"' then some ([], t)
    else if c = '\\' then
      (escape? t).bind fun (c, t) => (basicRest? fuel t).map fun (s, t) => (c :: s, t)
    else if isPlain c then (basicRest? fuel t).map fun (s, t) => (c :: s, t)
    else none

/-- The rest of a string without escapes, behind its opening quote. -/
def literalRest? : Reader Text
  | [] => none
  | c :: t =>
    if c = '\'' then some ([], t)
    else if isPlain c then (literalRest? t).map fun (s, t) => (c :: s, t)
    else none

/-- The end of a string over several lines, from the quotes at its front on: three of them close
it, and one or two more in front of those belong to the string. More than five are too many. -/
def closing? (quotes : Text) (t : Text) : Option (Text × Text) :=
  if quotes.length ≤ 5 then some (quotes.drop 3, t.drop quotes.length) else none

/-- Drops space and line breaks. -/
def skipLines : Text → Text
  | ' ' :: t => skipLines t
  | '\t' :: t => skipLines t
  | '\n' :: t => skipLines t
  | '\r' :: '\n' :: t => skipLines t
  | t => t

/-- What follows a backslash at the end of a line: the line break and all space up to the next
character that is none. -/
def lineContinuation? (t : Text) : Option Text := (lineBreak? (skipSpace t)).map skipLines

/-- The rest of a string over several lines, in the notation of the given quote. Only the double
quote knows escapes. Line breaks are kept as they are written. Every round takes a character. -/
def linesRest? (quote : Char) : Nat → Reader Text
  | 0, _ => none
  | _ + 1, [] => none
  | fuel + 1, c :: t =>
    let quotes := (c :: t).takeWhile (· == quote)
    let following (c : Char) (t : Text) := (linesRest? quote fuel t).map fun (s, t) => (c :: s, t)
    if 3 ≤ quotes.length then closing? quotes (c :: t)
    else if c = '\\' ∧ quote = '"' then
      match escape? t with
      | some (c, t) => following c t
      | none => (lineContinuation? t).bind (linesRest? quote fuel)
    else if isPlain c || c == '\n' then following c t
    else if c = '\r' ∧ t.head? = some '\n' then following c t
    else none

/-- Drops the line break right behind the quotes that open a string over several lines. -/
def skipFirstBreak (t : Text) : Text := (lineBreak? t).getD t

/-- A string in one of the two notations on one line. -/
def lineString? : Reader Text
  | '"' :: t => basicRest? (t.length + 1) t
  | '\'' :: t => literalRest? t
  | _ => none

/-- A string in any of the four notations. -/
def string? : Reader Text
  | '"' :: '"' :: '"' :: t => linesRest? '"' (t.length + 1) (skipFirstBreak t)
  | '\'' :: '\'' :: '\'' :: t => linesRest? '\'' (t.length + 1) (skipFirstBreak t)
  | t => lineString? t

end HybridMarkup.Toml
