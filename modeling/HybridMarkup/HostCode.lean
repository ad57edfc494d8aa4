/-
Stepping over host-language code.

Markup embeds code of a host language in braces, in mustaches and in attribute values, and all a
reader of markup needs to know is where such code ends. That needs no grammar of the language,
only its lexical forms: strings, template literals, comments and balanced groups of braces are
stepped over as wholes, and every other character means nothing.

A reader of code takes the text from the point where the code begins and answers the text that
is left. `none` stands for a construct that never closes, in which case the rest of the document
is spent. A string is the exception: it cannot span lines, so one without its closing quote ends
in front of the line break, and `skipString` says which of the two happened.

The search for the next interesting place (`atStop`) is kept apart from the forms themselves.
Between two forms nothing can happen, so whole runs of characters are passed at a time.
-/
import HybridMarkup.Text.Class

set_option autoImplicit false

namespace HybridMarkup.HostCode

/-! ## Strings and comments -/

/-- Steps over the rest of a string whose opening quote has been read. The first component
tells whether the closing quote was found; if not, the text left is empty or begins with the
line break that cut the string short. A backslash takes the next character with it, whatever
that is. -/
def skipString (quote : Char) : Text → Bool × Text
  | [] => (false, [])
  | ['\\'] => (false, [])
  | '\\' :: _ :: t => skipString quote t
  | c :: t =>
    if c = quote then (true, t)
    else if c = '\n' || c = '\r' then (false, c :: t)
    else skipString quote t

/-- Steps to the line break that ends a line comment; the break itself is not part of it. -/
def skipLineComment (t : Text) : Text := Text.seekAny ['\n', '\r'] t

/-- Steps over the rest of a block comment. One that is not closed takes all that is left. -/
def skipBlockComment (t : Text) : Text := (Text.seekTo ['*', '/'] t).drop 2

/-! ## The recursive forms -/

/-- Whether a text begins with something that is more than one character of plain code. -/
def atStop : Text → Bool
  | '/' :: '/' :: _ => true
  | '/' :: '*' :: _ => true
  | '\'' :: _ => true
  | '"' :: _ => true
  | '\x60' :: _ => true
  | '{' :: _ => true
  | '}' :: _ => true
  | _ => false

/-- Steps over one form, if the text begins with one: a string, a template literal, a comment
or a group in braces. What follows a template's opening quote and a group's opening brace is
left to the two given readers. A form that never closes takes all that is left. -/
def skipFormWith (template group : Text → Option Text) : Text → Option Text
  | '/' :: '/' :: t => some (skipLineComment t)
  | '/' :: '*' :: t => some (skipBlockComment t)
  | '\'' :: t => some (skipString '\'' t).2
  | '"' :: t => some (skipString '"' t).2
  | '\x60' :: t => some ((template t).getD [])
  | '{' :: t => some ((group t).getD [])
  | _ => none

/-- What follows the brace that closes a group, if the text begins with it. -/
def afterBrace : Text → Option Text
  | '}' :: t => some t
  | _ => none

/-- One round of stepping over a template literal: to the next character that matters, and over
it. A hole is left to the reader of groups, and what is still to come to `next`. -/
def templateRound (group next : Text → Option Text) (t : Text) : Option Text :=
  match Text.seekAny ['\\', '\x60', '$'] t with
  | [] => none
  | '\\' :: t => next (t.drop 1)
  | '\x60' :: t => some t
  | '$' :: '{' :: t => (group t).bind next
  | _ :: t => next t

/-- One round of the search for a terminator: over a form or a brace that closes nothing, or to the
place where the next of them begins. What is still to come is left to `next`. -/
def untilRound (template group next : Text → Option Text) (terminator t : Text) : Option Text :=
  if Text.startsWith terminator t then some t
  else
    match skipFormWith template group t with
    | some t => next t
    | none =>
      match t with
      -- a brace that closes nothing
      | '}' :: t => next t
      | t =>
        match Text.seek atStop t with
        | [] => none
        | t => next t

mutual

/-- Steps over the rest of a template literal, holes included. Every round takes at least one
character, so the length of the text is fuel enough. -/
def skipTemplateIn : Nat → Text → Option Text
  | 0, _ => none
  | fuel + 1, t =>
    templateRound (fun t => (skipUntilIn fuel ['}'] t).bind afterBrace) (skipTemplateIn fuel) t

/-- Steps to the first place, outside of every nested form, where the text begins with
`terminator`. -/
def skipUntilIn : Nat → Text → Text → Option Text
  | 0, _, _ => none
  | fuel + 1, terminator, t =>
    untilRound (skipTemplateIn fuel) (fun t => (skipUntilIn fuel ['}'] t).bind afterBrace)
      (skipUntilIn fuel terminator) terminator t

end

/-- Steps over the rest of a template literal whose opening quote has been read. -/
def skipTemplate (t : Text) : Option Text := skipTemplateIn (t.length + 1) t

/-- Steps to the first place outside of every nested form where the text begins with
`terminator`, which stays unread. The terminator begins with a quote or a closing brace, since
the search halts at no other character; a stray closing brace is passed over. -/
def skipUntil (terminator t : Text) : Option Text := skipUntilIn (t.length + 1) terminator t

/-- Steps over the rest of a group whose opening brace has been read. -/
def skipBraces (t : Text) : Option Text := (skipUntil ['}'] t).bind afterBrace

/-- Steps over one form, if the text begins with one. -/
def skipForm (t : Text) : Option Text := skipFormWith skipTemplate skipBraces t

/-! ## Elements in code -/

/-- Where a reader stands within an element. -/
inductive JsxPlace where
  | startTag
  | content
  | endTag
deriving DecidableEq, Repr

/-- Whether a text begins with something that matters inside a start tag. -/
def atTagStop : Text → Bool
  | '/' :: '/' :: _ => true
  | '/' :: '*' :: _ => true
  | '/' :: '>' :: _ => true
  | '\'' :: _ => true
  | '"' :: _ => true
  | '\x60' :: _ => true
  | '{' :: _ => true
  | '>' :: _ => true
  | _ => false

/-- One round of stepping to the end of the outermost of the open elements. `around` counts the open
elements outside of the innermost one, so it is never below nothing; closing an element at
`around = 0` is the end. What is still to come is left to `next`. -/
def jsxRound (next : JsxPlace → Nat → Text → Option Text) (place : JsxPlace) (around : Nat) :
    Text → Option Text
  | [] => none
  | t =>
    match place with
    | .startTag =>
      match t with
      | '/' :: '>' :: t =>
        match around with
        | 0 => some t
        | outer + 1 => next .content outer t
      | '>' :: t => next .content around t
      | t =>
        match skipForm t with
        | some t => next .startTag around t
        | none => next .startTag around (Text.seek atTagStop t)
    | .content =>
      match t with
      | '{' :: t => (skipBraces t).bind (next .content around)
      | '<' :: '/' :: t => next .endTag around t
      | '<' :: t => next .startTag (around + 1) t
      | t => next .content around (Text.seekAny ['{', '<'] t)
    | .endTag =>
      match t with
      | '>' :: t =>
        match around with
        | 0 => some t
        | outer + 1 => next .content outer t
      | t => next .endTag around (Text.seekAny ['>'] t)

/-- Steps to the end of the outermost of the open elements. Every round takes at least one character,
so the length of the text is fuel enough. -/
def skipJsxIn : Nat → JsxPlace → Nat → Text → Option Text
  | 0, _, _, _ => none
  | fuel + 1, place, around, t => jsxRound (skipJsxIn fuel) place around t

/-- Steps over the rest of an element or fragment whose opening angle bracket has been read. -/
def skipJsx (t : Text) : Option Text := skipJsxIn (t.length + 1) .startTag 0 t

/-! ## Imports -/

/-- The keyword that opens an import. -/
def importKeyword : Text := "import".toList

/-- Whether a text begins with the keyword, and not with a longer word. -/
def atImport (t : Text) : Bool :=
  match Text.strip? importKeyword t with
  | none => false
  | some [] => true
  | some (c :: _) => !Text.continuesIdentifier c

/-- Whether a text begins with the line break before a blank line or before the end. -/
def atBlankLine : Text → Bool
  | '\n' :: t =>
    match t.dropWhile Text.isLineSpace with
    | [] => true
    | c :: _ => c == '\n' || c == '\r'
  | _ => false

/-- Whether a text begins with what ends the clause of an import: the quote of its module
string, or a blank line. -/
def atImportStop : Text → Bool
  | '\'' :: _ => true
  | '"' :: _ => true
  | t => atBlankLine t

/-- Steps over the rest of an import whose keyword has been read, up to and including its module
string and one semicolon. The first component tells whether there was a module string; without
one the import ends in front of the next blank line, or inside the string that was cut short. -/
def skipImport (t : Text) : Bool × Text :=
  let afterString (quote : Char) (t : Text) : Bool × Text :=
    match skipString quote t with
    | (true, ';' :: t) => (true, t)
    | ending => ending
  match Text.seek atImportStop t with
  | '\'' :: t => afterString '\'' t
  | '"' :: t => afterString '"' t
  | t => (false, t)

end HybridMarkup.HostCode
