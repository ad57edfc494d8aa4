/-
What the scanner remembers between two tokens, and what one of its steps can do.

Where one token ends decides little about the next one; the rest is context. `ScannerState` is
the lexical context, and `Memory` adds the few facts a later token looks back at: the name of the
tag it stands in, the quote of the value it stands in, whether a space has set it off.

A step either yields a token and leaves a shorter text, or it only changes its mind about the
context. The second form of `Move` carries no text, so that a change of context cannot consume
anything is a fact of its type.
-/
import HybridMarkup.Token

set_option autoImplicit false

namespace HybridMarkup

/-- The lexical context between two tokens. -/
inductive ScannerState where
  /-- At the start of a line of prose, or between the parts of a template. -/
  | content
  /-- Within a paragraph. -/
  | inlineContent
  | comment
  /-- On the opening line of a fenced block. -/
  | fenceInfo
  | fenceBody
  /-- After the bracket of a start tag. -/
  | startTagName
  | startTag
  | attributeNamed
  | beforeValue
  | value
  | mustache
  /-- After the bracket and slash of an end tag. -/
  | endTagName
  | endTag
  | scriptBody
  | styleBody
deriving DecidableEq, Repr, Inhabited

/-- Everything the scanner knows besides the text that is left. -/
structure Memory where
  state : ScannerState := .content
  /-- The context to return to when a comment or mustache closes. -/
  returnState : ScannerState := .content
  lastKind : Option TokenKind := none
  /-- The name of the last start tag, empty for a tag without one. -/
  lastTag : Text := []
  /-- Whether the attribute being read is a directive, whose value is code. -/
  inDirective : Bool := false
  /-- The quote around the value being read, if it has one. -/
  valueMark : Option Char := none
  /-- Whether space has passed since the tag name or the last attribute. -/
  spaceAfterTag : Bool := false
  /-- Whether the last mustache content was blank. -/
  blankMustache : Bool := false
deriving DecidableEq, Repr, Inhabited

namespace Memory

/-- The same facts in another context. -/
def goto (m : Memory) (state : ScannerState) : Memory := { m with state }

/-- Enters a context that will return to the present one. -/
def enter (m : Memory) (state : ScannerState) : Memory :=
  { m with state, returnState := m.state }

/-- Leaves a context that was entered. -/
def leave (m : Memory) : Memory := { m with state := m.returnState }

end Memory

/-- The outcome of one step of the scanner. -/
inductive Move where
  /-- A token ends where `rest` begins. -/
  | token (kind : TokenKind) (error : Option LexError) (rest : Text) (memory : Memory)
  /-- Nothing was read; the step is to be taken again in another context. -/
  | turn (memory : Memory)
deriving DecidableEq, Repr

namespace Move

/-- A token without fault. -/
def plain (kind : TokenKind) (rest : Text) (memory : Memory) : Move :=
  .token kind none rest memory

/-- A token that carries a fault. -/
def faulty (kind : TokenKind) (error : LexError) (rest : Text) (memory : Memory) : Move :=
  .token kind (some error) rest memory

end Move

/-- What opens a comment. -/
def commentOpening : Text := "<!--".toList

/-- What closes a comment. -/
def commentClosing : Text := "-->".toList

/-- Within a comment: its end, or everything up to there. -/
def Memory.scanComment (m : Memory) (t : Text) : Move :=
  match Text.strip? commentClosing t with
  | some rest => .plain .commentEnd rest m.leave
  | none => .plain .commentContent (Text.seekTo commentClosing t) m

end HybridMarkup
