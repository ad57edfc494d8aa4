/-
The scanner: a document taken apart into tokens, one at a time.

The tokens tile the document. Each begins where the one before it ended, and the stream ends with
empty tokens of the kind `eos`, one for every further request. The scanner holds the text that is
left, the offset at which it begins and the character in front of it; which token comes next is
decided by `Memory.step` from those and from what the scanner remembers.

`tokenize` reads up to the first `eos`. A value without quotes that meets a blank markup does not
take for space makes no progress, and neither would a reader that waits for the end; the listing
is therefore cut after as many tokens as a document of its size can have.
-/
import HybridMarkup.Scanner.Prose
import HybridMarkup.Scanner.Template

set_option autoImplicit false

namespace HybridMarkup

/-- One step in the context the scanner is in, on a text that has characters left. -/
def Memory.stepWithin (m : Memory) (dialect : Dialect) (before : Option Char) (t : Text) : Move :=
  match m.state with
  | .content =>
    match Text.passWhile? Text.isSpace t with
    | some rest => .plain .whitespace rest m
    | none =>
      match Text.strip? commentOpening t with
      | some rest => .plain .commentStart rest (m.enter .comment)
      | none =>
        match dialect with
        | .template => m.scanTemplate t
        | .markdown => m.scanLineStart .markdown t
        | .mdx => m.scanLineStart .mdx t
  | .inlineContent => m.scanInline dialect t
  | .comment => m.scanComment t
  | .fenceInfo => m.scanFenceInfo t
  | .fenceBody => m.scanFenceBody before t
  | .startTagName => m.scanStartTagName t
  | .startTag => m.scanStartTag t
  | .attributeNamed => m.scanAttributeNamed t
  | .beforeValue => m.scanBeforeValue t
  | .value => m.scanValue t
  | .mustache => m.scanMustache t
  | .endTagName => m.scanEndTagName t
  | .endTag => m.scanEndTag t
  | .scriptBody => m.scanRawText .script t
  | .styleBody => m.scanRawText .style t

/-- One step of the scanner. At the end of the text every step yields `eos`. -/
def Memory.step (m : Memory) (dialect : Dialect) (before : Option Char) (t : Text) : Move :=
  match t with
  | [] => .plain .eos [] m
  | c :: t => m.stepWithin dialect before (c :: t)

/-- Steps, at most the given number of times, until one yields a token. -/
def Memory.settle (dialect : Dialect) (before : Option Char) (t : Text) : Nat → Memory → Move
  | 0, m => .turn m
  | steps + 1, m =>
    match m.step dialect before t with
    | .turn m => settle dialect before t steps m
    | move => move

/-- The scanner at a place in a document. -/
structure Scanner where
  dialect : Dialect
  /-- The offset of the place. -/
  offset : Nat
  /-- The character in front of the place, if there is one. -/
  before : Option Char
  /-- The text from the place on. -/
  rest : Text
  memory : Memory
deriving DecidableEq, Repr

namespace Scanner

/-- The scanner at the start of a document. -/
def start (dialect : Dialect) (text : Text) : Scanner :=
  { dialect, offset := 0, before := none, rest := text, memory := {} }

/-- The lexical context. -/
def state (s : Scanner) : ScannerState := s.memory.state

/-- The token that ends where `rest` begins, and the scanner behind it. -/
def take (s : Scanner) (kind : TokenKind) (error : Option LexError) (rest : Text)
    (memory : Memory) : Token × Scanner :=
  let lexeme := Text.before s.rest rest
  let stop := s.offset + Text.size lexeme
  ({ kind, span := ⟨s.offset, stop⟩, lexeme, error },
    { s with
      offset := stop
      before := lexeme.getLast?.or s.before
      rest
      memory := { memory with lastKind := some kind } })

/-- The next token, and the scanner behind it. No context turns to another more than twice
before a token, so three steps suffice. -/
def scan (s : Scanner) : Token × Scanner :=
  match Memory.settle s.dialect s.before s.rest 3 s.memory with
  | .token kind error rest memory => s.take kind error rest memory
  | .turn memory => s.take .unknown none s.rest memory

/-- The tokens up to and including the first `eos`, but no more than the given number. -/
def tokensIn : Nat → Scanner → List Token
  | 0, _ => []
  | fuel + 1, s =>
    let (token, s) := s.scan
    if token.kind = .eos then [token] else token :: tokensIn fuel s

end Scanner

/-- The most tokens a document of a size can have: all but the last of them take at least a
byte, or stand empty beside one that does. -/
def tokenLimit (text : Text) : Nat := 2 * Text.size text + 1

/-- The tokens of a document, up to and including the first `eos`. -/
def tokenize (dialect : Dialect) (text : Text) : List Token :=
  (Scanner.start dialect text).tokensIn (tokenLimit text)

end HybridMarkup
