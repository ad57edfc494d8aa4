/-
Tokens of prose: paragraphs, fenced blocks, and the host code that may stand among them.

The two prose dialects share everything but the host code. In plain Markdown a text runs to the
end of its line or to a comment; in Mdx it also halts at a brace and at an angle bracket that
opens an element, and imports are recognised where a line begins. A fence opens only where a
line begins, and it closes at a fence that begins a line.
-/
import HybridMarkup.Scanner.Memory
import HybridMarkup.HostCode

set_option autoImplicit false

namespace HybridMarkup

/-- What opens and closes a fenced block. -/
def fence : Text := ['\x60', '\x60', '\x60']

/-- What follows one line break, if the text begins with it. -/
def Text.passLineBreak? : Text → Option Text
  | '\r' :: '\n' :: t => some t
  | c :: t => if Text.isLineBreak c then some t else none
  | [] => none

/-- Whether an angle bracket followed by this character opens an element. -/
def opensElement (c : Char) : Bool := c.isAlpha || c == '>'

/-- Whether a text of the dialect ends here. -/
def atTextEnd (dialect : Dialect) : Text → Bool
  | [] => false
  | c :: t =>
    Text.isLineBreak c || Text.startsWith commentOpening (c :: t) ||
      (dialect == .mdx && (c == '{' || (c == '<' && t.head?.any opensElement)))

/-- What follows a line break and a fence, if the text begins with them. -/
def afterFenceLine? : Text → Option Text
  | '\r' :: '\n' :: t => Text.strip? fence t
  | '\n' :: t => Text.strip? fence t
  | _ => none

namespace Memory

/-- A run of text up to where the dialect ends it. A character that would itself end the text
here and that no other rule has taken is a token of its own, and a fault. -/
def scanText (m : Memory) (dialect : Dialect) (t : Text) : Move :=
  if atTextEnd dialect t then .faulty .unknown .unexpectedCharacter (t.drop 1) m
  else .plain .text (Text.seek (atTextEnd dialect) t) (m.goto .inlineContent)

/-- A brace expression or an element, if the text begins with one. One that does not close runs
to the end of the document. -/
def scanHostCode? (m : Memory) : Text → Option Move
  | '{' :: t =>
    match HostCode.skipBraces t with
    | some rest => some (.plain .blockExpression rest m)
    | none => some (.faulty .blockExpression .expressionUnterminated [] m)
  | '<' :: c :: t =>
    if opensElement c then
      match HostCode.skipJsx (c :: t) with
      | some rest => some (.plain .jsxExpression rest m)
      | none => some (.faulty .jsxExpression .jsxUnterminated [] m)
    else none
  | _ => none

/-- An import, if the text begins with one. -/
def scanImport? (m : Memory) (t : Text) : Option Move :=
  if HostCode.atImport t then
    match HostCode.skipImport (t.drop HostCode.importKeyword.length) with
    | (true, rest) => some (.plain .importStatement rest m)
    | (false, rest) => some (.faulty .importStatement .importUnterminated rest m)
  else none

/-- Prose at the start of a line, where blocks and imports may open. -/
def scanLineStart (m : Memory) (dialect : Dialect) (t : Text) : Move :=
  match Text.strip? fence t with
  | some rest => .plain .codeBlockStart rest (m.goto .fenceInfo)
  | none =>
    if dialect = .mdx then
      ((m.scanImport? t).or (m.scanHostCode? t)).getD (m.scanText dialect t)
    else m.scanText dialect t

/-- Prose within a paragraph, which ends with its line. -/
def scanInline (m : Memory) (dialect : Dialect) (t : Text) : Move :=
  match Text.passLineBreak? t with
  | some rest => .plain .paragraphEnd rest (m.goto .content)
  | none =>
    match Text.strip? commentOpening t with
    | some rest => .plain .commentStart rest (m.enter .comment)
    | none =>
      if dialect = .mdx then (m.scanHostCode? t).getD (m.scanText dialect t)
      else m.scanText dialect t

/-- The opening line of a fenced block: its words, the spaces between them, and the line break
that ends it. -/
def scanFenceInfo (m : Memory) (t : Text) : Move :=
  match Text.passLineBreak? t with
  | some rest => .plain .whitespace rest (m.goto .fenceBody)
  | none =>
    match Text.passWhile? Text.isLineSpace t with
    | some rest => .plain .whitespace rest m
    | none => .plain .codeBlockAttribute (t.dropWhile fun c => !Text.isSpace c) m

/-- Whether a line begins after this character, or where there is none before. -/
def lineBeginsAfter (before : Option Char) : Bool := before.all Text.isLineBreak

/-- The body of a fenced block: its closing fence together with the line break before it, or
everything up to there. -/
def scanFenceBody (m : Memory) (before : Option Char) (t : Text) : Move :=
  let closed := if lineBeginsAfter before then Text.strip? fence t else none
  match closed.or (afterFenceLine? t) with
  | some rest => .plain .codeBlockEnd rest (m.goto .content)
  | none => .plain .codeBlockContent (Text.seek (fun t => (afterFenceLine? t).isSome) t) m

end Memory

end HybridMarkup
