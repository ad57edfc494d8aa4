/-
Tokens of templates: tags, attributes and directives, mustaches, and the opaque bodies of script
and style elements.

The tag of an element is read piece by piece, and each piece knows what may follow it. A tag
that is interrupted by another angle bracket is closed by an empty token that carries the fault,
and a character that has no place in a tag becomes a token of its own, so that reading always
goes on. The value of a directive is code and is read as such; the value of an attribute is text
in which mustaches may stand.
-/
import HybridMarkup.Scanner.Memory
import HybridMarkup.RawElement

set_option autoImplicit false

namespace HybridMarkup

/-! ## Names -/

/-- A character that may begin an element name. -/
def beginsName (c : Char) : Bool := c == '_' || c == ':' || Text.isWord c

/-- A character that may continue an element name. -/
def continuesName (c : Char) : Bool := beginsName c || c == '-' || c == '.'

/-- What follows the element name at which the text begins, if there is one. -/
def passElementName? : Text → Option Text
  | [] => none
  | c :: t => if beginsName c then some (t.dropWhile continuesName) else none

/-- A character of an attribute name: anything but blanks, controls and the characters that
delimit attributes. -/
def inAttributeName (c : Char) : Bool :=
  !(Text.isBlank c || c == '"' || c == '\'' || c == '>' || c == '<' || c == '/' || c == '=' ||
    decide (c.toNat < 0x20) || c == '\x7f')

/-- Whether an attribute of this name is a directive. -/
def isDirectiveName : Text → Bool
  | 'v' :: '-' :: _ => true
  | c :: _ => c == ':' || c == '@' || c == '#'
  | [] => false

/-- The characters of `t` in front of its end `rest`. -/
def Text.before (t rest : Text) : Text := t.take (t.length - rest.length)

/-! ## Where a run of text ends -/

/-- The two braces that open a mustache. -/
def mustacheOpening : Text := ['{', '{']

/-- The two braces that close a mustache. -/
def mustacheClosing : Text := ['}', '}']

/-- Whether a tag or a mustache begins here. -/
def atMarkup : Text → Bool
  | '<' :: _ => true
  | t => Text.startsWith mustacheOpening t

/-- Whether a stretch of a quoted attribute value ends here. -/
def atValueStop (mark : Char) : Text → Bool
  | [] => false
  | c :: t => c == mark || Text.startsWith mustacheOpening (c :: t)

/-- Whether a value without quotes ends here. -/
def atUnquotedEnd : Text → Bool
  | '/' :: '>' :: _ => true
  | c :: _ => Text.isBlank c || c == '>'
  | [] => false

/-! ## The contexts -/

namespace Memory

/-- Between the parts of a template. -/
def scanTemplate (m : Memory) : Text → Move
  | '<' :: '/' :: t => .plain .endTagOpen t (m.goto .endTagName)
  | '<' :: t => .plain .startTagOpen t (m.goto .startTagName)
  | '{' :: '{' :: t => .plain .mustacheStart t (m.enter .mustache)
  | t => .plain .text (Text.seek atMarkup t) m

/-- A tag that has no name: everything up to the next bracket is one faulty token, and where
there is nothing the tag goes on without it. -/
def scanNameless (m : Memory) (error : LexError) (t : Text) : Move :=
  let rest := Text.seekAny ['>', '<'] t
  if rest.length < t.length then .faulty .unknown error rest m else .turn m

/-- After the bracket of a start tag, where its name stands. -/
def scanStartTagName (m : Memory) (t : Text) : Move :=
  match passElementName? t with
  | some rest =>
    .plain .startTag rest
      { m with lastTag := Text.before t rest, spaceAfterTag := false, state := .startTag }
  | none =>
    match Text.passWhile? Text.isSpace t with
    | some rest => .faulty .whitespace .unexpectedWhitespace rest m
    | none => scanNameless { m with lastTag := [], state := .startTag } .startTagNameExpected t

/-- The context in which the body of an element begins. -/
def bodyState (tag : Text) : ScannerState :=
  match RawElement.ofName? tag with
  | some .script => .scriptBody
  | some .style => .styleBody
  | none => .content

/-- An attribute name, if one may stand here and does. -/
def scanAttributeName? (m : Memory) (t : Text) : Option Move :=
  if m.spaceAfterTag then
    (Text.passWhile? inAttributeName t).map fun rest =>
      let inDirective := isDirectiveName (Text.before t rest)
      .plain (if inDirective then .directiveName else .attributeName) rest
        { m with inDirective, spaceAfterTag := false, state := .attributeNamed }
  else none

/-- Within a start tag, between its attributes. -/
def scanStartTag (m : Memory) (t : Text) : Move :=
  match Text.passWhile? Text.isSpace t with
  | some rest => .plain .whitespace rest { m with spaceAfterTag := true }
  | none =>
    match t with
    | '/' :: '>' :: rest => .plain .startTagSelfClose rest (m.goto .content)
    | '>' :: rest => .plain .startTagClose rest (m.goto (bodyState m.lastTag))
    | '<' :: _ => .faulty .startTagClose .closingBracketMissing t (m.goto .content)
    | t => (m.scanAttributeName? t).getD (.faulty .unknown .unexpectedCharacterInTag (t.drop 1) m)

/-- After the name of an attribute, where its value may be announced. -/
def scanAttributeNamed (m : Memory) (t : Text) : Move :=
  match Text.passWhile? Text.isSpace t with
  | some rest => .plain .whitespace rest { m with spaceAfterTag := true }
  | none =>
    match t with
    | '=' :: rest => .plain .attributeDelimiter rest (m.goto .beforeValue)
    | _ => .turn (m.goto .startTag)

/-- After the equals sign, where a quote may open the value. -/
def scanBeforeValue (m : Memory) (t : Text) : Move :=
  match Text.passWhile? Text.isSpace t with
  | some rest => .plain .whitespace rest m
  | none =>
    match t with
    | '"' :: rest => .plain .attributeMark rest { m with valueMark := some '"', state := .value }
    | '\'' :: rest => .plain .attributeMark rest { m with valueMark := some '\'', state := .value }
    | _ => .turn { m with valueMark := none, state := .value }

/-- Within a value that has no quotes. It ends at any blank, but only what markup takes for
space is then passed; at another blank the value stays where it is. -/
def scanUnquotedValue (m : Memory) (t : Text) : Move :=
  match Text.passWhile? Text.isSpace t with
  | some rest => .plain .whitespace rest { m with spaceAfterTag := true, state := .startTag }
  | none =>
    match t with
    -- an empty value yields no token
    | '>' :: _ => .turn (m.goto .startTag)
    | '/' :: '>' :: _ => .turn (m.goto .startTag)
    | t => .plain .attributeValue (Text.seek atUnquotedEnd t) m

/-- Within a value between quotes. -/
def scanQuotedValue (m : Memory) (mark : Char) : Text → Move
  | [] => .plain .attributeValue [] m
  | c :: t =>
    if c = mark then
      .plain .attributeMark t { m with spaceAfterTag := false, state := .startTag }
    else if m.inDirective then
      .plain .attributeValue ((HostCode.skipUntil [mark] (c :: t)).getD []) m
    else
      match Text.strip? mustacheOpening (c :: t) with
      | some rest => .plain .mustacheStart rest (m.enter .mustache)
      | none => .plain .attributeValue (Text.seek (atValueStop mark) (c :: t)) m

/-- Within the value of an attribute. -/
def scanValue (m : Memory) (t : Text) : Move :=
  match m.valueMark with
  | none => m.scanUnquotedValue t
  | some mark => m.scanQuotedValue mark t

/-- Within a mustache: its end, or the code up to there. One without code is a fault. -/
def scanMustache (m : Memory) (t : Text) : Move :=
  match Text.strip? mustacheClosing t with
  | some rest =>
    let isEmpty := match m.lastKind with
      | some .mustacheStart => true
      | some .mustacheContent => m.blankMustache
      | _ => false
    if isEmpty then .faulty .mustacheEnd .mustacheCannotBeEmpty rest m.leave
    else .plain .mustacheEnd rest m.leave
  | none =>
    let rest := (HostCode.skipUntil mustacheClosing t).getD []
    .plain .mustacheContent rest { m with blankMustache := (Text.before t rest).isAllBlank }

/-- After the bracket and slash of an end tag, where its name stands. -/
def scanEndTagName (m : Memory) (t : Text) : Move :=
  match passElementName? t with
  | some rest => .plain .endTag rest (m.goto .endTag)
  | none =>
    match Text.passWhile? Text.isSpace t with
    | some rest => .faulty .whitespace .unexpectedWhitespace rest m
    | none => scanNameless (m.goto .endTag) .endTagNameExpected t

/-- Within an end tag, after its name. -/
def scanEndTag (m : Memory) (t : Text) : Move :=
  match Text.passWhile? Text.isSpace t with
  | some rest => .plain .whitespace rest m
  | none =>
    match t with
    | '>' :: rest => .plain .endTagClose rest (m.goto .content)
    | '<' :: _ => .faulty .endTagClose .closingBracketMissing t (m.goto .content)
    | t => .faulty .unknown .closingBracketExpected (t.drop 1) m

/-- The body of a script or style element, up to its end tag. -/
def scanRawText (m : Memory) (e : RawElement) (t : Text) : Move :=
  let rest := e.skipBody t
  if rest.length < t.length then .plain .rawText rest (m.goto .content)
  else .turn (m.goto .content)

end Memory

end HybridMarkup
