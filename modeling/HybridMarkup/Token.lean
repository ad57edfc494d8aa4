/-
The tokens of a hybrid document: what a piece of text is, where it stands, and what is wrong
with it.

A document belongs to one of three dialects, which share one vocabulary of tokens. Every token
carries its lexeme, the very characters it stands for, so that what is built from tokens needs no
second look at the document. A fault never stops the reading of a document; it travels on the
token in which it shows.
-/
import HybridMarkup.Text.Class

set_option autoImplicit false

namespace HybridMarkup

/-- The flavours of hybrid markup. -/
inductive Dialect where
  /-- Prose, comments and fenced code blocks. -/
  | markdown
  /-- Prose with imports, JSX elements and expressions in braces. -/
  | mdx
  /-- Elements with directives, mustaches and opaque script and style bodies. -/
  | template
deriving DecidableEq, Repr, Inhabited

namespace Dialect

/-- The dialect a file extension announces, which is compared letter for letter. -/
def ofExtension? (extension : Text) : Option Dialect :=
  if extension = "md".toList || extension = "markdown".toList then some markdown
  else if extension = "mdx".toList then some mdx
  else if extension = "vue".toList then some template
  else none

/-- The dialect of a name in a configuration, where case does not matter. -/
def ofName? (name : Text) : Option Dialect :=
  let name := name.map Char.toLower
  if name = "markdown".toList || name = "md".toList then some markdown
  else if name = "mdx".toList then some mdx
  else if name = "template".toList || name = "vue".toList then some template
  else none

end Dialect

/-- What a token is. -/
inductive TokenKind where
  | text
  | paragraphEnd
  | whitespace
  | commentStart
  | commentContent
  | commentEnd
  | codeBlockStart
  | codeBlockAttribute
  | codeBlockContent
  | codeBlockEnd
  | importStatement
  | jsxExpression
  | blockExpression
  | startTagOpen
  | startTag
  | startTagClose
  | startTagSelfClose
  | endTagOpen
  | endTag
  | endTagClose
  | attributeName
  | directiveName
  | attributeDelimiter
  | attributeMark
  | attributeValue
  | mustacheStart
  | mustacheContent
  | mustacheEnd
  | rawText
  | unknown
  /-- The end of the text. -/
  | eos
deriving DecidableEq, Repr, Inhabited

namespace TokenKind

/-- The name of the kind in a listing of tokens. -/
def label : TokenKind → String
  | text => "TEXT"
  | paragraphEnd => "PARAGRAPH_END"
  | whitespace => "WHITESPACE"
  | commentStart => "COMMENT_START"
  | commentContent => "COMMENT_CONTENT"
  | commentEnd => "COMMENT_END"
  | codeBlockStart => "CODE_BLOCK_START"
  | codeBlockAttribute => "CODE_BLOCK_ATTRIBUTE"
  | codeBlockContent => "CODE_BLOCK_CONTENT"
  | codeBlockEnd => "CODE_BLOCK_END"
  | importStatement => "IMPORT_STATEMENT"
  | jsxExpression => "JSX_EXPRESSION"
  | blockExpression => "BLOCK_EXPRESSION"
  | startTagOpen => "START_TAG_OPEN"
  | startTag => "START_TAG"
  | startTagClose => "START_TAG_CLOSE"
  | startTagSelfClose => "START_TAG_SELF_CLOSE"
  | endTagOpen => "END_TAG_OPEN"
  | endTag => "END_TAG"
  | endTagClose => "END_TAG_CLOSE"
  | attributeName => "ATTRIBUTE_NAME"
  | directiveName => "DIRECTIVE_NAME"
  | attributeDelimiter => "ATTRIBUTE_DELIMITER"
  | attributeMark => "ATTRIBUTE_MARK"
  | attributeValue => "ATTRIBUTE_VALUE"
  | mustacheStart => "MUSTACHE_START"
  | mustacheContent => "MUSTACHE_CONTENT"
  | mustacheEnd => "MUSTACHE_END"
  | rawText => "RAW_TEXT"
  | unknown => "UNKNOWN"
  | eos => "EOS"

/-- Tokens that carry no meaning of their own. -/
def isTrivia (kind : TokenKind) : Bool := kind == whitespace

end TokenKind

/-- A fault in the text of one token. -/
inductive LexError where
  | unexpectedCharacter
  | unexpectedWhitespace
  | startTagNameExpected
  | endTagNameExpected
  | closingBracketMissing
  | closingBracketExpected
  | unexpectedCharacterInTag
  | mustacheCannotBeEmpty
  | expressionUnterminated
  | jsxUnterminated
  | importUnterminated
deriving DecidableEq, Repr

namespace LexError

/-- The name under which the fault is reported. -/
def name : LexError → String
  | unexpectedCharacter => "unexpectedCharacter"
  | unexpectedWhitespace => "unexpectedWhitespace"
  | startTagNameExpected => "startTagNameExpected"
  | endTagNameExpected => "endTagNameExpected"
  | closingBracketMissing => "closingBracketMissing"
  | closingBracketExpected => "closingBracketExpected"
  | unexpectedCharacterInTag => "unexpectedCharacterInTag"
  | mustacheCannotBeEmpty => "mustacheCannotBeEmpty"
  | expressionUnterminated => "expressionUnterminated"
  | jsxUnterminated => "jsxUnterminated"
  | importUnterminated => "importUnterminated"

/-- The sentence that explains the fault. -/
def message : LexError → String
  | unexpectedCharacter => "Unexpected character."
  | unexpectedWhitespace => "Unexpected whitespace. Tag name expected."
  | startTagNameExpected => "Tag name expected."
  | endTagNameExpected => "End tag name expected."
  | closingBracketMissing => "Closing bracket missing."
  | closingBracketExpected => "Closing bracket expected."
  | unexpectedCharacterInTag => "Unexpected character in tag."
  | mustacheCannotBeEmpty => "Mustache cannot be empty."
  | expressionUnterminated => "Expression is not closed."
  | jsxUnterminated => "JSX element is not closed."
  | importUnterminated => "Import statement has no module specifier."

end LexError

/-- A piece of a document. The span is the place of the lexeme in the whole text. -/
structure Token where
  kind : TokenKind
  span : Span
  lexeme : Text
  error : Option LexError
deriving DecidableEq, Repr

end HybridMarkup
