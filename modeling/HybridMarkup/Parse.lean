/-
Parsing: from tokens to a syntax tree with everything that was found wrong on the way.

Each token changes the draft of the tree by the rule of its kind, and the fault it carries, if
any, is reported after that. A rule that finds another node open than the one it is about does
nothing, so no sequence of tokens is refused. When the tokens are spent, what is still open is
closed, and the finished tree is linted. In such a tree no lint rule fails.
-/
import HybridMarkup.Scanner
import HybridMarkup.Lint
import HybridMarkup.Parse.Prose
import HybridMarkup.Parse.Template
import HybridMarkup.Text.Lines

set_option autoImplicit false

namespace HybridMarkup

namespace Draft

/-- The effect of a token on the tree. -/
def build (d : Draft) (t : Token) : Draft :=
  match t.kind with
  | .whitespace | .unknown | .eos => d
  | .commentStart => d.openNode (.comment []) t.span
  | .commentContent =>
    let d :=
      match d.currentData with
      | .comment text => d.setCurrent (.comment (text ++ t.lexeme))
      | _ => d
    d.extend t.span.stop
  | .commentEnd => if d.currentKind = .comment then d.close t.span.stop else d
  | .text => if d.tree.dialect = .template then d.templateText t else d.proseText t
  | .paragraphEnd => d.paragraphEnd t
  | .codeBlockStart => d.codeBlockStart t
  | .codeBlockAttribute => d.codeBlockAttribute t
  | .codeBlockContent => d.codeBlockContent t
  | .codeBlockEnd => d.codeBlockEnd t
  | .importStatement => d.leaf (.importStatement t.lexeme) t.span
  | .jsxExpression => d.leaf (.jsxStatement t.lexeme) t.span
  | .blockExpression => d.blockExpression t
  | .startTagOpen => d.startTagOpen t
  | .startTag => d.startTag t
  | .startTagClose => d.startTagClose t
  | .startTagSelfClose => d.startTagSelfClose t
  | .endTagOpen => d.endTagOpen t
  | .endTag => d.endTagNamed t
  | .endTagClose => d.endTagClose t.span.stop
  | .attributeName => d.attributeName t (.attr { name := t.lexeme })
  | .directiveName => d.attributeName t (.directive (Directive.ofRaw t.lexeme))
  | .attributeDelimiter => d.extend t.span.stop
  | .attributeMark => d.extend t.span.stop
  | .attributeValue => d.attributeValue t.span
  | .mustacheStart => d.mustacheStart t
  | .mustacheContent => d.mustacheContent t
  | .mustacheEnd => d.mustacheEnd t
  | .rawText => d.leaf (.rawText t.lexeme) t.span

/-- Takes in a token: its effect on the tree, then its fault. -/
def takeToken (d : Draft) (t : Token) : Draft :=
  match t.error with
  | some error => (d.build t).reportLexical error t.span
  | none => d.build t

end Draft

/-- How a document is to be parsed. -/
structure ParseOptions where
  dialect : Dialect := .mdx
  /-- Whether offsets can be resolved to lines and columns afterwards. -/
  location : Bool := true
  lint : LintConfig := {}
deriving DecidableEq, Repr, Inhabited

/-- A parsed document. -/
structure Parse where
  tree : Tree
  /-- The faults in the order of the text, then the findings of the lint rules. -/
  diagnostics : List Diagnostic
  location : Bool
deriving DecidableEq, Repr, Inhabited

/-- A place by line and column, both counted from zero, the column in bytes. -/
structure Location where
  line : Nat
  column : Nat
  offset : Nat
deriving DecidableEq, Repr

namespace Parse

/-- The draft of a document once all its tokens are taken in and everything is closed. -/
def draft (dialect : Dialect) (text : Text) : Draft :=
  ((tokenize dialect text).foldl Draft.takeToken (Draft.start dialect text)).finish

/-- Parses a document. -/
def ofText (options : ParseOptions) (text : Text) : Parse :=
  let draft := draft options.dialect text
  { tree := draft.tree
    diagnostics := draft.diagnostics.entries ++ options.lint.lint draft.tree
    location := options.location }

/-- Resolves an offset. `none` if the document was parsed without locations or ends before the
offset; an offset inside a character is refused. -/
def locate (p : Parse) (offset : Nat) : Except Unplaceable (Option Location) :=
  if !p.location || decide (Text.size p.tree.text < offset) then .ok none
  else
    match Text.lineColumn p.tree.text offset with
    | .ok ⟨line, column⟩ => .ok (some { line, column, offset })
    | .error e => .error e

end Parse

end HybridMarkup
