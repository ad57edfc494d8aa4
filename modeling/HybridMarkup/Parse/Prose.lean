/-
How tokens of prose build the tree: paragraphs, fenced blocks, statements and expressions.
-/
import HybridMarkup.Parse.Draft

set_option autoImplicit false

namespace HybridMarkup.Draft

/-- A text belongs to a paragraph, which it opens unless one is open. -/
def proseText (d : Draft) (t : Token) : Draft :=
  let d := if d.currentKind = .paragraph then d else d.openNode .paragraph t.span
  d.leaf (.text t.lexeme) t.span

/-- The end of a paragraph's line. -/
def paragraphEnd (d : Draft) (t : Token) : Draft :=
  if d.currentKind = .paragraph then d.close t.span.stop else d

/-- A fence that opens a block. -/
def codeBlockStart (d : Draft) (t : Token) : Draft :=
  let block :=
    { lang := none
      attrs := []
      text := []
      contentSpan := Span.empty t.span.stop
      openerEnd := t.span.stop }
  d.openNode (.codeBlock block) t.span

/-- A word of the opening line as a key and, behind an equals sign, a value. -/
def splitAttr (word : Text) : Text × Option Text :=
  match Text.cutAt? '=' word with
  | some (key, value) => (key, some value)
  | none => (word, none)

/-- A word of the opening line. The first is the language; of the others no two should have the
same key. -/
def codeBlockAttribute (d : Draft) (t : Token) : Draft :=
  match d.currentData with
  | .codeBlock block =>
    let block := { block with openerEnd := t.span.stop }
    let d :=
      if block.lang.isNone && block.attrs.isEmpty then
        d.setCurrent (.codeBlock { block with lang := some t.lexeme })
      else
        let attr := splitAttr t.lexeme
        let isDuplicate := block.attrs.any fun other => other.1 == attr.1
        let d := d.setCurrent (.codeBlock { block with attrs := block.attrs ++ [attr] })
        if isDuplicate then d.report .attributeDuplicate t.span else d
    d.extend t.span.stop
  | _ => d

/-- The body of a block. -/
def codeBlockContent (d : Draft) (t : Token) : Draft :=
  let d :=
    match d.currentData with
    | .codeBlock block =>
      d.setCurrent (.codeBlock { block with text := t.lexeme, contentSpan := t.span })
    | _ => d
  d.extend t.span.stop

/-- A fence that closes a block. The body of a block without one is empty and stands in front of
the fence. -/
def codeBlockEnd (d : Draft) (t : Token) : Draft :=
  match d.currentData with
  | .codeBlock block =>
    let d :=
      if block.text.isEmpty then
        d.setCurrent (.codeBlock { block with contentSpan := Span.empty t.span.start })
      else d
    d.close t.span.stop
  | _ => d

/-- An expression in braces. One that does not close has no brace at its end. -/
def blockExpression (d : Draft) (t : Token) : Draft :=
  let inner := t.lexeme.drop 1
  let isInline := d.currentKind == .paragraph
  let data :=
    if t.error.isNone then
      .expressionStatement inner.dropLast ⟨t.span.start + 1, t.span.stop - 1⟩ isInline
    else .expressionStatement inner ⟨t.span.start + 1, t.span.stop⟩ isInline
  d.leaf data t.span

end HybridMarkup.Draft
