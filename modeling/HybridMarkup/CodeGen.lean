/-
A text in the making that remembers where its parts were copied from.

Text is only ever added at the end, so a span once handed out stays good.
-/
import HybridMarkup.SourceMap

set_option autoImplicit false

namespace HybridMarkup

/-- A generated text with its mappings, in the order in which they were added. -/
structure CodeGen where
  text : Text := []
  mappings : List Mapping := []
deriving DecidableEq, Repr, Inhabited

namespace CodeGen

/-- The size of the text so far, which is where the next part begins. -/
def size (g : CodeGen) : Nat := Text.size g.text

/-- The span a text would have if it were added now. -/
def nextSpan (g : CodeGen) (text : Text) : Span := Span.ofLength g.size (Text.size text)

/-- Adds a text that maps to nothing. -/
def addText (g : CodeGen) (text : Text) : CodeGen := { g with text := g.text ++ text }

/-- Adds a mapping. -/
def addMapping (g : CodeGen) (m : Mapping) : CodeGen := { g with mappings := g.mappings ++ [m] }

/-- Adds a text that was taken from `source`, and maps the two spans. -/
def addCode (g : CodeGen) (text : Text) (mode : MappingMode) (source : Span) : CodeGen :=
  (g.addText text).addMapping { mode, source, mapped := g.nextSpan text }

end CodeGen

end HybridMarkup
