/-
All artifacts of a document, whatever its dialect.
-/
import HybridMarkup.Artifact.Prose
import HybridMarkup.Artifact.Template

set_option autoImplicit false

namespace HybridMarkup

/-- The artifacts of a document of the given name, in a fixed order. -/
def Tree.artifacts (t : Tree) (fileName : Text) : List Artifact :=
  match t.dialect with
  | .template => [TemplateArtifact.ofTree t fileName]
  | .markdown => ProseArtifacts.ofTree t fileName
  | .mdx => ProseArtifacts.ofTree t fileName

end HybridMarkup
