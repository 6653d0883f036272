import PatternTree.Kind
import PatternTree.Text.Argument

/-!
# Tokens

The leaves of a tree: a piece of the pattern's text, what it is, and the versions of the language
that know it.
-/

namespace PatternTree

/-- A piece of text of one kind, known to the language from `introduced` on and, if `removed` is
given, before that. -/
structure Token where
  kind : TokenKind
  content : String
  introduced : Version
  removed : Option Version
deriving DecidableEq, Repr

namespace Token

/-- Blanks and comments say nothing about what a pattern matches. -/
def significant (t : Token) : Bool := t.kind != .whitespace && t.kind != .comment

/-- Kind, content and versions in braces. The content is written as it is, with nothing escaped. -/
def text (t : Token) : String :=
  Text.format '%' "\x7b %, \"%\", %, % \x7d"
    [.text (Kind.token t.kind).name, .text t.content, .version (some t.introduced), .version t.removed]

end Token

end PatternTree
