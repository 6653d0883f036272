import PatternTree.Path
import PatternTree.Text.Fill
import PatternTree.Version.Basic

/-!
# Arguments of formats

The values that can be put into a text, and the two ways to do it: filling a format, and joining
with a separator. Joining cuts nothing.
-/

namespace PatternTree.Text

/-- A value with a text of its own. -/
inductive Argument where
  | text (s : String)
  | integer (i : Int)
  | truth (b : Bool)
  | version (v : Option Version)
  | step (s : Step)
deriving Repr

namespace Argument

/-- A truth value is written as a digit, a missing version as `undef`. -/
def render : Argument → String
  | text s => s
  | integer i => i.repr
  | truth b => if b then "1" else "0"
  | version v => Version.optionText v
  | step s => s.text

end Argument

/-- The format with its placeholders filled by the arguments' texts. -/
def format (placeholder : Char) (form : String) (args : List Argument) : String :=
  fill placeholder form (args.map Argument.render)

/-- The arguments' texts with the separator between neighbours. -/
def join (separator : String) (args : List Argument) : String :=
  separator.intercalate (args.map Argument.render)

end PatternTree.Text
