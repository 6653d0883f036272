import PatternTree.Text.Cut

/-!
# Filling the placeholders of a format

A format is a text in which one character is the placeholder, and it ends at its first NUL. Filling
replaces the placeholders from left to right by the arguments. An argument's text is never looked at
again, so placeholders and NULs inside it stay; once the arguments have run out, so does every
further placeholder of the format.
-/

namespace PatternTree.Text

/-- Writes a format up to its terminator, with the arguments in place of its first placeholders. -/
def fillChars (placeholder : Char) : List Char → List String → List Char
  | [], _ => []
  | c :: cs, [] => if c = terminator then [] else c :: fillChars placeholder cs []
  | c :: cs, a :: as =>
    if c = terminator then []
    else if c = placeholder then a.toList ++ fillChars placeholder cs as
    else c :: fillChars placeholder cs (a :: as)

/-- The format with its placeholders filled. -/
def fill (placeholder : Char) (format : String) (args : List String) : String :=
  String.ofList (fillChars placeholder format.toList args)

end PatternTree.Text
