/-!
# Cutting a text at its first NUL

Messages leave the library as terminated texts: whoever prints them stops at the first NUL
character. Everything else (contents, names, arguments) keeps its NULs.
-/

namespace PatternTree.Text

/-- What ends a terminated text. -/
def terminator : Char := '\x00'

/-- The text before the first NUL, or all of it if there is none. -/
def cut (s : String) : String := String.ofList (s.toList.takeWhile (· != terminator))

theorem toList_cut (s : String) : (cut s).toList = s.toList.takeWhile (· != terminator) := by
  simp [cut]

end PatternTree.Text
