import PatternTree.Element.Basic
import PatternTree.Message
import PatternTree.Position

/-!
# Numbering captures

A numbering pass goes through an element and its children, never through delimiters, and gives each
capture the next number before it goes through the capture's own children. Numbers are 32-bit words
and start again at zero after the last one.
-/

namespace PatternTree

/-- What a pass did: the numbers it gave, in order, the number that would come next, and the
messages that were traced. -/
structure Pass where
  assigned : List (Position × UInt32)
  next : UInt32
  messages : List Message
deriving Repr

namespace Numbering

variable (options : Options)

/-- Passes through parts of the node at `here`, one after the other. -/
def passParts (here : Position) :
    List (Slot × Element × (Position → UInt32 → Pass)) → UInt32 → Pass
  | [], n => ⟨[], n, []⟩
  | (slot, _, below) :: rest, n =>
    let first := below (here.push slot) n
    let tail := passParts here rest first.next
    ⟨first.assigned ++ tail.assigned, tail.next, first.messages ++ tail.messages⟩

/-- Gives the element its number if it is a capture, then passes through the children. -/
def passNode (e : Element) (here : Position)
    (children : List (Slot × Element × (Position → UInt32 → Pass))) (n : UInt32) : Pass :=
  match e.captureForm? with
  | some form =>
    let below := passParts here children (n + 1)
    ⟨(here, n) :: below.assigned, below.next,
      options.log (.numbered n form.captureName) ++ below.messages⟩
  | none => passParts here children n

/-- The pass over an element at the given position, with `n` as the first number to give. -/
def pass : Element → Position → UInt32 → Pass :=
  Element.fold fun e subs here n => passNode options e here (subs.filter (·.1.isChild)) n

theorem pass_eq (e : Element) (here : Position) (n : UInt32) :
    pass options e here n =
      passNode options e here
        ((e.parts.filter (·.1.isChild)).map fun p => (p.1, p.2, pass options p.2)) n := by
  rw [pass, Element.fold_eq]
  simp [List.filter_map, Function.comp_def]

end Numbering

end PatternTree
