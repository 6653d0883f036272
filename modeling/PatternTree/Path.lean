/-!
# Slots, steps and paths

A slot says where an element stands in the node that holds it: as one of the delimiters `start`,
`type` and `finish`, or as a child. The slots from a root down to an element are its path. A step
is what a caller may ask for: any method with any 32-bit index. Each slot has one step that names
it, and many other steps lead to the same slot or nowhere.
-/

namespace PatternTree

/-- The place of an element in the node that holds it. -/
inductive Slot where
  | start
  | type
  | child (index : Nat)
  | finish
deriving DecidableEq, Repr, Hashable

namespace Slot

def isChild : Slot → Bool
  | child _ => true
  | _ => false

end Slot

/-- The slots from the root down. -/
abbrev Path := List Slot

/-- How a step moves. Codes beyond the four known methods are kept, and lead nowhere. -/
inductive Method where
  | child
  | start
  | type
  | finish
  | other (code : UInt8)
deriving DecidableEq, Repr

namespace Method

def ofCode (code : UInt8) : Method :=
  if code = 0 then child
  else if code = 1 then start
  else if code = 2 then type
  else if code = 3 then finish
  else other code

def name : Method → String
  | child => "child"
  | start => "start"
  | type => "type"
  | finish => "finish"
  | other _ => "?"

end Method

/-- A move from a node to one of its parts. -/
structure Step where
  method : Method
  index : Int32
deriving DecidableEq, Repr

namespace Step

/-- The method's name and the index in brackets, as in `child(3)`. -/
def text (s : Step) : String := s.method.name ++ "(" ++ s.index.toInt.repr ++ ")"

/-- The steps' texts with a blank before each but the first. -/
def pathText (steps : List Step) : String :=
  steps.foldl (fun acc s => if acc.isEmpty then s.text else acc ++ " " ++ s.text) ""

end Step

/-- The step that names a slot: delimiters have index 0, children their place. -/
def Slot.step : Slot → Step
  | .start => ⟨.start, 0⟩
  | .type => ⟨.type, 0⟩
  | .child i => ⟨.child, Int32.ofNat i⟩
  | .finish => ⟨.finish, 0⟩

end PatternTree
