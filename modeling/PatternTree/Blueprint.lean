import PatternTree.Element.Make
import PatternTree.Version.Read

/-!
# Blueprints

A blueprint is a tree of requests to make elements, with versions of any type. First its versions
are read from texts, in the order of the parts, so that the first malformed one is reported. Then
the elements are made from the inside out, and a part that cannot be made is a missing part of the
element around it.
-/

namespace PatternTree

/-- A request for an element with versions in `V`; `absent` asks for nothing. -/
inductive Blueprint (V : Type) where
  | absent
  | token (kind : Kind) (content : String) (introduced removed : Option V)
  | node (children : List (Blueprint V))
  | group (heading : Heading) (start type : Blueprint V) (children : List (Blueprint V))
      (finish : Blueprint V)
deriving Repr

namespace Blueprint

/-! ## Reading the versions -/

def readOption : Option String → Except Version.ReadError (Option Version)
  | none => .ok none
  | some s => (Version.parse s).map some

mutual

/-- Reads all versions: those of a token with `introduced` first, those of a group in the order
start, type, children, finish. -/
def read : Blueprint String → Except Version.ReadError (Blueprint Version)
  | absent => .ok absent
  | token kind content introduced removed => do
    let introduced ← readOption introduced
    let removed ← readOption removed
    return token kind content introduced removed
  | node children => do
    return node (← readAll children)
  | group heading start type children finish => do
    let start ← read start
    let type ← read type
    let children ← readAll children
    let finish ← read finish
    return group heading start type children finish

/-- Reads the versions of blueprints in a row. -/
def readAll : List (Blueprint String) → Except Version.ReadError (List (Blueprint Version))
  | [] => .ok []
  | b :: bs => do
    let b ← read b
    let bs ← readAll bs
    return b :: bs

end

/-! ## Building -/

mutual

/-- The element asked for, if it can be made. -/
def build : Blueprint Version → Option Element
  | absent => none
  | token kind content introduced removed => Element.makeToken? kind content introduced removed
  | node children => Element.makeNode? (buildAll children)
  | group heading start type children finish =>
    Element.makeGroup? heading (build start) (build type) (buildAll children) (build finish)

/-- The elements asked for in a row, each if it can be made. -/
def buildAll : List (Blueprint Version) → List (Option Element)
  | [] => []
  | b :: bs => build b :: buildAll bs

end

theorem buildAll_eq_map (bs : List (Blueprint Version)) : buildAll bs = bs.map build := by
  induction bs with
  | nil => simp [buildAll]
  | cons b bs ih => simp [buildAll, ih]

end Blueprint

end PatternTree
