import PatternTree.Element.Index
import PatternTree.Element.Summary
import PatternTree.Position

/-!
# Forests

A forest is a list of trees, and its elements are named by their positions. Here are the questions
that need both: what stands at a position, what its parts are, and where a step, a path or a
sibling leads. A position at which nothing stands has no parts, and so has a token.
-/

namespace PatternTree

/-- Trees in a row. -/
structure Forest where
  trees : List Element
deriving Repr

namespace Forest

/-- The element at a position. -/
def get? (F : Forest) (r : Position) : Option Element :=
  F.trees[r.tree]?.bind fun e => e.get? r.path

/-- All positions: tree after tree, and in each tree every element before its parts. -/
def positions (F : Forest) : List Position :=
  F.trees.zipIdx.flatMap fun p => p.1.paths.map fun path => ⟨p.2, path⟩

/-! ## Parts -/

/-- Everything a node holds, in the order of the text. -/
def elements (F : Forest) (r : Position) : List Position :=
  match F.get? r with
  | some e => e.parts.map fun p => r.push p.1
  | none => []

def firstElement? (F : Forest) (r : Position) : Option Position := (F.elements r).head?

def lastElement? (F : Forest) (r : Position) : Option Position := (F.elements r).getLast?

def children (F : Forest) (r : Position) : List Position :=
  match F.get? r with
  | some e => (List.range e.children.length).map fun i => r.push (.child i)
  | none => []

/-- The number of significant children. -/
def significantCount (F : Forest) (r : Position) : Nat :=
  match F.get? r with
  | some e => e.significantCount
  | none => 0

def significantChildren (F : Forest) (r : Position) : List Position :=
  match F.get? r with
  | some e => e.significantSlots.map r.push
  | none => []

/-- The tokens below a node, in the order of the text. -/
def tokens (F : Forest) (r : Position) : List Position :=
  match F.get? r with
  | some e => e.tokenPaths.map fun path => { r with path := r.path ++ path }
  | none => []

/-! ## Steps -/

/-- The child of that index, counted from the end if negative. -/
def childAt (F : Forest) (r : Position) (index : Int32) : Except Overflow (Option Position) :=
  match F.get? r with
  | some e => (e.childSlot index).map (Option.map r.push)
  | none => .ok none

/-- The significant child of that index, counted from the end if negative. -/
def significantAt (F : Forest) (r : Position) (index : Int32) : Except Overflow (Option Position) :=
  match F.get? r with
  | some e => (e.significantSlot index).map (Option.map r.push)
  | none => .ok none

/-- The delimiter in that slot, under one of its two indices. -/
def delimiter? (F : Forest) (r : Position) (slot : Slot) (index : Int32) : Option Position :=
  (F.get? r).bind fun e => (e.delimiterSlot? slot index).map r.push

/-- Where one step leads. -/
def step? (F : Forest) (r : Position) (s : Step) : Option Position :=
  (F.get? r).bind fun e => (e.stepSlot? s).map r.push

/-- Where a path of steps leads, if every step leads somewhere. -/
def follow? (F : Forest) (r : Position) : List Step → Option Position
  | [] => some r
  | s :: steps => (F.step? r s).bind fun q => F.follow? q steps

/-! ## Addresses -/

/-- The step that leads from a node to one of its parts, found by comparing the part with what
stands in each slot: first the delimiters, then the children from the first one on. The index of a
child is its place as a 32-bit word, so it starts again at zero after 2^32 children. -/
def locate? (F : Forest) (r other : Position) : Option Step :=
  (F.get? r).bind fun e =>
    (e.searchedSlots.find? fun slot => r.push slot == other).map Slot.step

/-- The step that leads from a node to another element, if the node holds that element itself. -/
def stepTo? (F : Forest) (r other : Position) : Option Step :=
  if other.parent? = some r then F.locate? r other else none

/-- The step that leads to the element from its parent. -/
def index? (F : Forest) (r : Position) : Option Step := r.parent?.bind fun p => F.stepTo? p r

/-- The steps that lead to the element from its root, gathered on the way up. An element that its
parent does not find would be left out. -/
def nav (F : Forest) (r : Position) : List Step := ((r :: r.ancestors).filterMap F.index?).reverse

/-! ## Siblings -/

/-- The element whose index under the same parent differs by `offset`. An index below zero is
nobody's, although as a step it would count from the end. -/
def sibling? (F : Forest) (r : Position) (offset : Int32) : Option Position := do
  let p ← r.parent?
  let s ← F.index? r
  if s.index + offset < 0 then none else F.step? p { s with index := s.index + offset }

def nextSibling? (F : Forest) (r : Position) : Option Position := F.sibling? r 1

def previousSibling? (F : Forest) (r : Position) : Option Position := F.sibling? r (-1)

/-- The nearest significant child of the same parent in a direction. Only children have such
siblings. -/
def significantSibling? (F : Forest) (r : Position) (direction : Direction) : Option Position := do
  let p ← r.parent?
  let s ← F.index? r
  let e ← F.get? p
  if s.method = .child then
    (e.significantFrom? direction (s.index + direction.offset)).map p.push
  else none

def nextSignificant? (F : Forest) (r : Position) : Option Position :=
  F.significantSibling? r .forward

def previousSignificant? (F : Forest) (r : Position) : Option Position :=
  F.significantSibling? r .backward

end Forest

end PatternTree
