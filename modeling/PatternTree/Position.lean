import PatternTree.Path

/-!
# Positions

Two tokens with the same text are still two elements, so an element of a forest is named by where
it stands: the number of its tree and its path. The parent of a position is found by dropping the
last slot; ancestors, the root and containment are found by going from parent to parent.
-/

namespace PatternTree

/-- The place of an element in a forest. -/
structure Position where
  tree : Nat
  path : Path
deriving DecidableEq, Repr, Hashable

namespace Position

/-- The position of a part. -/
def push (r : Position) (slot : Slot) : Position := { r with path := r.path ++ [slot] }

/-- The node that holds the element; a root has none. -/
def parent? (r : Position) : Option Position :=
  if r.path.isEmpty then none else some { r with path := r.path.dropLast }

/-- The positions met in at most `n` moves from parent to parent. -/
def climb : Nat → Position → List Position
  | 0, _ => []
  | n + 1, r =>
    match r.parent? with
    | none => []
    | some p => p :: climb n p

/-- All positions above, the nearest first. No more moves are possible than the path has slots. -/
def ancestors (r : Position) : List Position := climb r.path.length r

/-- The root of the tree. -/
def top (r : Position) : Position := r.ancestors.getLastD r

/-- Whether the other element is strictly below this one; nothing is never below. -/
def contains (r : Position) : Option Position → Bool
  | none => false
  | some other => other.ancestors.contains r

/-- Whether the other element is this one or below it. -/
def ancestorOf (r : Position) : Option Position → Bool
  | none => false
  | some other => other == r || r.contains (some other)

/-- The step that names the slot in which the element stands. -/
def index? (r : Position) : Option Step := r.path.getLast?.map Slot.step

/-- The steps that name the slots of the path. -/
def nav (r : Position) : List Step := r.path.map Slot.step

/-- The step that names the slot of the other element, if that is a slot of this node. -/
def indexOf? (r other : Position) : Option Step :=
  if other.parent? = some r then other.index? else none

@[simp]
theorem path_push (r : Position) (slot : Slot) : (r.push slot).path = r.path ++ [slot] := rfl

@[simp]
theorem tree_push (r : Position) (slot : Slot) : (r.push slot).tree = r.tree := rfl

@[simp]
theorem parent?_push (r : Position) (slot : Slot) : (r.push slot).parent? = some r := by
  simp [parent?]

end Position

end PatternTree
