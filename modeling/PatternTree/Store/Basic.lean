import PatternTree.Element.Basic
import PatternTree.Position

/-!
# Elements in store

While a pattern's tree is being made, its elements are cells in a store. A cell names the cells of its
parts, and it names the cell of the node that holds it, once there is one. The two kinds of links are
written at different moments and nothing but the way cells are made keeps them in step.

Going down uses the names of the parts (`elements`, `handle?`), going up the links to the holders
(`top`, `contains`, `ancestorOf`). The ways up are loops without a bound, and whether they come to an end is a
matter of the links: one that does not gives no answer.
-/

namespace PatternTree

/-- The name of a cell. A name is given once, also when its cell has been cleared. -/
abbrev Handle := Nat

/-- An element with its parts by name. -/
inductive Shape where
  | token (t : Token)
  | node (children : List Handle)
  | group (form : Form) (start type : Option Handle) (children : List Handle)
      (finish : Option Handle)
deriving DecidableEq, Repr

namespace Shape

def kind : Shape → Kind
  | token t => .token t.kind
  | node _ => .node
  | group form .. => form.kind

def children : Shape → List Handle
  | token _ => []
  | node cs => cs
  | group _ _ _ cs _ => cs

def start? : Shape → Option Handle
  | group _ s _ _ _ => s
  | _ => none

def type? : Shape → Option Handle
  | group _ _ t _ _ => t
  | _ => none

def finish? : Shape → Option Handle
  | group _ _ _ _ f => f
  | _ => none

/-- The form of a capture, which tells its name. -/
def captureForm? : Shape → Option Form
  | group form .. => if form.isCapture then some form else none
  | _ => none

/-- The parts in the order of the text: start, type, children, finish. -/
def elements (shape : Shape) : List Handle :=
  shape.start?.toList ++ shape.type?.toList ++ shape.children ++ shape.finish?.toList

/-- The parts in the order in which they are linked to their holder: children first, then the
delimiters. -/
def adopted (shape : Shape) : List Handle :=
  shape.children ++ shape.start?.toList ++ shape.type?.toList ++ shape.finish?.toList

/-- What stands in a slot. -/
def part? (shape : Shape) : Slot → Option Handle
  | .start => shape.start?
  | .type => shape.type?
  | .child i => shape.children[i]?
  | .finish => shape.finish?

@[simp]
theorem elements_token (t : Token) : (token t).elements = [] := rfl

@[simp]
theorem elements_node (cs : List Handle) : (node cs).elements = cs := by
  simp [elements, start?, type?, finish?, children]

@[simp]
theorem elements_group (form : Form) (s t : Option Handle) (cs : List Handle) (f : Option Handle) :
    (group form s t cs f).elements = s.toList ++ t.toList ++ cs ++ f.toList := rfl

end Shape

/-- An element in store, with the link to the node that holds it and, if it is a capture that has been given
one, with its number. -/
structure Cell where
  shape : Shape
  parent : Option Handle
  number : Option UInt32
deriving DecidableEq, Repr

/-- What a maker of trees works on. -/
structure Store where
  /-- The cells by their names, `none` for a cell that has been cleared. -/
  cells : List (Option Cell)
  /-- What each request gave, as long as it has not been handed over to a later one. -/
  results : List (Option Handle)
deriving DecidableEq, Repr

namespace Store

def empty : Store := ⟨[], []⟩

def cell? (s : Store) (h : Handle) : Option Cell := s.cells[h]?.join

/-- Whether there is an element of that name. -/
def alive (s : Store) (h : Handle) : Bool := (s.cell? h).isSome

/-- The node that holds the element; a root has none. -/
def parent? (s : Store) (h : Handle) : Option Handle := (s.cell? h).bind Cell.parent

/-- The number of a capture, if it has been given one. -/
def number? (s : Store) (h : Handle) : Option UInt32 := (s.cell? h).bind Cell.number

/-- Everything a node holds, in the order of the text. -/
def elements (s : Store) (h : Handle) : List Handle :=
  match s.cell? h with
  | some c => c.shape.elements
  | none => []

/-- The elements that belong to the maker and to no node. -/
def roots (s : Store) : List Handle := s.results.filterMap id

/-! ## The way down -/

/-- What stands in a slot of a node. -/
def part? (s : Store) (h : Handle) (slot : Slot) : Option Handle :=
  (s.cell? h).bind fun c => c.shape.part? slot

/-- The element at the end of a path. -/
def descend? (s : Store) (h : Handle) : Path → Option Handle
  | [] => some h
  | slot :: path => (s.part? h slot).bind fun p => s.descend? p path

/-- The element at a position, where the trees are those of the roots. -/
def handle? (s : Store) (r : Position) : Option Handle :=
  s.roots[r.tree]?.bind fun h => s.descend? h r.path

/-! ## Changes -/

/-- Writes a cell, or clears it. -/
def set (s : Store) (h : Handle) (c : Option Cell) : Store := { s with cells := s.cells.set h c }

/-- Adds a cell that nobody holds. Its name is the number of cells before. -/
def add (s : Store) (shape : Shape) : Store := { s with cells := s.cells ++ [some ⟨shape, none, none⟩] }

/-- Keeps the result of a request. -/
def keep (s : Store) (result : Option Handle) : Store := { s with results := s.results ++ [result] }

@[simp]
theorem roots_keep (s : Store) (result : Option Handle) :
    (s.keep result).roots = s.roots ++ result.toList := by
  cases result <;> simp [keep, roots]

theorem lt_of_cell? {s : Store} {h : Handle} {c : Cell} (hc : s.cell? h = some c) :
    h < s.cells.length := by
  by_cases hlt : h < s.cells.length
  · exact hlt
  · have : s.cells[h]? = none := List.getElem?_eq_none (Nat.le_of_not_lt hlt)
    simp [cell?, this] at hc

theorem cell?_set {s : Store} {h : Handle} (hlt : h < s.cells.length) (c : Option Cell) (x : Handle) :
    (s.set h c).cell? x = if x = h then c else s.cell? x := by
  by_cases hx : x = h
  · subst hx
    simp [cell?, set, hlt]
  · simp [cell?, set, hx, Ne.symm hx]

theorem cell?_add (s : Store) (shape : Shape) (x : Handle) :
    (s.add shape).cell? x = if x = s.cells.length then some ⟨shape, none, none⟩ else s.cell? x := by
  by_cases hx : x = s.cells.length
  · simp [cell?, add, hx]
  · rcases Nat.lt_or_gt_of_ne hx with hlt | hgt
    · simp [cell?, add, List.getElem?_append_left hlt, hx]
    · have h1 : s.cells[x]? = none := List.getElem?_eq_none (Nat.le_of_lt hgt)
      have h2 : (s.cells ++ [some ⟨shape, none, none⟩])[x]? = none :=
        List.getElem?_eq_none (by rw [List.length_append, List.length_singleton]; exact hgt)
      simp [cell?, add, h1, h2, hx]

/-! ## Ways up -/

theorem countP_set_none_lt {cells : List (Option Cell)} {h : Handle} {c : Cell}
    (hc : cells[h]?.join = some c) :
    (cells.set h none).countP Option.isSome < cells.countP Option.isSome := by
  obtain ⟨hlt, hget⟩ := List.getElem?_eq_some_iff.1 (Option.join_eq_some_iff.1 hc)
  have hpos : 0 < cells.countP Option.isSome :=
    List.countP_pos_iff.2 ⟨some c, hget ▸ List.getElem_mem hlt, rfl⟩
  rw [List.countP_set hlt, hget]
  exact Nat.sub_lt hpos Nat.one_pos

section Climb

variable {α : Type} (last : Handle → α) (early : Handle → Option α)

/-- Goes from parent to parent until `early` has an answer for one; where there is no further one,
`last` gives the answer. A cell is set aside when it is left, so a way in circles, which has no
end, comes to a cell that is missing and gives nothing. -/
def climb (s : Store) (h : Handle) : Option α :=
  match _ : s.cell? h with
  | none => none
  | some c =>
    match c.parent with
    | none => some (last h)
    | some p =>
      match early p with
      | some a => some a
      | none => climb (s.set h none) p
termination_by s.cells.countP Option.isSome
decreasing_by exact countP_set_none_lt ‹_›

end Climb

/-- Goes from parent to parent as long as there is one. -/
def top (s : Store) (h : Handle) : Option Handle := s.climb id (fun _ => none) h

/-- Goes from parent to parent until it meets `n` or there is no further one. -/
def meets (s : Store) (n h : Handle) : Option Bool :=
  s.climb (fun _ => false) (fun p => if p = n then some true else none) h

/-- Whether the other element is strictly below `n`; nothing is never below. -/
def contains (s : Store) (n : Handle) : Option Handle → Option Bool
  | none => some false
  | some h => s.meets n h

/-- Whether the element of that name is a node, and no token. -/
def isNode (s : Store) (h : Handle) : Bool := (s.cell? h).any fun c => c.shape.kind.isNode

/-- Whether the other element is this one or below it. Only a node is asked for what is below it. -/
def ancestorOf (s : Store) (n : Handle) : Option Handle → Option Bool
  | none => some false
  | some h => if h = n then some true else if s.isNode n then s.contains n (some h) else some false

/-- Whether this element is the other one or below it. -/
def descendantOf (s : Store) (h : Handle) : Option Handle → Option Bool
  | none => some false
  | some n => s.ancestorOf n (some h)

end Store

end PatternTree
