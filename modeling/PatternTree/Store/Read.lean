import PatternTree.Forest
import PatternTree.Store.Basic

/-!
# Reading a store

A cell can be read as an element: its parts are read first, each from the cell of that name, and the cell puts
them together. A node is made after its parts, so reading only ever goes on to older names, and a cell that names
a younger part cannot be read. The trees that are read from the roots are the forest in store.
-/

namespace PatternTree

/-- The element of that shape, if every part can be read. -/
def Shape.element? (part : Handle → Option Element) : Shape → Option Element
  | token t => some (.token t)
  | node children => (children.mapM part).map .node
  | group form start type children finish => do
    let start ← start.mapM part
    let type ← type.mapM part
    let children ← children.mapM part
    let finish ← finish.mapM part
    return .group form start type children finish

namespace Store

/-- The element that a cell and the cells below it make up. -/
def element? (s : Store) (h : Handle) : Option Element :=
  (s.cell? h).bind fun c => c.shape.element? fun p => if _ : p < h then s.element? p else none
termination_by h

/-- The trees that belong to the maker. -/
def forest (s : Store) : Forest := ⟨s.roots.filterMap s.element?⟩

end Store

end PatternTree
