import PatternTree.Element.Basic

/-!
# Making elements

Elements are made from parts that may be missing. A missing delimiter is left out; a missing child
makes the whole element impossible, and so does a kind or a name that the element cannot have.
-/

namespace PatternTree

/-- What a group is asked to be. -/
inductive Heading where
  | ofKind (kind : Kind)
  | capture
  | named (name : String)
deriving DecidableEq, Repr

namespace Heading

/-- The form asked for. By kind, only a plain group or a regexp can be had; a named capture needs
a name that is not empty. -/
def form? : Heading → Option Form
  | ofKind .group => some .plain
  | ofKind .regexp => some .regexp
  | ofKind _ => none
  | capture => some .capture
  | named name => if name = "" then none else some (.named name)

end Heading

namespace Element

/-- A token, if its kind is one of those that tokens have. Without an `introduced` it has always
been known. -/
def makeToken? (kind : Kind) (content : String) (introduced removed : Option Version) :
    Option Element :=
  kind.tokenKind?.map fun k => token ⟨k, content, introduced.getD Version.minimum, removed⟩

/-- A plain node, if no child is missing. -/
def makeNode? (children : List (Option Element)) : Option Element :=
  (children.mapM id).map node

/-- A group, if its heading can be had and no child is missing. -/
def makeGroup? (heading : Heading) (start type : Option Element) (children : List (Option Element))
    (finish : Option Element) : Option Element := do
  let form ← heading.form?
  let children ← children.mapM id
  return group form start type children finish

end Element

end PatternTree
