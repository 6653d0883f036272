import PatternTree.Element.Make
import PatternTree.Store.Basic

/-!
# Making elements in store

A maker of trees gives one request after the other. A part of the element asked for is the result of an
earlier request, and to use it is to hand it over: afterwards the maker no longer has it, and using
it again hands over nothing. A request that is granted links the parts to the new element. One that is
refused clears the parts it was given, with everything below them.

Three things may go wrong on the way that no maker could mend: a part that is already held by another
node, a node of a kind that is not one of nodes, and a name whose cell has been cleared. They end
everything, and so does, when captures are numbered, a part that is younger than its node.
-/

namespace PatternTree

/-- A request for an element, with its parts in `α`. -/
inductive Request (α : Type) where
  | token (kind : Kind) (content : String) (introduced removed : Option Version)
  | node (children : List α)
  | group (heading : Heading) (start type : α) (children : List α) (finish : α)
deriving Repr

namespace Request

/-- The parts that a request was given. -/
def parts {α : Type} : Request (Option α) → List α
  | token .. => []
  | node children => children.filterMap id
  | group _ start type children finish =>
    start.toList ++ type.toList ++ children.filterMap id ++ finish.toList

/-- The shape asked for. There is none if the kind or the name is one that the element cannot have, or
if a child is missing; a missing delimiter is left out. -/
def shape? : Request (Option Handle) → Option Shape
  | token kind content introduced removed =>
    ((Element.makeToken? kind content introduced removed).bind Element.token?).map .token
  | node children => (children.mapM id).map .node
  | group heading start type children finish => do
    let form ← heading.form?
    let children ← children.mapM id
    return .group form start type children finish

/-! ## Handing over -/

section

variable {α : Type}

/-- Takes the result of the request with that number out of the results; without a number, nothing. -/
def take (results : List (Option α)) : Option Nat → Option α × List (Option α)
  | none => (none, results)
  | some k => (results[k]?.join, results.set k none)

/-- Takes results in a row, the first one first. -/
def takeAll (results : List (Option α)) : List (Option Nat) → List (Option α) × List (Option α)
  | [] => ([], results)
  | k :: ks =>
    let (a, results) := take results k
    let (as, results) := takeAll results ks
    (a :: as, results)

/-- The request with its parts handed over, and the results that are left. -/
def handOver (results : List (Option α)) :
    Request (Option Nat) → Request (Option α) × List (Option α)
  | token kind content introduced removed => (token kind content introduced removed, results)
  | node children =>
    let (children, results) := takeAll results children
    (node children, results)
  | group heading start type children finish =>
    let (start, results) := take results start
    let (type, results) := take results type
    let (children, results) := takeAll results children
    let (finish, results) := take results finish
    (group heading start type children finish, results)

end

end Request

/-- What ends everything. -/
inductive Crash where
  /-- An element of that kind was to be linked to a second holder. -/
  | held (kind : Kind)
  /-- A node was to have that kind. -/
  | notNode (kind : Kind)
  /-- The cell of that name has been cleared. -/
  | cleared (h : Handle)
  /-- The part of that name is not older than the node that names it. -/
  | younger (h : Handle)
deriving DecidableEq, Repr

namespace Store

/-- Links an element that nobody holds to the node `n`. An element gets a holder nowhere else: a new
node adopts its children in their order, then start, type and finish. -/
def adopt (n : Handle) (s : Store) (h : Handle) : Except Crash Store :=
  match s.cell? h with
  | none => .error (.cleared h)
  | some c =>
    match c.parent with
    | some _ => .error (.held c.shape.kind)
    | none => .ok (s.set h (some { c with parent := some n }))

/-- Adds a node and links its parts to it. -/
def construct (s : Store) (shape : Shape) : Except Crash Store :=
  if shape.kind.isNode then do
    let n := s.cells.length
    let s ← shape.adopted.foldlM (adopt n) (s.add shape)
    return s.keep (some n)
  else .error (.notNode shape.kind)

/-- Clears cells and everything below them. Each cell must still be there when its turn comes. -/
def clear (s : Store) : List Handle → Except Crash Store
  | [] => .ok s
  | h :: hs =>
    match _ : s.cell? h with
    | none => .error (.cleared h)
    | some c => (s.set h none).clear (c.shape.elements ++ hs)
termination_by s.cells.countP Option.isSome
decreasing_by exact countP_set_none_lt ‹_›

/-- Makes the element asked for, or refuses it and clears its parts. Nothing is touched before that
is decided. -/
def make (s : Store) (q : Request (Option Handle)) : Except Crash Store :=
  match q.shape? with
  | none => do
    let s ← s.clear q.parts
    return s.keep none
  | some (.token t) => .ok ((s.add (.token t)).keep (some s.cells.length))
  | some shape => s.construct shape

/-- Carries out a request. -/
def perform (s : Store) (q : Request (Option Nat)) : Except Crash Store :=
  let (q, results) := q.handOver s.results
  { s with results }.make q

/-- The store after requests in a row, from an empty one. -/
def run (requests : List (Request (Option Nat))) : Except Crash Store :=
  requests.foldlM perform empty

end Store

end PatternTree
