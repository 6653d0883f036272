import PatternTree.Forest
import PatternTree.Search.Predicate

/-!
# Searching

Both searches go through the parts of a node in the order of the text and, below each part that was
not pruned, through the parts of that part. They differ in what a fault costs. When all matches are
wanted, a fault ends the search of the node whose part was shown, and that node's matches are lost;
the search of the nodes around it goes on. When the first match is wanted, any fault ends it all.

An outcome carries the result, the predicate's state, every call with its answer, and the messages
that were traced.
-/

namespace PatternTree

/-- One call of a predicate and its answer. -/
structure Call where
  container : Position
  position : Position
  verdict : Verdict
deriving DecidableEq, Repr

/-- What a search gives: its result and all it did on the way. -/
structure Outcome (σ ρ : Type) where
  result : ρ
  state : σ
  calls : List Call
  messages : List Message

namespace Outcome

variable {σ ρ : Type}

/-- The outcome after something else had been done before it. -/
def after (o : Outcome σ ρ) (calls : List Call) (messages : List Message) : Outcome σ ρ :=
  { o with calls := calls ++ o.calls, messages := messages ++ o.messages }

end Outcome

namespace Search

variable {σ : Type} (options : Options) (pred : Predicate σ)

/-- The outcome of a call that failed. -/
def faulted {ρ : Type} (mode : SearchMode) (result : ρ) (e : Element) (fault : Fault) (call : Call)
    (s : σ) : Outcome σ ρ :=
  ⟨result, s, [call], options.log (.faulted mode e.kind e.content fault)⟩

/-! ## All matches -/

/-- The matches below a node, `none` if they were lost. -/
abbrev Found (σ : Type) := Outcome σ (Option (List Position))

/-- Goes through the parts of the node at `here`; each comes with the search of what is below it. -/
def findParts (here : Position) :
    List (Slot × Element × (Position → σ → Found σ)) → σ → Found σ
  | [], s => ⟨some [], s, [], []⟩
  | (slot, e, below) :: rest, s =>
    let position := here.push slot
    let (verdict, s) := pred ⟨here, position, e⟩ s
    let call : Call := ⟨here, position, verdict⟩
    match verdict with
    | .fail fault => faulted options .all none e fault call s
    | .prune => (findParts here rest s).after [call] []
    | .accept =>
      let sub := below position s
      let tail := findParts here rest sub.state
      ⟨tail.result.map fun ms => position :: sub.result.getD [] ++ ms, tail.state,
        call :: sub.calls ++ tail.calls, sub.messages ++ tail.messages⟩
    | .reject =>
      let sub := below position s
      let tail := findParts here rest sub.state
      ⟨tail.result.map fun ms => sub.result.getD [] ++ ms, tail.state,
        call :: sub.calls ++ tail.calls, sub.messages ++ tail.messages⟩

/-- All matches below an element that stands at the given position. -/
def findBelow : Element → Position → σ → Found σ :=
  Element.fold fun _ subs here s => findParts options pred here subs s

theorem findBelow_eq (e : Element) (here : Position) (s : σ) :
    findBelow options pred e here s =
      findParts options pred here
        (e.parts.map fun p => (p.1, p.2, findBelow options pred p.2)) s := by
  rw [findBelow, Element.fold_eq]

/-! ## The first match -/

/-- The first match below a node: `none` after a fault, `some none` if there is no match. -/
abbrev First (σ : Type) := Outcome σ (Option (Option Position))

/-- Goes through the parts of the node at `here` until there is a match or a fault. -/
def firstParts (here : Position) :
    List (Slot × Element × (Position → σ → First σ)) → σ → First σ
  | [], s => ⟨some none, s, [], []⟩
  | (slot, e, below) :: rest, s =>
    let position := here.push slot
    let (verdict, s) := pred ⟨here, position, e⟩ s
    let call : Call := ⟨here, position, verdict⟩
    match verdict with
    | .fail fault => faulted options .first none e fault call s
    | .accept => ⟨some (some position), s, [call], []⟩
    | .prune => (firstParts here rest s).after [call] []
    | .reject =>
      let sub := below position s
      match sub.result with
      | some none =>
        (firstParts here rest sub.state).after (call :: sub.calls) sub.messages
      | _ => sub.after [call] []

/-- The first match below an element that stands at the given position. -/
def firstBelow : Element → Position → σ → First σ :=
  Element.fold fun _ subs here s => firstParts options pred here subs s

theorem firstBelow_eq (e : Element) (here : Position) (s : σ) :
    firstBelow options pred e here s =
      firstParts options pred here
        (e.parts.map fun p => (p.1, p.2, firstBelow options pred p.2)) s := by
  rw [firstBelow, Element.fold_eq]

end Search

namespace Forest

variable {σ : Type}

/-- All elements below a position that the selector wants, in the order of the text. A selector
that stands for no predicate finds nothing, and so does a position without an element; neither
makes a call. -/
def find (F : Forest) (options : Options) (r : Position) (want : Selector σ) (s : σ) :
    Search.Found σ :=
  match want.resolve?, F.get? r with
  | some pred, some e => Search.findBelow options pred e r s
  | _, _ => ⟨none, s, [], []⟩

/-- The first element below a position that the selector wants. -/
def findFirst (F : Forest) (options : Options) (r : Position) (want : Selector σ) (s : σ) :
    Search.First σ :=
  match want.resolve?, F.get? r with
  | some pred, some e => Search.firstBelow options pred e r s
  | _, _ => ⟨none, s, [], []⟩

end Forest

end PatternTree
