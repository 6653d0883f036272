import PatternTree.Element.Basic
import PatternTree.Message
import PatternTree.Position

/-!
# Predicates and selectors

A search shows elements to a predicate. The predicate sees where and what the element is and which
node holds it; it may also remember earlier calls, so it carries a state of any type. It answers
with a verdict, or fails. A selector is how a caller says what to look for.
-/

namespace PatternTree

/-- The answer to one call. -/
inductive Verdict where
  /-- The element is a match; the search goes on below it. -/
  | accept
  /-- The element is no match; the search goes on below it. -/
  | reject
  /-- The element is no match and nothing below it is looked at. -/
  | prune
  /-- There is no answer. -/
  | fail (fault : Fault)
deriving DecidableEq, Repr

/-- What a predicate is shown. -/
structure Visit where
  container : Position
  position : Position
  element : Element

/-- A predicate with states in `σ`. -/
abbrev Predicate (σ : Type) := Visit → σ → Verdict × σ

namespace Predicate

variable {σ : Type}

/-- Accepts the elements of a kind. -/
def ofKind (kind : Kind) : Predicate σ := fun v s =>
  (if v.element.kind.isa kind then .accept else .reject, s)

/-- Accepts nothing. -/
def nothing : Predicate σ := fun _ s => (.reject, s)

end Predicate

/-- What to look for: a kind by its code, a kind by its name, or what a predicate accepts. -/
inductive Selector (σ : Type) where
  | code (c : Nat)
  | name (n : String)
  | predicate (p : Option (Predicate σ))

namespace Selector

variable {σ : Type}

/-- The predicate that a selector stands for. A code of no kind and a missing predicate stand for
none; no element is of a kind with an unknown name, so such a name accepts nothing. -/
def resolve? : Selector σ → Option (Predicate σ)
  | code c => (Kind.ofCode? c).map Predicate.ofKind
  | name n =>
    match Kind.ofName? n with
    | some kind => some (Predicate.ofKind kind)
    | none => some Predicate.nothing
  | predicate p => p

end Selector

end PatternTree
