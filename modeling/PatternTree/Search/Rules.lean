import PatternTree.Element.Summary
import PatternTree.Search.Predicate

/-!
# Rules

A predicate can be written down as a list of rules. The first rule whose conditions all hold
decides. The state counts the calls, so that a rule can speak of the n-th call of a search.
-/

namespace PatternTree

/-- What a rule can ask of a visit. A position that is not given is nobody's. -/
inductive Condition where
  | content (text : String)
  | isa (kind : Kind)
  | significant (expected : Bool)
  | isNode (expected : Bool)
  | position (r : Option Position)
  | container (r : Option Position)
  | call (number : Int)
deriving Repr

/-- Whether a condition holds of a visit after `calls` earlier ones. -/
def Condition.holds (v : Visit) (calls : Nat) : Condition → Bool
  | content text => v.element.content == text
  | isa kind => v.element.kind.isa kind
  | significant expected => v.element.significant == expected
  | isNode expected => v.element.isNode == expected
  | position r => r == some v.position
  | container r => r == some v.container
  | call number => number == calls

structure Rule where
  conditions : List Condition
  verdict : Verdict
deriving Repr

/-- Rules in a row, and the verdict where none applies. -/
structure RuleList where
  rules : List Rule
  otherwise : Verdict
deriving Repr

namespace RuleList

/-- The verdict on a visit after `calls` earlier ones. -/
def verdict (l : RuleList) (v : Visit) (calls : Nat) : Verdict :=
  match l.rules.find? fun rule => rule.conditions.all (·.holds v calls) with
  | some rule => rule.verdict
  | none => l.otherwise

/-- The predicate that the rules describe; its state is the number of calls so far. -/
def predicate (l : RuleList) : Predicate Nat := fun v calls => (l.verdict v calls, calls + 1)

end RuleList

end PatternTree
