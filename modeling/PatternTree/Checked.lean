/-!
# Checked arithmetic

Indices are signed 32-bit numbers. The sum of two of them need not be one, and nothing is promised of
a computation that forms such a sum. In checked arithmetic it ends there, with the number that did not
fit.
-/

namespace PatternTree

/-- A number that is not a signed 32-bit number. -/
structure Overflow where
  value : Int
deriving DecidableEq, Repr

namespace Checked

/-- A number as a signed 32-bit number. -/
def ofInt (n : Int) : Except Overflow Int32 :=
  if Int32.minValue.toInt ≤ n ∧ n ≤ Int32.maxValue.toInt then .ok (Int32.ofInt n) else .error ⟨n⟩

def add (a b : Int32) : Except Overflow Int32 := ofInt (a.toInt + b.toInt)

def sub (a b : Int32) : Except Overflow Int32 := ofInt (a.toInt - b.toInt)

end Checked

end PatternTree
