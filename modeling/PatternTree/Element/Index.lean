import PatternTree.Checked
import PatternTree.Element.Basic

/-!
# Indices of parts

Children are asked for by a 32-bit index; a negative one counts from the end. The same holds for
the significant children, which are counted while walking over the children from the front or from
the back. All of this is done in checked arithmetic. A delimiter is one thing, so its only indices are
0 and -1.
-/

namespace PatternTree

namespace Element

/-- The place that an index names in a list of `length` entries. -/
def resolveIndex (length : Nat) (index : Int32) : Option Nat :=
  let size := Int32.ofNat length
  let place := if index < 0 then index + size else index
  if place < 0 ∨ size ≤ place then none else some place.toNatClampNeg

/-- The slot of the child with that index. -/
def childSlot? (e : Element) (index : Int32) : Option Slot :=
  (resolveIndex e.children.length index).map .child

/-- The same slot, found in checked arithmetic. -/
def childSlot (e : Element) (index : Int32) : Except Overflow (Option Slot) := do
  let size := Int32.ofNat e.children.length
  let place ← (if index < 0 then Checked.add index size else .ok index)
  return if place < 0 ∨ size ≤ place then none else some (.child place.toNatClampNeg)

/-! ## Significant children -/

/-- Walks over the children from the place `loc` to the end, `index` significant ones still to be
passed over, and gives the slot of the next significant one. -/
def walkFromFront (size index loc : Int32) : List Element → Except Overflow (Option Slot)
  | [] => .ok none
  | c :: rest =>
    if loc < size then
      if c.significant then do
        let index ← Checked.sub index 1
        if 0 ≤ index then walkFromFront size index (← Checked.add loc 1) rest
        else return some (.child loc.toNatClampNeg)
      else do walkFromFront size index (← Checked.add loc 1) rest
    else .ok none

/-- The same walk from the place `loc` to the front, where the last significant child has index -1.
The index is counted up also where the walk ends. -/
def walkFromBack (index loc : Int32) : List Element → Except Overflow (Option Slot)
  | [] => .ok none
  | c :: rest =>
    if 0 ≤ loc then
      if c.significant then do
        let next ← Checked.add index 1
        if index < -1 then walkFromBack next (← Checked.sub loc 1) rest
        else return some (.child loc.toNatClampNeg)
      else do walkFromBack index (← Checked.sub loc 1) rest
    else .ok none

/-- The slot of the significant child with that index. -/
def significantSlot (e : Element) (index : Int32) : Except Overflow (Option Slot) := do
  let size := Int32.ofNat e.children.length
  if 0 ≤ index then walkFromFront size index 0 e.children
  else walkFromBack index (← Checked.sub size 1) e.children.reverse

/-- The significant children's slots, in order. -/
def significantSlots (e : Element) : List Slot :=
  (e.children.zipIdx.filter (·.1.significant)).map fun p => .child p.2

def significantCount (e : Element) : Nat := e.children.countP (·.significant)

end Element

/-- One of the two ways along the children of a node. -/
inductive Direction where
  | forward
  | backward
deriving DecidableEq, Repr

namespace Direction

/-- What is added to a place to come to the next one. -/
def offset : Direction → Int32
  | forward => 1
  | backward => -1

/-- How many places a direction has ahead at most. -/
def ahead : Direction → Int32 → Nat
  | forward, place => (Int32.maxValue.toInt - place.toInt).toNat
  | backward, place => (place.toInt + 1).toNat

theorem toInt_bounds {place size : Int32} (h : 0 ≤ place ∧ place < size) :
    0 ≤ place.toInt ∧ place.toInt < Int32.maxValue.toInt := by
  have hplace := Int32.le_iff_toInt_le.1 h.1
  have hlt := Int32.lt_iff_toInt_lt.1 h.2
  have hsize := Int32.le_iff_toInt_le.1 size.le_maxValue
  exact ⟨hplace, by omega⟩

/-- From a place of a child, the next place is a 32-bit number again. -/
theorem toInt_add_offset (direction : Direction) {place size : Int32} (h : 0 ≤ place ∧ place < size) :
    (place + direction.offset).toInt = place.toInt + direction.offset.toInt := by
  have hmax : Int32.maxValue.toInt = 2147483647 := rfl
  obtain ⟨h0, hlt⟩ := toInt_bounds h
  rw [Int32.toInt_add]
  cases direction with
  | forward =>
    have hone : forward.offset.toInt = 1 := rfl
    rw [hone, Int.bmod_eq_of_le] <;> omega
  | backward =>
    have hone : backward.offset.toInt = -1 := rfl
    rw [hone, Int.bmod_eq_of_le] <;> omega

theorem ahead_lt (direction : Direction) {place size : Int32} (h : 0 ≤ place ∧ place < size) :
    direction.ahead (place + direction.offset) < direction.ahead place := by
  have hadd := direction.toInt_add_offset h
  obtain ⟨h0, hlt⟩ := toInt_bounds h
  cases direction with
  | forward =>
    have hone : forward.offset.toInt = 1 := rfl
    simp only [ahead, hadd, hone]
    omega
  | backward =>
    have hone : backward.offset.toInt = -1 := rfl
    simp only [ahead, hadd, hone]
    omega

end Direction

namespace Element

/-- Goes along the children from `place` itself, and gives the slot of the first significant one. -/
def significantFrom? (e : Element) (direction : Direction) (place : Int32) : Option Slot :=
  if 0 ≤ place ∧ place < Int32.ofNat e.children.length then
    (e.childSlot? place).bind fun slot =>
      if (e.part? slot).any significant then some slot
      else e.significantFrom? direction (place + direction.offset)
  else none
termination_by direction.ahead place
decreasing_by exact direction.ahead_lt ‹_›

/-! ## Steps -/

/-- A delimiter's slot, if the delimiter is there and the index is one of its own. -/
def delimiterSlot? (e : Element) (slot : Slot) (index : Int32) : Option Slot :=
  if (e.part? slot).isSome && (index == 0 || index == -1) then some slot else none

/-- The slot that a step leads to. -/
def stepSlot? (e : Element) (s : Step) : Option Slot :=
  match s.method with
  | .child => e.childSlot? s.index
  | .start => e.delimiterSlot? .start s.index
  | .type => e.delimiterSlot? .type s.index
  | .finish => e.delimiterSlot? .finish s.index
  | .other _ => none

/-- The slots of the parts in the order in which a part is looked for: first the delimiters, then the
children. -/
def searchedSlots (e : Element) : List Slot :=
  [.start, .type, .finish].filter (fun slot => (e.part? slot).isSome)
    ++ (List.range e.children.length).map .child

end Element

end PatternTree
