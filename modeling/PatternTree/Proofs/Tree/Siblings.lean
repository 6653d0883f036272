import Mathlib
import PatternTree.Proofs.Tree.Indices
import PatternTree.Proofs.Tree.Order

/-!
# Siblings

The siblings of an element are found through its own index: the parent is asked for the step to the element,
the index of that step is moved by one, and the parent takes the step. The same index below zero
would count from the end, and the indices 0 and -1 of a delimiter both lead to the delimiter itself. Neither
shows: in a node with fewer than 2^31 children the siblings are the neighbours in the list of children, the
first and the last child end the row, and delimiters and roots have no siblings (`siblings_exact`).
-/

namespace PatternTree

/-- To begin with `first` and to go on with `next` as long as there is one gives the list. -/
def Enumerates {α : Type} (next : α → Option α) : Option α → List α → Prop
  | first, [] => first = none
  | first, a :: l => first = some a ∧ Enumerates next (next a) l

theorem Enumerates.of_getElem? {α : Type} {next : α → Option α} {l : List α}
    (h : ∀ i a, l[i]? = some a → next a = l[i + 1]?) : Enumerates next l[0]? l := by
  induction l with
  | nil => rfl
  | cons a l ih =>
    refine ⟨rfl, ?_⟩
    rw [h 0 a rfl]
    exact ih fun i b hb => h (i + 1) b hb

/-- A slot that is not a child's is a delimiter's. -/
theorem Slot.eq_delimiter {slot : Slot} (h : slot.isChild = false) :
    slot = .start ∨ slot = .type ∨ slot = .finish := by
  cases slot with
  | child i => cases h
  | start => exact Or.inl rfl
  | type => exact Or.inr (Or.inl rfl)
  | finish => exact Or.inr (Or.inr rfl)

namespace Forest

/-! ## The row of children -/

/-- The children stand in a row, each in the slot of its place. -/
theorem getElem?_children {F : Forest} {r q : Position} {i : Nat} :
    (F.children r)[i]? = some q ↔ q = r.push (.child i) ∧ q ∈ F.positions := by
  cases he : F.get? r with
  | none =>
    simp only [children, he, List.getElem?_nil, reduceCtorEq, false_iff]
    rintro ⟨rfl, hq⟩
    obtain ⟨e, he', -⟩ := push_mem_positions.1 hq
    rw [he] at he'
    cases he'
  | some e =>
    have hmem : r.push (.child i) ∈ F.positions ↔ i < e.children.length := by
      rw [push_mem_positions]
      simp [he, Element.part?]
    have hget : (F.children r)[i]? = some q ↔ i < e.children.length ∧ r.push (.child i) = q := by
      simp [children_of_get? he, List.getElem?_eq_some_iff]
    rw [hget]
    constructor
    · rintro ⟨hi, rfl⟩
      exact ⟨rfl, hmem.2 hi⟩
    · rintro ⟨rfl, hq⟩
      exact ⟨hmem.1 hq, rfl⟩

/-- An element is a root, a delimiter or one of the children of a node. -/
theorem root_or_delimiter_or_child {F : Forest} {q : Position} (hq : q ∈ F.positions) :
    q.parent? = none ∨ (∃ (r : Position) (slot : Slot), q = r.push slot ∧ slot.isChild = false) ∨
      ∃ (r : Position) (i : Nat), (F.children r)[i]? = some q := by
  cases q using Position.push_induction with
  | root tree => exact Or.inl rfl
  | push r slot =>
    cases slot with
    | child i => exact Or.inr (Or.inr ⟨r, i, getElem?_children.2 ⟨rfl, hq⟩⟩)
    | start => exact Or.inr (Or.inl ⟨r, .start, rfl, rfl⟩)
    | type => exact Or.inr (Or.inl ⟨r, .type, rfl, rfl⟩)
    | finish => exact Or.inr (Or.inl ⟨r, .finish, rfl, rfl⟩)

/-- What a node holds beside its children are delimiters. -/
theorem delimiter_of_not_mem_children {F : Forest} {r q : Position} (hq : q ∈ F.elements r)
    (hc : q ∉ F.children r) :
    ∃ slot : Slot, q = r.push slot ∧ slot.isChild = false ∧ q ∈ F.positions := by
  obtain ⟨hqF, hparent⟩ := mem_elements_iff.1 hq
  obtain ⟨slot, rfl⟩ := Position.parent?_eq_some.1 hparent
  refine ⟨slot, rfl, ?_, hqF⟩
  cases slot with
  | child i => exact absurd (List.mem_of_getElem? (getElem?_children.2 ⟨rfl, hqF⟩)) hc
  | start => rfl
  | type => rfl
  | finish => rfl

/-! ## Neighbours -/

theorem sibling?_root {F : Forest} {q : Position} (h : q.parent? = none) (offset : Int32) :
    F.sibling? q offset = none := by
  simp [sibling?, h]

theorem sibling?_push {F : Forest} {r : Position} {slot : Slot} (h : r.push slot ∈ F.positions)
    (offset : Int32) :
    F.sibling? (r.push slot) offset =
      if slot.step.index + offset < 0 then none
      else F.step? r { slot.step with index := slot.step.index + offset } := by
  simp [sibling?, index?_eq h, Position.index?_push]

theorem parent?_of_sibling? {F : Forest} {q f : Position} {offset : Int32}
    (h : F.sibling? q offset = some f) : f.parent? = q.parent? := by
  obtain ⟨r, hr, h⟩ := Option.bind_eq_some_iff.1 h
  obtain ⟨s, -, h⟩ := Option.bind_eq_some_iff.1 h
  split at h
  · cases h
  · obtain ⟨e, -, h⟩ := Option.bind_eq_some_iff.1 h
    obtain ⟨slot, -, rfl⟩ := Option.map_eq_some_iff.1 h
    rw [hr, Position.parent?_push]

theorem step?_delimiter {F : Forest} {r : Position} {slot : Slot} (hslot : slot.isChild = false)
    {index : Int32} (h0 : index ≠ 0) (h1 : index ≠ -1) :
    F.step? r { slot.step with index := index } = none := by
  rw [Option.eq_none_iff_forall_ne_some]
  intro q hq
  obtain ⟨e, -, hq⟩ := Option.bind_eq_some_iff.1 hq
  obtain ⟨slot', hs, -⟩ := Option.map_eq_some_iff.1 hq
  have hd : e.delimiterSlot? slot index = some slot' := by
    rcases Slot.eq_delimiter hslot with rfl | rfl | rfl <;> exact hs
  rcases (Element.delimiterSlot?_eq_some.1 hd).2.2 with h | h
  · exact h0 h
  · exact h1 h

/-- A delimiter's own index is 0. Before it there is no index, and the one after it is nobody's. -/
theorem siblings_delimiter {F : Forest} {r : Position} {slot : Slot} (h : r.push slot ∈ F.positions)
    (hslot : slot.isChild = false) :
    F.nextSibling? (r.push slot) = none ∧ F.previousSibling? (r.push slot) = none := by
  have hzero : slot.step.index = 0 := by
    rcases Slot.eq_delimiter hslot with rfl | rfl | rfl <;> rfl
  rw [nextSibling?, previousSibling?, sibling?_push h, sibling?_push h, hzero]
  constructor
  · rw [if_neg (by decide)]
    exact step?_delimiter hslot (by decide) (by decide)
  · exact if_pos (by decide)

/-- The index of a child is its place, and moved by one it is still a 32-bit number. -/
theorem sibling?_child {F : Forest} {r q : Position} {i : Nat} (h : (F.children r).length < 2 ^ 31)
    (hq : (F.children r)[i]? = some q) {offset : Int32} (ho : offset.toInt = 1 ∨ offset.toInt = -1) :
    F.sibling? q offset =
      if i + offset.toInt < 0 then none else entryAt? (F.children r) (i + offset.toInt) := by
  obtain ⟨rfl, hqF⟩ := getElem?_children.1 hq
  have hi := (List.getElem?_eq_some_iff.1 hq).1
  have hplace : (Int32.ofNat i).toInt = i := Int32.toInt_ofNat_of_lt (by omega)
  have hmoved : (Int32.ofNat i + offset).toInt = i + offset.toInt := by
    rw [Int32.toInt_add, hplace, Int.bmod_eq_of_le] <;> omega
  rw [sibling?_push hqF]
  change (if Int32.ofNat i + offset < 0 then none else F.step? r ⟨.child, Int32.ofNat i + offset⟩) = _
  have hneg : Int32.ofNat i + offset < 0 ↔ i + offset.toInt < 0 := by
    rw [Int32.lt_iff_toInt_lt, hmoved]
    rfl
  simp only [hneg, step?_child h, hmoved]

theorem nextSibling?_child {F : Forest} {r q : Position} {i : Nat} (h : (F.children r).length < 2 ^ 31)
    (hq : (F.children r)[i]? = some q) : F.nextSibling? q = (F.children r)[i + 1]? := by
  rw [nextSibling?, sibling?_child h hq (Or.inl rfl)]
  change (if (i + 1 : Int) < 0 then none else entryAt? (F.children r) (i + 1 : Nat)) = _
  rw [if_neg (by omega), entryAt?_natCast]

/-- Before the first child there is none, although its index less one would count from the end. -/
theorem previousSibling?_first {F : Forest} {r q : Position} (h : (F.children r).length < 2 ^ 31)
    (hq : (F.children r)[0]? = some q) : F.previousSibling? q = none := by
  rw [previousSibling?, sibling?_child h hq (Or.inr rfl)]
  exact if_pos (by decide)

theorem previousSibling?_child {F : Forest} {r q : Position} {i : Nat}
    (h : (F.children r).length < 2 ^ 31) (hq : (F.children r)[i + 1]? = some q) :
    F.previousSibling? q = (F.children r)[i]? := by
  have hback : ((i + 1 : Nat) + (-1 : Int32).toInt : Int) = i := by
    change ((i + 1 : Nat) + -1 : Int) = i
    omega
  rw [previousSibling?, sibling?_child h hq (Or.inr rfl), hback, if_neg (by omega), entryAt?_natCast]

/-! ## Going along -/

theorem enumerates_nextSibling {F : Forest} {r : Position} (h : (F.children r).length < 2 ^ 31) :
    Enumerates F.nextSibling? (F.children r)[0]? (F.children r) :=
  .of_getElem? fun _ _ hq => nextSibling?_child h hq

theorem enumerates_previousSibling {F : Forest} {r : Position} (h : (F.children r).length < 2 ^ 31) :
    Enumerates F.previousSibling? (F.children r).reverse[0]? (F.children r).reverse := by
  refine .of_getElem? fun i q hq => ?_
  have hi : i < (F.children r).length := by
    simpa using (List.getElem?_eq_some_iff.1 hq).1
  rw [List.getElem?_reverse hi] at hq
  by_cases hlast : i + 1 < (F.children r).length
  · rw [List.getElem?_reverse hlast]
    refine previousSibling?_child h ?_
    rwa [show (F.children r).length - 1 - (i + 1) + 1 = (F.children r).length - 1 - i by omega]
  · rw [List.getElem?_eq_none (by rw [List.length_reverse]; omega)]
    refine previousSibling?_first h ?_
    rwa [show (F.children r).length - 1 - i = 0 by omega] at hq

/-! ## Neighbours of each other -/

/-- The second element comes right after the first one among the children of a node. -/
def Adjacent (F : Forest) (q f : Position) : Prop :=
  ∃ (r : Position) (i : Nat), (F.children r)[i]? = some q ∧ (F.children r)[i + 1]? = some f

theorem nextSibling?_eq_some {F : Forest} {q f : Position} (hq : q ∈ F.positions)
    (h : ∀ r, q.parent? = some r → (F.children r).length < 2 ^ 31) :
    F.nextSibling? q = some f ↔ F.Adjacent q f := by
  constructor
  · intro hnext
    rcases root_or_delimiter_or_child hq with hroot | ⟨r, slot, rfl, hslot⟩ | ⟨r, i, hi⟩
    · rw [nextSibling?, sibling?_root hroot] at hnext
      cases hnext
    · rw [(siblings_delimiter hq hslot).1] at hnext
      cases hnext
    · refine ⟨r, i, hi, ?_⟩
      obtain ⟨rfl, -⟩ := getElem?_children.1 hi
      rwa [nextSibling?_child (h r (Position.parent?_push r _)) hi] at hnext
  · rintro ⟨r, i, hi, hf⟩
    obtain ⟨rfl, -⟩ := getElem?_children.1 hi
    rw [nextSibling?_child (h r (Position.parent?_push r _)) hi, hf]

theorem previousSibling?_eq_some {F : Forest} {q f : Position} (hf : f ∈ F.positions)
    (h : ∀ r, f.parent? = some r → (F.children r).length < 2 ^ 31) :
    F.previousSibling? f = some q ↔ F.Adjacent q f := by
  constructor
  · intro hprevious
    rcases root_or_delimiter_or_child hf with hroot | ⟨r, slot, rfl, hslot⟩ | ⟨r, i, hi⟩
    · rw [previousSibling?, sibling?_root hroot] at hprevious
      cases hprevious
    · rw [(siblings_delimiter hf hslot).2] at hprevious
      cases hprevious
    · obtain ⟨rfl, -⟩ := getElem?_children.1 hi
      have hr := h r (Position.parent?_push r _)
      cases i with
      | zero =>
        rw [previousSibling?_first hr hi] at hprevious
        cases hprevious
      | succ i =>
        rw [previousSibling?_child hr hi] at hprevious
        exact ⟨r, i, hprevious, hi⟩
  · rintro ⟨r, i, hq, hi⟩
    obtain ⟨rfl, -⟩ := getElem?_children.1 hi
    rw [previousSibling?_child (h r (Position.parent?_push r _)) hi, hq]

/-- **Siblings are neighbours in the row of children.** In a node with fewer than 2^31 children, to go
from the first child to the next sibling and so on gives all children in their order, and to go
from the last one to the previous sibling and so on gives them in reverse; the first child has no sibling before
it. One element is the next sibling of another if and only if that other is its previous sibling. Delimiters
and roots have no siblings. -/
theorem siblings_exact (F : Forest) :
    (∀ r, (F.children r).length < 2 ^ 31 → ∃ first last,
      F.childAt r 0 = .ok first ∧ Enumerates F.nextSibling? first (F.children r) ∧
      F.childAt r (-1) = .ok last ∧ Enumerates F.previousSibling? last (F.children r).reverse ∧
      ∀ q, first = some q → F.previousSibling? q = none) ∧
    (∀ e ∈ F.positions, ∀ f ∈ F.positions,
      (∀ r, e.parent? = some r → (F.children r).length < 2 ^ 31) →
        (F.nextSibling? e = some f ↔ F.previousSibling? f = some e)) ∧
    (∀ r, ∀ q ∈ F.elements r, q ∉ F.children r →
      F.nextSibling? q = none ∧ F.previousSibling? q = none) ∧
    ∀ q, q.parent? = none → F.nextSibling? q = none ∧ F.previousSibling? q = none := by
  refine ⟨fun r h => ?_, fun e he f hf h => ?_, fun r q hq hc => ?_, fun q hroot => ?_⟩
  · have hfirst : F.childAt r 0 = .ok (F.children r)[0]? :=
      (childAt_eq h 0).trans (congrArg _ (entryAt?_natCast (F.children r) 0))
    have hlast : F.childAt r (-1) = .ok (F.children r).reverse[0]? :=
      (childAt_eq h (-1)).trans (congrArg _ (entryAt?_negSucc (F.children r) 0))
    exact ⟨_, _, hfirst, enumerates_nextSibling h, hlast, enumerates_previousSibling h,
      fun q hq => previousSibling?_first h hq⟩
  · rw [nextSibling?_eq_some he h]
    constructor
    · intro hadj
      refine (previousSibling?_eq_some hf fun r hr => h r ?_).2 hadj
      obtain ⟨r', i, hi, hi'⟩ := hadj
      obtain ⟨rfl, -⟩ := getElem?_children.1 hi
      obtain ⟨rfl, -⟩ := getElem?_children.1 hi'
      rw [← hr, Position.parent?_push, Position.parent?_push]
    · intro hprevious
      exact (previousSibling?_eq_some hf fun r hr => h r ((parent?_of_sibling? hprevious).trans hr)).1
        hprevious
  · obtain ⟨slot, rfl, hslot, hqF⟩ := delimiter_of_not_mem_children hq hc
    exact siblings_delimiter hqF hslot
  · exact ⟨sibling?_root hroot 1, sibling?_root hroot (-1)⟩

/-- The row of five children in both directions. The group is followed by a blank and preceded by the comment;
its finish has no siblings. -/
theorem siblings_spaced_exact :
    let r : Position := ⟨0, []⟩
    let group := r.push (.child 3)
    (spaced.children r).length = 5 ∧
    (∃ first, spaced.childAt r 0 = .ok first ∧
      Enumerates spaced.nextSibling? first (spaced.children r)) ∧
    spaced.nextSibling? (r.push (.child 2)) = some group ∧
    spaced.previousSibling? group = some (r.push (.child 2)) ∧
    spaced.previousSibling? (r.push (.child 0)) = none ∧
    spaced.nextSibling? (group.push .finish) = none ∧
    spaced.previousSibling? (group.push .finish) = none := by
  intro r group
  have hlen : (spaced.children r).length < 2 ^ 31 := by decide
  obtain ⟨hrow, hpair, hdelimiter, -⟩ := siblings_exact spaced
  obtain ⟨first, last, hfirst, hnext, -, -, hprevious⟩ := hrow r hlen
  have hafter : spaced.nextSibling? (r.push (.child 2)) = some group := by decide
  have hfinish := hdelimiter group (group.push .finish) (by decide) (by decide)
  refine ⟨by decide, ⟨first, hfirst, hnext⟩, hafter, ?_, ?_, hfinish⟩
  · refine (hpair _ (by decide) _ (by decide) ?_).1 hafter
    intro p hp
    obtain rfl : r = p := Option.some.inj hp
    exact hlen
  · refine hprevious _ ?_
    have hzero : spaced.childAt r 0 = .ok (some (r.push (.child 0))) := by decide
    exact Except.ok.inj (hfirst.symm.trans hzero)

end Forest

end PatternTree
