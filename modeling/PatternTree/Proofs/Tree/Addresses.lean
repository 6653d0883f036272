import Mathlib
import PatternTree.Proofs.Tree.Positions

/-!
# Addresses

The address of an element is gathered upwards: each node is asked for the step to the part from which
the walk came. It is followed downwards, one step at a time. Both ways go through 32-bit
indices, which are exact as long as no node has 2^31 children or more. Then an address leads back to
its element, and every path of steps that leads somewhere is a spelling of that element's address,
with the same methods and with its indices in normal form (`nav_exact`).
-/

namespace PatternTree

namespace Element

/-! ## Indices -/

theorem toInt_index_add {length : Nat} (h : length < 2 ^ 31) {index : Int32} (hi : index.toInt < 0) :
    (index + Int32.ofNat length).toInt = index.toInt + length := by
  have := index.le_toInt
  rw [Int32.toInt_add, Int32.toInt_ofNat_of_lt h, Int.bmod_eq_of_le] <;> omega

/-- An index names a place directly or, if it is negative, counted from the end. -/
theorem resolveIndex_eq_some {length : Nat} (h : length < 2 ^ 31) {index : Int32} {i : Nat} :
    resolveIndex length index = some i ↔
      i < length ∧ ((i : Int) = index.toInt ∨ index.toInt < 0 ∧ (i : Int) = index.toInt + length) := by
  have hz : (0 : Int32).toInt = 0 := rfl
  simp only [resolveIndex, Int32.lt_iff_toInt_lt, Int32.le_iff_toInt_le, hz, Int32.toInt_ofNat_of_lt h]
  by_cases hneg : index.toInt < 0
  · simp only [hneg, if_true, toInt_index_add h hneg]
    have hn : (index + Int32.ofNat length).toNatClampNeg = (index.toInt + length).toNat := by
      rw [Int32.toNatClampNeg, toInt_index_add h hneg]
    rw [hn]
    split
    · simp only [reduceCtorEq, false_iff]
      omega
    · simp only [Option.some.injEq, true_and]
      omega
  · simp only [hneg, if_false, false_or, false_and, or_false]
    have hn : index.toNatClampNeg = index.toInt.toNat := rfl
    rw [hn]
    split
    · simp only [reduceCtorEq, false_iff]
      omega
    · simp only [Option.some.injEq]
      omega

end Element

namespace Step

/-- The index of a step in normal form, where `count` is the number of children of the node from which
the step is taken: the place of a child counted from the front, and 0 for a delimiter. -/
def normalIndex (s : Step) (count : Nat) : Int :=
  match s.method with
  | .child => if 0 ≤ s.index.toInt then s.index.toInt else s.index.toInt + count
  | _ => 0

/-- The step names the slot up to the form of its index. -/
structure Names (s : Step) (count : Nat) (slot : Slot) : Prop where
  method : slot.step.method = s.method
  index : slot.step.index.toInt = s.normalIndex count
  delimiter : s.method ≠ .child → s.index = 0 ∨ s.index = -1

end Step

namespace Element

/-! ## Steps and slots -/

theorem delimiterSlot?_eq_some {e : Element} {slot slot' : Slot} {index : Int32} :
    e.delimiterSlot? slot index = some slot' ↔
      slot' = slot ∧ (e.part? slot).isSome ∧ (index = 0 ∨ index = -1) := by
  unfold delimiterSlot?
  split
  · rename_i h
    simp only [Bool.and_eq_true, Bool.or_eq_true, beq_iff_eq] at h
    simp only [Option.some.injEq, h, and_true]
    exact eq_comm
  · rename_i h
    simp only [reduceCtorEq, false_iff]
    rintro ⟨-, h1, h2⟩
    exact h (by simp [h1, h2])

/-- A step leads to a slot only if something stands there and the step names it. -/
theorem names_of_stepSlot? {e : Element} (h : e.children.length < 2 ^ 31) {s : Step} {slot : Slot}
    (hs : e.stepSlot? s = some slot) :
    (e.part? slot).isSome ∧ s.Names e.children.length slot := by
  obtain ⟨method, index⟩ := s
  cases method with
  | child =>
    obtain ⟨i, hi, rfl⟩ := Option.map_eq_some_iff.1 hs
    obtain ⟨hlt, hi⟩ := (resolveIndex_eq_some h).1 hi
    refine ⟨by simp [part?, hlt], rfl, ?_, fun hne => absurd rfl hne⟩
    change (i : Int) = index.toInt ∨ index.toInt < 0 ∧ (i : Int) = index.toInt + e.children.length at hi
    simp only [Slot.step, Int32.toInt_ofNat_of_lt (Nat.lt_trans hlt h), Step.normalIndex]
    split <;> omega
  | start =>
    obtain ⟨rfl, hp, hi⟩ := delimiterSlot?_eq_some.1 hs
    exact ⟨hp, rfl, rfl, fun _ => hi⟩
  | type =>
    obtain ⟨rfl, hp, hi⟩ := delimiterSlot?_eq_some.1 hs
    exact ⟨hp, rfl, rfl, fun _ => hi⟩
  | finish =>
    obtain ⟨rfl, hp, hi⟩ := delimiterSlot?_eq_some.1 hs
    exact ⟨hp, rfl, rfl, fun _ => hi⟩
  | other code => cases hs

/-- The step that names a slot leads there if something stands in it. -/
theorem stepSlot?_step {e : Element} (h : e.children.length < 2 ^ 31) {slot : Slot}
    (hp : (e.part? slot).isSome) : e.stepSlot? slot.step = some slot := by
  cases slot with
  | child i =>
    have hlt : i < e.children.length := by simpa [part?] using hp
    have hi : resolveIndex e.children.length (Int32.ofNat i) = some i :=
      (resolveIndex_eq_some h).2
        ⟨hlt, Or.inl (Int32.toInt_ofNat_of_lt (Nat.lt_trans hlt h)).symm⟩
    simp [stepSlot?, Slot.step, childSlot?, hi]
  | start => exact delimiterSlot?_eq_some.2 ⟨rfl, hp, Or.inl rfl⟩
  | type => exact delimiterSlot?_eq_some.2 ⟨rfl, hp, Or.inl rfl⟩
  | finish => exact delimiterSlot?_eq_some.2 ⟨rfl, hp, Or.inl rfl⟩

theorem mem_searchedSlots {e : Element} {slot : Slot} :
    slot ∈ e.searchedSlots ↔ (e.part? slot).isSome := by
  cases slot <;> simp [searchedSlots, part?]

end Element

namespace Position

theorem nav_extend (r : Position) (path : Path) : (r.extend path).nav = r.nav ++ path.map Slot.step := by
  simp [nav, extend]

theorem index?_push (r : Position) (slot : Slot) : (r.push slot).index? = some slot.step := by
  simp [index?]

end Position

namespace Forest

/-! ## On the way up -/

/-- A node finds its own part in the slot in which it stands: no other slot holds it. -/
theorem locate?_push {F : Forest} {r : Position} {slot : Slot} (h : r.push slot ∈ F.positions) :
    F.locate? r (r.push slot) = some slot.step := by
  obtain ⟨e, he, hpart⟩ := push_mem_positions.1 h
  have hfind : e.searchedSlots.find? (fun a => r.push a == r.push slot) = some slot := by
    cases hf : e.searchedSlots.find? (fun a => r.push a == r.push slot) with
    | none =>
      have := List.find?_eq_none.1 hf slot (Element.mem_searchedSlots.2 hpart)
      simp at this
    | some a =>
      have := List.find?_some hf
      rw [(Position.push_injective (beq_iff_eq.1 this)).2]
  simp [locate?, he, hfind]

theorem stepTo?_eq {F : Forest} {r q : Position} (h : q ∈ F.positions) :
    F.stepTo? r q = r.indexOf? q := by
  unfold stepTo? Position.indexOf?
  split
  · rename_i hp
    obtain ⟨slot, rfl⟩ := Position.parent?_eq_some.1 hp
    rw [locate?_push h, Position.index?_push]
  · rfl

/-- The step that the parent finds is the one that names the element's slot. -/
theorem index?_eq {F : Forest} {r : Position} (h : r ∈ F.positions) : F.index? r = r.index? := by
  cases r using Position.push_induction with
  | root tree => rfl
  | push r slot => simp [index?, stepTo?_eq h, Position.indexOf?]

/-- No step is left out on the way up. -/
theorem nav_eq {F : Forest} {r : Position} (h : r ∈ F.positions) : F.nav r = r.nav := by
  induction r using Position.push_induction with
  | root tree => rfl
  | push r slot ih =>
    have hr := ih (mem_positions_of_ancestorOf h (Position.ancestorOf_push r slot))
    have hcons : F.nav (r.push slot) = F.nav r ++ [slot.step] := by
      rw [nav, nav, Position.ancestors_push, List.filterMap_cons_some, List.reverse_cons]
      rw [index?_eq h, Position.index?_push]
    rw [hcons, hr, Position.push_eq_extend, Position.nav_extend]
    rfl

/-! ## On the way down -/

/-- Every node of the tree has fewer than 2^31 children. -/
def Indexable (F : Forest) (tree : Nat) : Prop :=
  ∀ r ∈ F.positions, r.tree = tree → (F.children r).length < 2 ^ 31

theorem Indexable.lt {F : Forest} {r : Position} {e : Element} (h : F.Indexable r.tree)
    (he : F.get? r = some e) : e.children.length < 2 ^ 31 := by
  rw [← length_children he]
  exact h r (mem_positions.2 ⟨e, he⟩) rfl

theorem step?_step {F : Forest} {r : Position} {slot : Slot} (hF : F.Indexable r.tree)
    (h : r.push slot ∈ F.positions) : F.step? r slot.step = some (r.push slot) := by
  obtain ⟨e, he, hpart⟩ := push_mem_positions.1 h
  simp [step?, he, Element.stepSlot?_step (hF.lt he) hpart]

/-- The steps that name the slots of a path lead along that path. -/
theorem follow?_steps {F : Forest} {r : Position} {path : Path} (hF : F.Indexable r.tree)
    (h : r.extend path ∈ F.positions) : F.follow? r (path.map Slot.step) = some (r.extend path) := by
  induction path generalizing r with
  | nil => simp [follow?]
  | cons slot path ih =>
    rw [Position.extend_cons] at h ⊢
    have hslot := mem_positions_of_ancestorOf h (Position.ancestorOf_iff.2 ⟨path, rfl⟩)
    rw [List.map_cons, follow?, step?_step hF hslot]
    exact ih hF h

/-- Wherever a path of steps leads, each of its steps names the slot it was led through. -/
theorem names_of_follow? {F : Forest} {r q : Position} {steps : List Step} (hF : F.Indexable r.tree)
    (hr : r ∈ F.positions) (h : F.follow? r steps = some q) :
    ∃ path, q = r.extend path ∧ q ∈ F.positions ∧ path.length = steps.length ∧
      ∀ k s, steps[k]? = some s → ∃ a slot, F.follow? r (steps.take k) = some a ∧
        path[k]? = some slot ∧ s.Names (F.children a).length slot := by
  induction steps generalizing r with
  | nil =>
    obtain rfl := Option.some.inj h
    exact ⟨[], by simp, hr, rfl, fun k s hk => by simp at hk⟩
  | cons s steps ih =>
    obtain ⟨a, ha, hq⟩ := Option.bind_eq_some_iff.1 h
    obtain ⟨e, he, hmap⟩ := Option.bind_eq_some_iff.1 ha
    obtain ⟨slot, hs, rfl⟩ := Option.map_eq_some_iff.1 hmap
    obtain ⟨hpart, hnames⟩ := Element.names_of_stepSlot? (hF.lt he) hs
    have hmem : r.push slot ∈ F.positions := push_mem_positions.2 ⟨e, he, hpart⟩
    obtain ⟨path, rfl, hqF, hlen, hpath⟩ := ih (r := r.push slot) hF hmem hq
    refine ⟨slot :: path, (Position.extend_cons r slot path).symm, hqF, by simp [hlen], fun k t hk => ?_⟩
    cases k with
    | zero =>
      obtain rfl := Option.some.inj hk
      exact ⟨r, slot, rfl, rfl, by rwa [length_children he]⟩
    | succ k =>
      obtain ⟨b, slot', hb, hslot', hn⟩ := hpath k t hk
      refine ⟨b, slot', ?_, hslot', hn⟩
      rw [List.take_succ_cons, follow?, ha]
      exact hb

/-- **Addresses are exact.** In a tree whose nodes have fewer than 2^31 children, the address of an
element leads from the root to that element, and what it adds to the address of a node above leads
from there. And wherever steps of any methods and indices lead from the root, the address of the
element found has the same methods, with a child's place counted from the front and 0 for a
delimiter. -/
theorem nav_exact (F : Forest) (tree : Nat) (hroot : ⟨tree, []⟩ ∈ F.positions)
    (hF : F.Indexable tree) :
    (∀ q ∈ F.positions, q.tree = tree →
      F.follow? ⟨tree, []⟩ (F.nav q) = some q ∧
      ∀ a ∈ F.positions, a.ancestorOf (some q) = true →
        ∃ steps, F.nav q = F.nav a ++ steps ∧ F.follow? a steps = some q) ∧
    ∀ steps q, F.follow? ⟨tree, []⟩ steps = some q →
      q ∈ F.positions ∧ (F.nav q).length = steps.length ∧
      ∀ k s, steps[k]? = some s → ∃ a s', F.follow? ⟨tree, []⟩ (steps.take k) = some a ∧
        (F.nav q)[k]? = some s' ∧ s'.method = s.method ∧
        s'.index.toInt = s.normalIndex (F.children a).length ∧
        (s.method ≠ .child → s.index = 0 ∨ s.index = -1) := by
  refine ⟨fun q hq ht => ?_, fun steps q h => ?_⟩
  · have habove : ∀ a ∈ F.positions, a.ancestorOf (some q) = true →
        ∃ steps, F.nav q = F.nav a ++ steps ∧ F.follow? a steps = some q := by
      intro a ha hanc
      obtain ⟨path, rfl⟩ := Position.ancestorOf_iff.1 hanc
      obtain rfl : a.tree = tree := ht
      refine ⟨path.map Slot.step, ?_, follow?_steps hF hq⟩
      rw [nav_eq hq, nav_eq ha, Position.nav_extend]
    refine ⟨?_, habove⟩
    obtain rfl := ht
    obtain ⟨steps, hsteps, hfollow⟩ := habove ⟨q.tree, []⟩ hroot
      (Position.ancestorOf_iff.2 ⟨q.path, rfl⟩)
    rwa [hsteps]
  · obtain ⟨path, rfl, hq, hlen, hpath⟩ := names_of_follow? (r := ⟨tree, []⟩) hF hroot h
    have hnav : F.nav (Position.extend ⟨tree, []⟩ path) = path.map Slot.step := by
      rw [nav_eq hq, Position.nav_extend]
      rfl
    rw [hnav]
    refine ⟨hq, by simp [hlen], fun k s hk => ?_⟩
    obtain ⟨a, slot, ha, hslot, hn⟩ := hpath k s hk
    exact ⟨a, slot.step, ha, by simp [hslot], hn.method, hn.index, hn.delimiter⟩

/-- A capture counted from the end, its last child and that one's first: the address counts all of them
from the front, and leads to the same element. -/
theorem nav_sample_exact :
    let steps : List Step := [⟨.child, -2⟩, ⟨.child, -1⟩, ⟨.child, 0⟩]
    let q : Position := ⟨0, [.child 0, .child 1, .child 0]⟩
    ⟨0, []⟩ ∈ sample.positions ∧ sample.Indexable 0 ∧
    sample.follow? ⟨0, []⟩ steps = some q ∧
    sample.nav q = [⟨.child, 0⟩, ⟨.child, 1⟩, ⟨.child, 0⟩] ∧
    sample.follow? ⟨0, []⟩ (sample.nav q) = some q ∧ (sample.nav q).length = steps.length := by
  intro steps q
  have hroot : ⟨0, []⟩ ∈ sample.positions := by decide
  have hF : sample.Indexable 0 := by unfold Indexable; decide
  have hq : sample.follow? ⟨0, []⟩ steps = some q := by decide
  have h := nav_exact sample 0 hroot hF
  have hpaths := h.2 steps q hq
  exact ⟨hroot, hF, hq, by decide, (h.1 q hpaths.1 rfl).1, hpaths.2.1⟩

end Forest

end PatternTree
