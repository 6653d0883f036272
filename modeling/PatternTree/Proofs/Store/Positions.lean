import PatternTree.Proofs.Store.Sound
import PatternTree.Proofs.Tree.Positions

/-!
# Positions in store

A store with sound links holds trees, and its elements have positions like the elements of a forest. A
position leads to an element along the names of the parts, and every element has exactly one
(`Sound.position_unique`). The links up agree with that: the parent link leads to the parent of the
position, the way up to its root, and the search upwards finds what is above it.
-/

namespace PatternTree

/-! ## Slots of a shape -/

namespace Shape

theorem mem_elements {shape : Shape} {p : Handle} :
    p ∈ shape.elements ↔ ∃ slot, shape.part? slot = some p := by
  simp only [elements, List.mem_append, Option.mem_toList]
  constructor
  · rintro (((h | h) | h) | h)
    · exact ⟨.start, h⟩
    · exact ⟨.type, h⟩
    · obtain ⟨i, hi⟩ := List.mem_iff_getElem?.1 h
      exact ⟨.child i, hi⟩
    · exact ⟨.finish, h⟩
  · rintro ⟨slot, h⟩
    cases slot with
    | start => exact Or.inl (Or.inl (Or.inl h))
    | type => exact Or.inl (Or.inl (Or.inr h))
    | child i => exact Or.inl (Or.inr (List.mem_iff_getElem?.2 ⟨i, h⟩))
    | finish => exact Or.inr h

/-- Where no part is named twice, a part is known by its slot. -/
theorem part?_injective {shape : Shape} (h : shape.elements.Nodup) {a b : Slot} {p : Handle}
    (ha : shape.part? a = some p) (hb : shape.part? b = some p) : a = b := by
  simp only [elements, List.nodup_append, Option.mem_toList, List.mem_append] at h
  have hchild : ∀ i j : Nat, shape.children[i]? = some p → shape.children[j]? = some p → i = j := by
    intro i j hi hj
    obtain ⟨hlt, -⟩ := List.getElem?_eq_some_iff.1 hi
    exact (List.getElem?_inj hlt h.1.2.1).1 (hi.trans hj.symm)
  cases a <;> cases b <;> simp only [part?] at ha hb <;> grind

end Shape

namespace Store

/-! ## Down the names of the parts -/

theorem mem_elements {s : Store} {n p : Handle} :
    p ∈ s.elements n ↔ ∃ slot, s.part? n slot = some p := by
  unfold elements part?
  cases s.cell? n with
  | none => simp
  | some c => exact Shape.mem_elements

theorem descend?_append (s : Store) (h : Handle) (p q : Path) :
    s.descend? h (p ++ q) = (s.descend? h p).bind fun x => s.descend? x q := by
  induction p generalizing h with
  | nil => rfl
  | cons slot p ih =>
    rw [List.cons_append, descend?, descend?]
    cases s.part? h slot with
    | none => rfl
    | some d => exact ih d

theorem handle?_root (s : Store) (tree : Nat) : s.handle? ⟨tree, []⟩ = s.roots[tree]? := by
  simp [handle?, descend?]

theorem handle?_extend (s : Store) (r : Position) (path : Path) :
    s.handle? (r.extend path) = (s.handle? r).bind fun h => s.descend? h path := by
  simp only [handle?, Position.extend, descend?_append]
  cases s.roots[r.tree]? <;> rfl

theorem handle?_push (s : Store) (r : Position) (slot : Slot) :
    s.handle? (r.push slot) = (s.handle? r).bind fun h => s.part? h slot := by
  rw [Position.push_eq_extend, handle?_extend]
  simp [descend?]

/-- Something stands at a position only if something stands at the positions above. -/
theorem exists_handle?_of_ancestorOf {s : Store} {r q : Position} {h : Handle}
    (hq : s.handle? q = some h) (hrq : r.ancestorOf (some q) = true) : ∃ n, s.handle? r = some n := by
  obtain ⟨path, rfl⟩ := Position.ancestorOf_iff.1 hrq
  rw [handle?_extend] at hq
  obtain ⟨n, hn, -⟩ := Option.bind_eq_some_iff.1 hq
  exact ⟨n, hn⟩

theorem mem_elements_of_push {s : Store} {r : Position} {slot : Slot} {p : Handle}
    (h : s.handle? (r.push slot) = some p) :
    ∃ n, s.handle? r = some n ∧ s.part? n slot = some p ∧ p ∈ s.elements n := by
  rw [handle?_push] at h
  obtain ⟨n, hn, hp⟩ := Option.bind_eq_some_iff.1 h
  exact ⟨n, hn, hp, mem_elements.2 ⟨slot, hp⟩⟩

/-! ## Up the links -/

namespace Sound

variable {s : Store} (hs : Sound s)

include hs

theorem alive_handle? {r : Position} {h : Handle} (hr : s.handle? r = some h) : s.alive h = true := by
  cases r using Position.push_induction with
  | root tree =>
    rw [handle?_root] at hr
    exact hs.linked.loose_alive h (List.mem_of_getElem? hr)
  | push r slot =>
    obtain ⟨n, -, -, hmem⟩ := mem_elements_of_push hr
    exact alive_of_parent? (hs.linked.parent n h hmem)

/-- The parent link of an element leads to the element at the parent of its position. -/
theorem parent?_handle? {r : Position} {h : Handle} (hr : s.handle? r = some h) :
    s.parent? h = r.parent?.bind s.handle? := by
  cases r using Position.push_induction with
  | root tree =>
    rw [handle?_root] at hr
    exact hs.free h (List.mem_of_getElem? hr)
  | push r slot =>
    obtain ⟨n, hn, -, hmem⟩ := mem_elements_of_push hr
    rw [hs.linked.parent n h hmem, Position.parent?_push, Option.bind_some, hn]

/-- No two positions lead to the same element. -/
theorem handle?_injective {r q : Position} {h : Handle} (hr : s.handle? r = some h)
    (hq : s.handle? q = some h) : r = q := by
  have hparent := (hs.parent?_handle? hr).symm.trans (hs.parent?_handle? hq)
  induction r using Position.push_induction generalizing q h with
  | root tree =>
    cases q using Position.push_induction with
    | root tree' =>
      rw [handle?_root] at hr hq
      obtain ⟨hlt, -⟩ := List.getElem?_eq_some_iff.1 hr
      rw [(List.getElem?_inj hlt hs.linked.loose_nodup).1 (hr.trans hq.symm)]
    | push q slot =>
      obtain ⟨n, hn, -⟩ := mem_elements_of_push hq
      simp [Position.parent?, hn] at hparent
  | push r slot ih =>
    obtain ⟨n, hn, hpart, hmem⟩ := mem_elements_of_push hr
    cases q using Position.push_induction with
    | root tree' => simp [Position.parent?, hn] at hparent
    | push q slot' =>
      obtain ⟨m, hm, hpart', -⟩ := mem_elements_of_push hq
      obtain rfl : n = m := by simpa [hn, hm] using hparent
      obtain rfl := ih hn hm ((hs.parent?_handle? hn).symm.trans (hs.parent?_handle? hm))
      obtain ⟨c, hc, hslot⟩ := Option.bind_eq_some_iff.1 hpart
      obtain ⟨c', hc', hslot'⟩ := Option.bind_eq_some_iff.1 hpart'
      obtain rfl : c = c' := Option.some.inj (hc.symm.trans hc')
      have hnodup := hs.linked.nodup n
      rw [elements_of_cell? hc] at hnodup
      rw [Shape.part?_injective hnodup hslot hslot']

/-- Every element is led to by exactly one position. -/
theorem position_unique {h : Handle} (ha : s.alive h = true) : ∃! r, s.handle? r = some h := by
  have hex : ∃ r, s.handle? r = some h := by
    refine hs.induction_up ?_ ?_ ha
    · intro r hr _
      obtain ⟨tree, htree⟩ := List.mem_iff_getElem?.1 hr
      exact ⟨⟨tree, []⟩, by rw [handle?_root, htree]⟩
    · rintro n p hp - ⟨r, hr⟩
      obtain ⟨slot, hslot⟩ := mem_elements.1 hp
      exact ⟨r.push slot, by rw [handle?_push, hr]; exact hslot⟩
  obtain ⟨r, hr⟩ := hex
  exact ⟨r, hr, fun q hq => hs.handle?_injective hq hr⟩

/-- The way up from an element ends at the root of its position. -/
theorem top_handle? {r : Position} {h : Handle} (hr : s.handle? r = some h) :
    s.top h = s.handle? r.top := by
  rw [Position.top_eq]
  induction r using Position.push_induction generalizing h with
  | root tree =>
    rw [hr]
    exact top_root (hs.alive_handle? hr) (hs.parent?_handle? hr)
  | push r slot ih =>
    obtain ⟨n, hn, -⟩ := mem_elements_of_push hr
    rw [top_up (p := n) (by rw [hs.parent?_handle? hr, Position.parent?_push, Option.bind_some, hn])]
    exact ih hn

/-- The search upwards for a node answers what positions say. -/
theorem contains_handle? {r q : Position} {n h : Handle} (hr : s.handle? r = some n)
    (hq : s.handle? q = some h) : s.contains n (some h) = some (r.contains (some q)) := by
  change s.meets n h = _
  induction q using Position.push_induction generalizing h with
  | root tree => exact meets_root (hs.alive_handle? hq) (hs.parent?_handle? hq)
  | push q slot ih =>
    obtain ⟨m, hm, -⟩ := mem_elements_of_push hq
    have hup : s.parent? h = some m := by
      rw [hs.parent?_handle? hq, Position.parent?_push, Option.bind_some, hm]
    rw [meets_up hup, Position.contains_push, Position.ancestorOf, ih hm]
    by_cases hmn : m = n
    · subst hmn
      obtain rfl := hs.handle?_injective hm hr
      simp
    · have hne : q ≠ r := by
        rintro rfl
        exact hmn (Option.some.inj (hm.symm.trans hr))
      simp [hmn, hne]

end Sound

end Store

end PatternTree
