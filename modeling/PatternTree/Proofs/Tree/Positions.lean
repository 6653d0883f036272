import Mathlib.Data.List.Induction
import PatternTree.Forest
import PatternTree.Proofs.Tree.Parts

/-!
# Positions above and below each other

Ancestors are found by going from parent to parent. Read from above, the positions at or below `r`
are those whose path extends the path of `r` (`ancestorOf_iff`), and the ones that `r` contains
extend it by at least one slot (`contains_iff`). Two parts of one node have nothing in common below
them (`eq_of_ancestorOf_push`): this is what keeps the searches of two parts apart.
-/

namespace PatternTree

namespace Position

/-- The position reached from `r` by going further down. -/
def extend (r : Position) (path : Path) : Position := { r with path := r.path ++ path }

@[simp]
theorem extend_nil (r : Position) : r.extend [] = r := by
  simp [extend]

@[simp]
theorem extend_extend (r : Position) (p q : Path) : (r.extend p).extend q = r.extend (p ++ q) := by
  simp [extend]

theorem extend_cons (r : Position) (slot : Slot) (path : Path) :
    r.extend (slot :: path) = (r.push slot).extend path := by
  simp [extend, push]

theorem extend_concat (r : Position) (path : Path) (slot : Slot) :
    r.extend (path ++ [slot]) = (r.extend path).push slot := by
  simp [extend, push]

theorem extend_injective {r : Position} {p q : Path} (h : r.extend p = r.extend q) : p = q := by
  simpa [extend] using h

theorem push_eq_extend (r : Position) (slot : Slot) : r.push slot = r.extend [slot] := rfl

theorem push_injective {r q : Position} {a b : Slot} (h : r.push a = q.push b) : r = q ∧ a = b := by
  obtain ⟨t, p⟩ := r
  obtain ⟨u, p'⟩ := q
  simp only [push, Position.mk.injEq] at h
  obtain ⟨rfl, hp⟩ := h
  obtain ⟨rfl, hs⟩ := List.append_inj' hp rfl
  exact ⟨rfl, List.singleton_inj.1 hs⟩

/-- Every position is a root or a part of another one. -/
@[elab_as_elim]
theorem push_induction {P : Position → Prop} (root : ∀ tree, P ⟨tree, []⟩)
    (push : ∀ r slot, P r → P (r.push slot)) (r : Position) : P r := by
  obtain ⟨tree, path⟩ := r
  induction path using List.reverseRecOn with
  | nil => exact root tree
  | append_singleton path slot ih => exact push ⟨tree, path⟩ slot ih

theorem parent?_eq_some {r q : Position} : q.parent? = some r ↔ ∃ slot, q = r.push slot := by
  constructor
  · intro h
    cases q using push_induction with
    | root tree => simp [parent?] at h
    | push q slot =>
      rw [parent?_push] at h
      exact ⟨slot, by rw [Option.some.inj h]⟩
  · rintro ⟨slot, rfl⟩
    exact parent?_push r slot

/-! ## Ancestors -/

@[simp]
theorem ancestors_root (tree : Nat) : (⟨tree, []⟩ : Position).ancestors = [] := rfl

@[simp]
theorem ancestors_push (r : Position) (slot : Slot) :
    (r.push slot).ancestors = r :: r.ancestors := by
  rw [ancestors, path_push, List.length_append, List.length_singleton, climb, parent?_push]
  rfl

theorem top_eq (r : Position) : r.top = ⟨r.tree, []⟩ := by
  induction r using push_induction with
  | root tree => rfl
  | push r slot ih =>
    rw [top, ancestors_push, List.getLastD_cons]
    exact ih

@[simp]
theorem contains_root (r : Position) (tree : Nat) : r.contains (some ⟨tree, []⟩) = false := rfl

/-- To contain a part is to be the node that holds it or to contain that node. -/
@[simp]
theorem contains_push (r q : Position) (slot : Slot) :
    r.contains (some (q.push slot)) = r.ancestorOf (some q) := by
  simp only [contains, ancestorOf, ancestors_push, List.contains_cons]
  rw [BEq.comm]

theorem ancestorOf_iff_eq_or {r q : Position} :
    r.ancestorOf (some q) = true ↔ q = r ∨ r.contains (some q) = true := by
  rw [ancestorOf, Bool.or_eq_true, beq_iff_eq]

/-- The positions at or below `r` are those that extend it. -/
theorem ancestorOf_iff {r q : Position} :
    r.ancestorOf (some q) = true ↔ ∃ path, q = r.extend path := by
  induction q using push_induction with
  | root tree =>
    simp only [ancestorOf, contains_root, Bool.or_false, beq_iff_eq]
    constructor
    · intro h
      exact ⟨[], by simp [h]⟩
    · rintro ⟨path, h⟩
      obtain ⟨u, p⟩ := r
      simp only [extend, Position.mk.injEq] at h
      obtain ⟨rfl, h⟩ := h
      obtain ⟨rfl, -⟩ := List.append_eq_nil_iff.1 h.symm
      rfl
  | push q slot ih =>
    rw [ancestorOf_iff_eq_or, contains_push, ih]
    constructor
    · rintro (h | ⟨path, rfl⟩)
      · exact ⟨[], by simp [h]⟩
      · exact ⟨path ++ [slot], (extend_concat r path slot).symm⟩
    · rintro ⟨path, h⟩
      induction path using List.reverseRecOn with
      | nil => exact Or.inl (by simpa using h)
      | append_singleton path a _ =>
        rw [extend_concat] at h
        exact Or.inr ⟨path, (push_injective h).1⟩

/-- What `r` contains extends it by one slot at least. -/
theorem contains_iff {r q : Position} :
    r.contains (some q) = true ↔ ∃ slot path, q = (r.push slot).extend path := by
  induction q using push_induction with
  | root tree => simp [extend]
  | push q slot =>
    rw [contains_push, ancestorOf_iff]
    constructor
    · rintro ⟨path, rfl⟩
      cases path with
      | nil => exact ⟨slot, [], by simp⟩
      | cons a path => exact ⟨a, path ++ [slot], by rw [extend_concat, extend_cons]⟩
    · rintro ⟨a, path, h⟩
      induction path using List.reverseRecOn with
      | nil => exact ⟨[], by rw [extend_nil] at h ⊢; exact (push_injective h).1⟩
      | append_singleton path b _ =>
        rw [extend_concat] at h
        exact ⟨a :: path, by rw [extend_cons]; exact (push_injective h).1⟩

@[simp]
theorem ancestorOf_self (r : Position) : r.ancestorOf (some r) = true := by
  simp [ancestorOf]

theorem ancestorOf_trans {a b c : Position} (h : a.ancestorOf (some b) = true)
    (h' : b.ancestorOf (some c) = true) : a.ancestorOf (some c) = true := by
  obtain ⟨p, rfl⟩ := ancestorOf_iff.1 h
  obtain ⟨q, rfl⟩ := ancestorOf_iff.1 h'
  exact ancestorOf_iff.2 ⟨p ++ q, extend_extend a p q⟩

theorem ancestorOf_of_contains {r q : Position} (h : r.contains (some q) = true) :
    r.ancestorOf (some q) = true :=
  ancestorOf_iff_eq_or.2 (Or.inr h)

theorem ancestorOf_push (r : Position) (slot : Slot) : r.ancestorOf (some (r.push slot)) = true :=
  ancestorOf_iff.2 ⟨[slot], rfl⟩

/-- An element is not below its own parts. -/
theorem not_ancestorOf_push (r : Position) (slot : Slot) :
    (r.push slot).ancestorOf (some r) = false := by
  rw [Bool.eq_false_iff]
  intro h
  obtain ⟨path, hp⟩ := ancestorOf_iff.1 h
  have := congrArg (fun q => q.path.length) hp
  simp [extend] at this

/-- Nothing is above what contains it. -/
theorem not_ancestorOf_of_contains {r q : Position} (h : r.contains (some q) = true) :
    q.ancestorOf (some r) = false := by
  rw [Bool.eq_false_iff]
  intro hq
  obtain ⟨slot, path, hp⟩ := contains_iff.1 h
  have hslot : (r.push slot).ancestorOf (some q) = true := ancestorOf_iff.2 ⟨path, hp⟩
  have := ancestorOf_trans hslot hq
  rw [not_ancestorOf_push] at this
  cases this

theorem contains_self (r : Position) : r.contains (some r) = false := by
  rw [Bool.eq_false_iff]
  intro h
  obtain ⟨slot, path, hp⟩ := contains_iff.1 h
  have := congrArg (fun q => q.path.length) hp
  simp [extend] at this

theorem ancestorOf_antisymm {a b : Position} (h : a.ancestorOf (some b) = true)
    (h' : b.ancestorOf (some a) = true) : a = b := by
  rcases ancestorOf_iff_eq_or.1 h with h | h
  · exact h.symm
  · rw [not_ancestorOf_of_contains h] at h'
    cases h'

theorem ancestorOf_iff_path {a b : Position} :
    a.ancestorOf (some b) = true ↔ a.tree = b.tree ∧ a.path <+: b.path := by
  rw [ancestorOf_iff]
  constructor
  · rintro ⟨path, rfl⟩
    exact ⟨rfl, path, rfl⟩
  · rintro ⟨ht, path, hp⟩
    exact ⟨path, by rw [extend, ht, hp]⟩

/-- Of two positions above a third one, one is above the other. -/
theorem ancestorOf_or_ancestorOf {a b c : Position} (ha : a.ancestorOf (some c) = true)
    (hb : b.ancestorOf (some c) = true) :
    a.ancestorOf (some b) = true ∨ b.ancestorOf (some a) = true := by
  simp only [ancestorOf_iff_path] at ha hb ⊢
  rcases List.prefix_or_prefix_of_prefix ha.2 hb.2 with h | h
  · exact Or.inl ⟨ha.1.trans hb.1.symm, h⟩
  · exact Or.inr ⟨hb.1.trans ha.1.symm, h⟩

/-- Nothing is at or below two different parts of one node. -/
theorem eq_of_ancestorOf_push {r q : Position} {a b : Slot}
    (ha : (r.push a).ancestorOf (some q) = true) (hb : (r.push b).ancestorOf (some q) = true) :
    a = b := by
  obtain ⟨p, rfl⟩ := ancestorOf_iff.1 ha
  obtain ⟨p', h⟩ := ancestorOf_iff.1 hb
  rw [← extend_cons, ← extend_cons] at h
  exact (List.cons.inj (extend_injective h)).1

end Position

namespace Forest

/-! ## Elements of a forest -/

theorem get?_extend (F : Forest) (r : Position) (path : Path) :
    F.get? (r.extend path) = (F.get? r).bind fun e => e.get? path := by
  simp only [get?, Position.extend]
  cases F.trees[r.tree]? with
  | none => rfl
  | some e => exact Element.get?_append e r.path path

theorem get?_push (F : Forest) (r : Position) (slot : Slot) :
    F.get? (r.push slot) = (F.get? r).bind fun e => e.part? slot := by
  rw [Position.push_eq_extend, get?_extend]
  cases F.get? r with
  | none => rfl
  | some e => simp [Element.get?_cons, Element.get?_nil]

theorem get?_push_of_mem_parts {F : Forest} {r : Position} {e : Element} (he : F.get? r = some e)
    {p : Slot × Element} (hp : p ∈ e.parts) : F.get? (r.push p.1) = some p.2 := by
  rw [get?_push, he, Option.bind_some, Element.mem_parts.1 hp]

/-- The positions of a forest are those at which something stands. -/
theorem mem_positions {F : Forest} {r : Position} : r ∈ F.positions ↔ ∃ e, F.get? r = some e := by
  obtain ⟨tree, path⟩ := r
  rw [← Option.isSome_iff_exists]
  simp only [positions, List.mem_flatMap, List.mem_map, Position.mk.injEq, get?]
  constructor
  · rintro ⟨⟨e, i⟩, he, p, hp, rfl, rfl⟩
    rw [List.mem_zipIdx_iff_getElem?.1 he]
    exact Element.mem_paths.1 hp
  · intro h
    obtain ⟨e, he⟩ := Option.isSome_iff_exists.1 (Option.isSome_of_isSome_bind h)
    rw [he] at h
    exact ⟨(e, tree), List.mem_zipIdx_iff_getElem?.2 he, path, Element.mem_paths.2 h, rfl, rfl⟩

theorem push_mem_positions {F : Forest} {r : Position} {slot : Slot} :
    r.push slot ∈ F.positions ↔ ∃ e, F.get? r = some e ∧ (e.part? slot).isSome := by
  rw [mem_positions, get?_push]
  cases F.get? r with
  | none => simp
  | some e => simp [Option.isSome_iff_exists]

theorem mem_positions_of_ancestorOf {F : Forest} {r q : Position} (hq : q ∈ F.positions)
    (h : r.ancestorOf (some q) = true) : r ∈ F.positions := by
  obtain ⟨path, rfl⟩ := Position.ancestorOf_iff.1 h
  obtain ⟨d, hd⟩ := mem_positions.1 hq
  rw [get?_extend] at hd
  obtain ⟨e, he, -⟩ := Option.bind_eq_some_iff.1 hd
  exact mem_positions.2 ⟨e, he⟩

theorem mem_children {F : Forest} {r q : Position} :
    q ∈ F.children r ↔ ∃ e i, F.get? r = some e ∧ i < e.children.length ∧ q = r.push (.child i) := by
  unfold children
  cases F.get? r with
  | none => simp
  | some e => simp [eq_comm]

theorem length_children {F : Forest} {r : Position} {e : Element} (h : F.get? r = some e) :
    (F.children r).length = e.children.length := by
  simp [children, h]

/-- Two trees. The first one holds a capture with all three delimiters, whose type is a capture
itself and whose second child is a named capture; the other one is a token. -/
def sample : Forest :=
  let literal (content : String) : Element := .token ⟨.literal, content, Version.minimum, none⟩
  ⟨[.node
      [.group .capture (some (literal "(")) (some (.group .capture none none [] none))
        [literal "a", .group (.named "n") none none [literal "b"] none] (some (literal ")")),
        literal "c"],
    literal "d"]⟩

end Forest

end PatternTree
