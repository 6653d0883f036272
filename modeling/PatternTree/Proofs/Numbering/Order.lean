import Mathlib.Data.List.Basic
import Mathlib.Logic.Relation
import PatternTree.Numbering
import PatternTree.Proofs.Tree.Positions

/-!
# The order of a numbering pass

What a pass goes through is the element, then its children one after the other, each with its own
children below it, and never a delimiter. `childOrder` is that order (`childOrder_eq`), and it lists
exactly what is reached through children (`mem_childOrder`). A pass numbers the captures in
this order without a gap and ends with the number after the last one (`pass_numbers`).
-/

namespace PatternTree

namespace Element

theorem map_fst_childParts (i : Nat) (cs : List Element) :
    (childParts i cs).map (·.1) = (List.range' i cs.length).map .child := by
  induction cs generalizing i with
  | nil => rfl
  | cons c cs ih => rw [childParts, List.map_cons, ih, List.length_cons, List.range'_succ, List.map_cons]

/-- The paths of the element itself and of what is reached from it through children only: first the
element, then each child with what is reached from it. -/
def childPaths : Element → List Path :=
  fold fun _ subs => [] :: (subs.filter (·.1.isChild)).flatMap fun p => p.2.2.map (p.1 :: ·)

theorem childPaths_eq (e : Element) :
    e.childPaths = [] :: (childParts 0 e.children).flatMap fun p => p.2.childPaths.map (p.1 :: ·) := by
  rw [childPaths, fold_eq, ← filter_parts]
  simp [List.filter_map, List.flatMap_map, Function.comp_def]

end Element

namespace Forest

/-! ## What is reached through children -/

/-- The position is `r` or is reached from it by going from node to child. -/
def Reaches (F : Forest) : Position → Position → Prop :=
  Relation.ReflTransGen fun r q => q ∈ F.children r

/-- The elements that are reached from `r` through children, each before its own children. -/
def childOrder (F : Forest) (r : Position) : List Position :=
  match F.get? r with
  | some e => e.childPaths.map r.extend
  | none => []

theorem children_eq {F : Forest} {r : Position} {e : Element} (h : F.get? r = some e) :
    F.children r = (Element.childParts 0 e.children).map fun p => r.push p.1 := by
  have hmap := congrArg (List.map r.push) (Element.map_fst_childParts 0 e.children)
  simp only [List.map_map] at hmap
  simp only [children, h, List.range_eq_range']
  exact hmap.symm

theorem childOrder_of_get? {F : Forest} {r : Position} {e : Element} (h : F.get? r = some e) :
    F.childOrder r = e.childPaths.map r.extend := by
  simp [childOrder, h]

theorem get?_push_of_mem_childParts {F : Forest} {r : Position} {e : Element} {p : Slot × Element}
    (h : F.get? r = some e) (hp : p ∈ Element.childParts 0 e.children) :
    F.get? (r.push p.1) = some p.2 := by
  rw [get?_push, h]
  exact Element.mem_parts.1 (Element.mem_parts_of_mem_childParts hp)

/-- The element, then its children with what is reached from each. -/
theorem childOrder_eq {F : Forest} {r : Position} (hr : r ∈ F.positions) :
    F.childOrder r = r :: (F.children r).flatMap F.childOrder := by
  obtain ⟨e, he⟩ := mem_positions.1 hr
  rw [childOrder_of_get? he, children_eq he, Element.childPaths_eq]
  simp only [List.map_cons, Position.extend_nil, List.map_flatMap, List.flatMap_map, List.map_map]
  congr 1
  refine List.flatMap_congr fun p hp => ?_
  rw [childOrder_of_get? (get?_push_of_mem_childParts he hp)]
  simp [Function.comp_def, Position.extend_cons]

theorem childOrder_eq_nil {F : Forest} {r : Position} (hr : r ∉ F.positions) : F.childOrder r = [] := by
  have hn : F.get? r = none := by
    rw [Option.eq_none_iff_forall_ne_some]
    exact fun e he => hr (mem_positions.2 ⟨e, he⟩)
  simp [childOrder, hn]

theorem mem_positions_of_mem_children {F : Forest} {r q : Position} (h : q ∈ F.children r) :
    r ∈ F.positions ∧ q ∈ F.positions := by
  obtain ⟨e, i, he, hi, rfl⟩ := mem_children.1 h
  exact ⟨mem_positions.2 ⟨e, he⟩, push_mem_positions.2 ⟨e, he, by simp [Element.part?, hi]⟩⟩

/-- The elements of the order are those that are reached through children. -/
theorem mem_childOrder {F : Forest} {r c : Position} (hc : c ∈ F.positions) :
    c ∈ F.childOrder r ↔ F.Reaches r c := by
  constructor
  · intro h
    by_cases hr : r ∈ F.positions
    · obtain ⟨e, he⟩ := mem_positions.1 hr
      induction e using Element.induction_parts generalizing r with
      | h e ih =>
        rw [childOrder_eq hr, List.mem_cons, List.mem_flatMap] at h
        rcases h with rfl | ⟨q, hq, h⟩
        · exact .refl
        · rw [children_eq he] at hq
          obtain ⟨p, hp, rfl⟩ := List.mem_map.1 hq
          have hget := get?_push_of_mem_childParts he hp
          have hreach := ih p (Element.mem_parts_of_mem_childParts hp) h (mem_positions.2 ⟨_, hget⟩) hget
          exact .head (by rwa [children_eq he]) hreach
    · rw [childOrder_eq_nil hr] at h
      cases h
  · intro h
    induction h using Relation.ReflTransGen.head_induction_on with
    | refl =>
      rw [childOrder_eq hc]
      exact List.mem_cons_self
    | head hq _ ih =>
      rw [childOrder_eq (mem_positions_of_mem_children hq).1]
      exact List.mem_cons_of_mem _ (List.mem_flatMap.2 ⟨_, hq, ih⟩)

/-! ## Captures in that order -/

/-- Whether a capture stands at the position. -/
def isCapture (F : Forest) (r : Position) : Bool := (F.get? r).any fun e => e.captureForm?.isSome

theorem mem_positions_of_isCapture {F : Forest} {r : Position} (h : F.isCapture r = true) :
    r ∈ F.positions := by
  cases hr : F.get? r with
  | none => simp [isCapture, hr] at h
  | some e => exact mem_positions.2 ⟨e, hr⟩

/-- The captures that a pass over `r` reaches, in order. -/
def captures (F : Forest) (r : Position) : List Position := (F.childOrder r).filter F.isCapture

theorem captures_eq {F : Forest} {r : Position} {e : Element} (h : F.get? r = some e) :
    F.captures r = (if e.captureForm?.isSome then [r] else []) ++
      (Element.childParts 0 e.children).flatMap fun p => F.captures (r.push p.1) := by
  have hr : F.isCapture r = e.captureForm?.isSome := by simp [isCapture, h]
  rw [captures, childOrder_eq (mem_positions.2 ⟨e, h⟩), children_eq h, List.filter_cons, hr,
    List.flatMap_map, List.filter_flatMap]
  split <;> rfl

end Forest

/-! ## Numbers -/

namespace Numbering

/-- Numbers in a row for positions in a row. -/
def numbered (n : UInt32) : List Position → List (Position × UInt32)
  | [] => []
  | r :: rs => (r, n) :: numbered (n + 1) rs

theorem add_one_add_ofNat (n : UInt32) (k : Nat) : n + 1 + UInt32.ofNat k = n + UInt32.ofNat (k + 1) := by
  rw [UInt32.ofNat_add, UInt32.add_assoc, UInt32.add_comm 1]
  rfl

theorem numbered_append (n : UInt32) (l m : List Position) :
    numbered n (l ++ m) = numbered n l ++ numbered (n + UInt32.ofNat l.length) m := by
  induction l generalizing n with
  | nil => simp [numbered]
  | cons r l ih => rw [List.cons_append, numbered, numbered, ih, add_one_add_ofNat, List.length_cons,
      List.cons_append]

/-- A number from the list, if the position is in it, by the place of the position. -/
theorem lookup_numbered (n : UInt32) (l : List Position) (r : Position) :
    (numbered n l).lookup r = if r ∈ l then some (n + UInt32.ofNat (l.idxOf r)) else none := by
  induction l generalizing n with
  | nil => simp [numbered]
  | cons q l ih =>
    rw [numbered]
    by_cases h : r = q
    · subst h
      simp
    · have hrq : (r == q) = false := beq_false_of_ne h
      have hqr : (q == r) = false := beq_false_of_ne (Ne.symm h)
      rw [List.lookup_cons, hrq, ih]
      simp only [List.mem_cons, h, false_or, List.idxOf_cons, hqr, cond_false, add_one_add_ofNat]

/-- The pass gave the positions the numbers from `n` on, and comes to the number after the last. -/
structure Numbers (p : Pass) (n : UInt32) (rs : List Position) : Prop where
  assigned : p.assigned = numbered n rs
  next : p.next = n + UInt32.ofNat rs.length

variable (options : Options)

theorem passParts_numbers (here : Position) (captures : Position → List Position)
    (subs : List (Slot × Element × (Position → UInt32 → Pass)))
    (h : ∀ p ∈ subs, ∀ n, Numbers (p.2.2 (here.push p.1) n) n (captures (here.push p.1))) (n : UInt32) :
    Numbers (passParts here subs n) n (subs.flatMap fun p => captures (here.push p.1)) := by
  induction subs generalizing n with
  | nil => exact ⟨rfl, by simp [passParts]⟩
  | cons p rest ih =>
    obtain ⟨slot, e, below⟩ := p
    have hfirst := h _ List.mem_cons_self n
    have htail := ih (fun p hp => h p (List.mem_cons_of_mem _ hp)) (below (here.push slot) n).next
    refine ⟨?_, ?_⟩
    · rw [passParts, List.flatMap_cons, numbered_append, ← hfirst.next, ← hfirst.assigned,
        ← htail.assigned]
    · rw [passParts, List.flatMap_cons, List.length_append, UInt32.ofNat_add, ← UInt32.add_assoc,
        ← hfirst.next]
      exact htail.next

/-- A pass numbers the captures that it reaches, in order and without a gap. -/
theorem pass_numbers {F : Forest} {e : Element} {r : Position} (h : F.get? r = some e) (n : UInt32) :
    Numbers (pass options e r n) n (F.captures r) := by
  induction e using Element.induction_parts generalizing r n with
  | h e ih =>
    rw [pass_eq, Element.filter_parts, Forest.captures_eq h]
    have hbelow := passParts_numbers r F.captures
      ((Element.childParts 0 e.children).map fun p => (p.1, p.2, pass options p.2)) (by
        intro p hp n
        obtain ⟨q, hq, rfl⟩ := List.mem_map.1 hp
        exact ih q (Element.mem_parts_of_mem_childParts hq) (Forest.get?_push_of_mem_childParts h hq) n)
    simp only [List.flatMap_map] at hbelow
    unfold passNode
    cases e.captureForm? with
    | none => exact hbelow n
    | some form =>
      refine ⟨?_, ?_⟩
      · simp only [Option.isSome_some, if_true, List.singleton_append, numbered]
        rw [(hbelow (n + 1)).assigned]
      · simp only [Option.isSome_some, if_true, List.singleton_append, List.length_cons]
        rw [(hbelow (n + 1)).next, add_one_add_ofNat]

end Numbering

end PatternTree
