import Mathlib
import PatternTree.Proofs.Tree.Addresses
import PatternTree.Proofs.Tree.Tokens

/-!
# Document order

A tree is gone through from its root, each element before its parts and the parts in the order of the
text (`preorder`); what comes earlier there precedes what comes later. The same order can be read off
two elements alone, without the tree around them: it is the lexicographic order of their paths
(`precedes_iff`), with the slots of a node in the order start, type, children, finish.

The steps that name the slots have an order of their own, and their methods are numbered differently.
Where no node has more than 2^32 children the two orders agree, and so do two addresses and their
paths (`nav_lt_iff`, `nav_prefix_iff`). With one child more, two children share an address
(`Crowded.nav_last`).
-/

namespace PatternTree

/-! ## The order of slots -/

namespace Slot

/-- The rank among the slots of a node, and the index among its children. -/
def key : Slot → Nat ×ₗ Nat
  | start => toLex (0, 0)
  | type => toLex (1, 0)
  | child i => toLex (2, i)
  | finish => toLex (3, 0)

theorem key_injective : Function.Injective key := by
  intro a b h
  cases a <;> cases b <;> simp_all [key]

/-- Start before type before the children in their order before finish. -/
instance : LinearOrder Slot := LinearOrder.lift' key key_injective

theorem lt_iff {a b : Slot} : a < b ↔ a.key < b.key := Iff.rfl

end Slot

namespace Element

theorem pairwise_childParts (i : Nat) (cs : List Element) :
    ((childParts i cs).map (·.1)).Pairwise (· < ·) := by
  induction cs generalizing i with
  | nil => exact .nil
  | cons c cs ih =>
    rw [childParts, List.map_cons, List.pairwise_cons]
    refine ⟨fun slot h => ?_, ih (i + 1)⟩
    obtain ⟨⟨slot, d⟩, hd, rfl⟩ := List.mem_map.1 h
    obtain ⟨j, rfl, -⟩ := mem_childParts.1 hd
    refine Slot.lt_iff.2 (Prod.Lex.toLex_lt_toLex.2 (Or.inr ⟨rfl, ?_⟩))
    show i < i + 1 + j
    omega

/-- The parts are listed in the order of their slots. -/
theorem pairwise_slots (e : Element) : (e.parts.map (·.1)).Pairwise (· < ·) := by
  have hc := pairwise_childParts 0 e.children
  have hs : ∀ slot ∈ (childParts 0 e.children).map (·.1), slot.isChild := fun _ => mem_map_fst_childParts
  simp only [parts, List.map_append, map_fst_delimiterPart]
  generalize (childParts 0 e.children).map (·.1) = slots at hc hs
  have hmiddle : ∀ slot ∈ slots, Slot.start < slot ∧ Slot.type < slot ∧ slot < Slot.finish := by
    intro slot h
    cases slot with
    | child i => simp [Slot.lt_iff, Slot.key, Prod.Lex.toLex_lt_toLex]
    | start => simpa [Slot.isChild] using hs _ h
    | type => simpa [Slot.isChild] using hs _ h
    | finish => simpa [Slot.isChild] using hs _ h
  have houter : Slot.start < Slot.type ∧ Slot.start < Slot.finish ∧ Slot.type < Slot.finish := by decide
  split <;> split <;> split <;> simp [List.pairwise_append] <;> grind

/-- Everything below an element is listed in the lexicographic order of its path. -/
theorem pairwise_paths (e : Element) : e.paths.Pairwise (· < ·) := by
  induction e using induction_parts with
  | h e ih =>
    rw [paths_eq, List.pairwise_cons, List.pairwise_flatMap]
    refine ⟨fun path hpath => ?_, fun p hp => ?_, ?_⟩
    · obtain ⟨p, -, hp⟩ := List.mem_flatMap.1 hpath
      obtain ⟨path, -, rfl⟩ := List.mem_map.1 hp
      exact List.Lex.nil
    · rw [List.pairwise_map]
      exact (ih p hp).imp fun h => List.Lex.cons h
    · refine (List.pairwise_map.1 e.pairwise_slots).imp fun h x hx y hy => ?_
      obtain ⟨p, -, rfl⟩ := List.mem_map.1 hx
      obtain ⟨q, -, rfl⟩ := List.mem_map.1 hy
      exact List.Lex.rel h

/-- The tokens are listed in the same order as everything else. -/
theorem tokenPaths_sublist (e : Element) : e.tokenPaths.Sublist e.paths := by
  induction e using induction_node with
  | token t =>
    rw [tokenPaths_eq, paths_eq]
    exact .cons_cons [] (List.nil_sublist _)
  | node e hnode ih =>
    rw [tokenPaths_of_isNode hnode, paths_eq]
    exact (List.Sublist.flatMap_right _ fun p hp => (ih p hp).map _).cons _

end Element

/-! ## Going through a tree -/

namespace Position

/-- What stands at or below these parts of the node at `r`, each element before its parts. -/
def below (r : Position) (parts : List (Slot × Element)) : List Position :=
  (parts.flatMap fun p => p.2.paths.map (p.1 :: ·)).map r.extend

theorem map_extend_paths (r : Position) (e : Element) :
    e.paths.map r.extend = r :: r.below e.parts := by
  rw [Element.paths_eq, List.map_cons, extend_nil, below]

theorem below_cons (r : Position) (slot : Slot) (e : Element) (parts : List (Slot × Element)) :
    r.below ((slot, e) :: parts) =
      r.push slot :: ((r.push slot).below e.parts ++ r.below parts) := by
  have hcons : (e.paths.map (slot :: ·)).map r.extend = e.paths.map (r.push slot).extend := by
    rw [List.map_map]
    exact List.map_congr_left fun path _ => r.extend_cons slot path
  rw [below, List.flatMap_cons, List.map_append, hcons, map_extend_paths, List.cons_append, ← below]

theorem mem_below {r q : Position} {parts : List (Slot × Element)} (h : q ∈ r.below parts) :
    ∃ p ∈ parts, (r.push p.1).ancestorOf (some q) = true := by
  obtain ⟨path, hpath, rfl⟩ := List.mem_map.1 h
  obtain ⟨p, hp, hpath⟩ := List.mem_flatMap.1 hpath
  obtain ⟨path, -, rfl⟩ := List.mem_map.1 hpath
  exact ⟨p, hp, ancestorOf_iff.2 ⟨path, r.extend_cons p.1 path⟩⟩

end Position

namespace Forest

/-- The element at a position and everything below it, each element before its parts. -/
def preorder (F : Forest) (r : Position) : List Position :=
  match F.get? r with
  | some e => e.paths.map r.extend
  | none => []

/-- When the tree is gone through from its root, `a` comes before `b`. -/
def Precedes (F : Forest) (a b : Position) : Prop := [a, b].Sublist (F.preorder ⟨a.tree, []⟩)

theorem preorder_of_get? {F : Forest} {r : Position} {e : Element} (he : F.get? r = some e) :
    F.preorder r = r :: r.below e.parts := by
  rw [preorder, he, ← Position.map_extend_paths]

/-- First the element, then what is met from each of its parts. -/
theorem preorder_eq {F : Forest} {r : Position} (hr : r ∈ F.positions) :
    F.preorder r = r :: (F.elements r).flatMap F.preorder := by
  obtain ⟨e, he⟩ := mem_positions.1 hr
  have hparts : ∀ p ∈ e.parts, F.get? (r.push p.1) = some p.2 := fun _ => get?_push_of_mem_parts he
  rw [preorder_of_get? he, elements, he]
  simp only [List.flatMap_map]
  congr 1
  generalize e.parts = parts at hparts
  induction parts with
  | nil => rfl
  | cons p parts ih =>
    obtain ⟨hp, hparts⟩ := List.forall_mem_cons.1 hparts
    rw [Position.below_cons, List.flatMap_cons, preorder_of_get? hp, List.cons_append, ih hparts]

theorem mem_preorder {F : Forest} {r q : Position} :
    q ∈ F.preorder r ↔ q ∈ F.positions ∧ r.ancestorOf (some q) = true := by
  rw [Position.ancestorOf_iff]
  constructor
  · intro h
    unfold preorder at h
    cases he : F.get? r with
    | none => simp [he] at h
    | some e =>
      rw [he] at h
      obtain ⟨path, hpath, rfl⟩ := List.mem_map.1 h
      refine ⟨mem_positions.2 (Option.isSome_iff_exists.1 ?_), path, rfl⟩
      rw [get?_extend, he, Option.bind_some]
      exact Element.mem_paths.1 hpath
  · rintro ⟨hq, path, rfl⟩
    obtain ⟨d, hd⟩ := mem_positions.1 hq
    rw [get?_extend] at hd
    obtain ⟨e, he, hd⟩ := Option.bind_eq_some_iff.1 hd
    rw [preorder, he]
    exact List.mem_map.2 ⟨path, Element.mem_paths.2 (Option.isSome_iff_exists.2 ⟨d, hd⟩), rfl⟩

theorem mem_elements_iff {F : Forest} {n q : Position} :
    q ∈ F.elements n ↔ q ∈ F.positions ∧ q.parent? = some n := by
  rw [Position.parent?_eq_some]
  unfold elements
  constructor
  · intro h
    cases he : F.get? n with
    | none => simp [he] at h
    | some e =>
      rw [he] at h
      obtain ⟨⟨slot, d⟩, hd, rfl⟩ := List.mem_map.1 h
      refine ⟨push_mem_positions.2 ⟨e, he, ?_⟩, slot, rfl⟩
      rw [Element.mem_parts.1 hd, Option.isSome_some]
  · rintro ⟨hq, slot, rfl⟩
    obtain ⟨e, he, hpart⟩ := push_mem_positions.1 hq
    obtain ⟨d, hd⟩ := Option.isSome_iff_exists.1 hpart
    rw [he]
    exact List.mem_map.2 ⟨(slot, d), Element.mem_parts.2 hd, rfl⟩

/-- What is met from a position on is met in the order of the paths. -/
theorem pairwise_preorder_path (F : Forest) (r : Position) :
    (F.preorder r).Pairwise fun a b => a.path < b.path := by
  unfold preorder
  cases F.get? r with
  | none => exact .nil
  | some e =>
    rw [List.pairwise_map]
    exact e.pairwise_paths.imp fun h => List.Lex.append_left _ h r.path

theorem nodup_preorder (F : Forest) (r : Position) : (F.preorder r).Nodup :=
  (F.pairwise_preorder_path r).imp fun h => by
    rintro rfl
    exact lt_irrefl _ h

/-- Below the parts of an element stands what it contains. -/
theorem mem_below_parts {F : Forest} {r q : Position} {e : Element} (he : F.get? r = some e) :
    q ∈ r.below e.parts ↔ q ∈ F.positions ∧ r.contains (some q) = true := by
  have hnodup := F.nodup_preorder r
  have hmem : q ∈ F.preorder r ↔ _ := mem_preorder
  rw [preorder_of_get? he] at hnodup hmem
  rw [List.mem_cons, Position.ancestorOf_iff_eq_or] at hmem
  by_cases hq : q = r
  · subst hq
    simp [(List.nodup_cons.1 hnodup).1, Position.contains_self]
  · simpa [hq] using hmem

theorem mem_preorder_root {F : Forest} {q : Position} (hq : q ∈ F.positions) :
    q ∈ F.preorder ⟨q.tree, []⟩ :=
  mem_preorder.2 ⟨hq, Position.ancestorOf_iff.2 ⟨q.path, rfl⟩⟩

/-- **Document order is the lexicographic order of paths.** -/
theorem precedes_iff {F : Forest} {a b : Position} (ha : a ∈ F.positions) (hb : b ∈ F.positions)
    (ht : a.tree = b.tree) : F.Precedes a b ↔ a.path < b.path := by
  have hsorted := F.pairwise_preorder_path ⟨a.tree, []⟩
  constructor
  · intro h
    simpa using hsorted.sublist h
  · intro h
    have hne : a ≠ b := by
      rintro rfl
      exact lt_irrefl _ h
    have hsub : [a, b] ⊆ F.preorder ⟨a.tree, []⟩ := by
      simpa using ⟨mem_preorder_root ha, ht ▸ mem_preorder_root hb⟩
    have hanti : Std.Antisymm fun p q : Position => p.path < q.path :=
      ⟨fun _ _ hpq hqp => absurd hqp (lt_asymm hpq)⟩
    -- two entries of a sorted list stand there in their order
    exact List.sublist_of_subperm_of_pairwise (List.subperm_of_subset (by simpa using hne) hsub)
      (by simpa using h) hsorted

/-- What follows from the order of paths in one tree holds all along what is met from a position on, also
if some of it is left out. -/
theorem pairwise_of_sublist {F : Forest} {r : Position} {R : Position → Position → Prop}
    {qs : List Position} (hqs : qs.Sublist (F.preorder r))
    (hR : ∀ a ∈ F.positions, ∀ b ∈ F.positions, a.tree = r.tree → b.tree = r.tree →
      a.path < b.path → R a b) : qs.Pairwise R := by
  refine ((F.pairwise_preorder_path r).sublist hqs).imp_of_mem fun {a b} ha hb h => ?_
  obtain ⟨haF, hra⟩ := mem_preorder.1 (hqs.subset ha)
  obtain ⟨hbF, hrb⟩ := mem_preorder.1 (hqs.subset hb)
  obtain ⟨hat, -⟩ := Position.ancestorOf_iff_path.1 hra
  obtain ⟨hbt, -⟩ := Position.ancestorOf_iff_path.1 hrb
  exact hR a haF b hbF hat.symm hbt.symm h

/-- What is met from a position on is met in document order. -/
theorem pairwise_precedes {F : Forest} {r : Position} {qs : List Position}
    (hqs : qs.Sublist (F.preorder r)) : qs.Pairwise F.Precedes := by
  refine pairwise_of_sublist hqs fun a ha b hb hat hbt h => ?_
  exact (precedes_iff ha hb (hat.trans hbt.symm)).2 h

theorem tokens_sublist (F : Forest) (r : Position) : (F.tokens r).Sublist (F.preorder r) := by
  unfold tokens preorder
  cases F.get? r with
  | none => exact .refl _
  | some e => exact e.tokenPaths_sublist.map r.extend

end Forest

/-! ## The order of steps -/

/-- The rank of a method among the steps from a node. Methods that lead nowhere come last. -/
def Method.rank : Method → Nat
  | start => 0
  | type => 1
  | child => 2
  | finish => 3
  | other code => 4 + code.toNat

theorem Method.rank_injective : Function.Injective Method.rank := by
  intro a b h
  cases a <;> cases b <;> simp_all [rank, UInt8.toNat_inj] <;> omega

namespace Step

/-- The rank of the method, and the index without its sign: one that counts from the end comes after all
that count from the front. -/
def key (s : Step) : Nat ×ₗ Nat := toLex (s.method.rank, s.index.toUInt32.toNat)

theorem key_injective : Function.Injective key := by
  rintro ⟨m, i⟩ ⟨n, j⟩ h
  obtain ⟨hm, hi⟩ := Prod.mk.inj (toLex.injective h)
  obtain rfl : m = n := Method.rank_injective hm
  obtain rfl : i = j := Int32.toBitVec_inj.1 (congrArg UInt32.toBitVec (UInt32.toNat_inj.1 hi))
  rfl

/-- Start before type before the children in their order before finish. -/
instance : LinearOrder Step := LinearOrder.lift' key key_injective

theorem lt_iff {s t : Step} : s < t ↔ s.key < t.key := Iff.rfl

end Step

namespace Slot

/-- The index is one of 2^32. -/
def Addressable (slot : Slot) : Prop := (ofLex slot.key).2 < 2 ^ 32

theorem key_step {slot : Slot} (h : slot.Addressable) : slot.step.key = slot.key := by
  cases slot with
  | child i =>
    have hindex : (Int32.ofNat i).toUInt32.toNat = i % 2 ^ 32 := rfl
    have hlt : i < 2 ^ 32 := h
    rw [step, Step.key, hindex, Nat.mod_eq_of_lt hlt]
    rfl
  | start => rfl
  | type => rfl
  | finish => rfl

theorem step_lt_step {a b : Slot} (ha : a.Addressable) (hb : b.Addressable) :
    a.step < b.step ↔ a < b := by
  rw [Step.lt_iff, key_step ha, key_step hb, lt_iff]

theorem step_inj {a b : Slot} (ha : a.Addressable) (hb : b.Addressable) :
    a.step = b.step ↔ a = b := by
  rw [← Step.key_injective.eq_iff, key_step ha, key_step hb, key_injective.eq_iff]

/-- The steps along two paths compare as the paths do. -/
theorem map_step_lt {p q : Path} (hp : ∀ slot ∈ p, slot.Addressable)
    (hq : ∀ slot ∈ q, slot.Addressable) : p.map step < q.map step ↔ p < q := by
  induction p generalizing q with
  | nil => cases q <;> simp
  | cons a p ih =>
    cases q with
    | nil => simp
    | cons b q =>
      obtain ⟨ha, hp⟩ := List.forall_mem_cons.1 hp
      obtain ⟨hb, hq⟩ := List.forall_mem_cons.1 hq
      rw [List.map_cons, List.map_cons, List.cons_lt_cons_iff, List.cons_lt_cons_iff,
        step_lt_step ha hb, step_inj ha hb, ih hp hq]

/-- The steps along a path begin those along another just if the path begins the other. -/
theorem map_step_prefix {p q : Path} (hp : ∀ slot ∈ p, slot.Addressable)
    (hq : ∀ slot ∈ q, slot.Addressable) : p.map step <+: q.map step ↔ p <+: q := by
  induction p generalizing q with
  | nil => simp
  | cons a p ih =>
    cases q with
    | nil => simp
    | cons b q =>
      obtain ⟨ha, hp⟩ := List.forall_mem_cons.1 hp
      obtain ⟨hb, hq⟩ := List.forall_mem_cons.1 hq
      rw [List.map_cons, List.map_cons, List.cons_prefix_cons, List.cons_prefix_cons,
        step_inj ha hb, ih hp hq]

end Slot

namespace Forest

/-! ## Addresses in order -/

/-- No node of the tree has more children than there are indices. -/
def Addressed (F : Forest) (tree : Nat) : Prop :=
  ∀ r ∈ F.positions, r.tree = tree → (F.children r).length ≤ 2 ^ 32

theorem Addressed.addressable {F : Forest} {q : Position} (hF : F.Addressed q.tree)
    (hq : q ∈ F.positions) : ∀ slot ∈ q.path, slot.Addressable := by
  induction q using Position.push_induction with
  | root tree => simp
  | push r slot ih =>
    have hr := mem_positions_of_ancestorOf hq (Position.ancestorOf_push r slot)
    intro a ha
    rcases List.mem_append.1 ha with ha | ha
    · exact ih hF hr a ha
    · obtain rfl := List.mem_singleton.1 ha
      cases a with
      | child i =>
        obtain ⟨e, he, hpart⟩ := push_mem_positions.1 hq
        have hlt : i < e.children.length := by simpa [Element.part?] using hpart
        have hle := hF r hr rfl
        rw [length_children he] at hle
        exact Nat.lt_of_lt_of_le hlt hle
      | start => exact Nat.two_pow_pos 32
      | type => exact Nat.two_pow_pos 32
      | finish => exact Nat.two_pow_pos 32

/-- Addresses compare as the paths do. -/
theorem nav_lt_iff {F : Forest} {a b : Position} (hF : F.Addressed a.tree) (ha : a ∈ F.positions)
    (hb : b ∈ F.positions) (ht : a.tree = b.tree) : F.nav a < F.nav b ↔ a.path < b.path := by
  rw [nav_eq ha, nav_eq hb]
  exact Slot.map_step_lt (hF.addressable ha) ((ht ▸ hF : F.Addressed b.tree).addressable hb)

/-- An address begins another just if the path begins the other path. -/
theorem nav_prefix_iff {F : Forest} {a b : Position} (hF : F.Addressed a.tree) (ha : a ∈ F.positions)
    (hb : b ∈ F.positions) (ht : a.tree = b.tree) : F.nav a <+: F.nav b ↔ a.path <+: b.path := by
  rw [nav_eq ha, nav_eq hb]
  exact Slot.map_step_prefix (hF.addressable ha) ((ht ▸ hF : F.Addressed b.tree).addressable hb)

/-! ## More children than indices -/

theorem child_mem_positions {F : Forest} {r : Position} {i : Nat} (h : i < (F.children r).length) :
    r.push (.child i) ∈ F.positions := by
  cases he : F.get? r with
  | none => simp [children, he] at h
  | some e =>
    rw [length_children he] at h
    exact push_mem_positions.2 ⟨e, he, by simpa [Element.part?] using h⟩

/-- From 2^32 on indices start again, and so do the addresses of the children. -/
theorem nav_child_add {F : Forest} {r : Position} {i : Nat}
    (h : i + 2 ^ 32 < (F.children r).length) :
    F.nav (r.push (.child (i + 2 ^ 32))) = F.nav (r.push (.child i)) := by
  have hindex : Int32.ofNat (i + 2 ^ 32) = Int32.ofNat i := by simp
  rw [nav_eq (child_mem_positions h), nav_eq (child_mem_positions (by omega))]
  simp only [Position.nav, Position.path_push, List.map_append, List.map_singleton, Slot.step, hindex]

/-- The node has more children than there are indices. -/
def Crowded (F : Forest) (r : Position) : Prop := 2 ^ 32 < (F.children r).length

theorem not_addressed_iff {F : Forest} {tree : Nat} :
    ¬ F.Addressed tree ↔ ∃ r ∈ F.positions, r.tree = tree ∧ F.Crowded r := by
  unfold Addressed Crowded
  push Not
  rfl

namespace Crowded

variable {F : Forest} {r : Position} (h : F.Crowded r)

include h

theorem first_mem : r.push (.child 0) ∈ F.positions :=
  child_mem_positions (Nat.lt_of_le_of_lt (Nat.zero_le _) h)

theorem last_mem : r.push (.child (2 ^ 32)) ∈ F.positions := child_mem_positions h

/-- The first child and the one whose index would be 2^32 have the same address. -/
theorem nav_last : F.nav (r.push (.child (2 ^ 32))) = F.nav (r.push (.child 0)) := by
  have hadd := nav_child_add (F := F) (r := r) (i := 0) (by rw [Nat.zero_add]; exact h)
  rwa [Nat.zero_add] at hadd

/-- They are two elements, and one of them comes first. -/
theorem precedes : F.Precedes (r.push (.child 0)) (r.push (.child (2 ^ 32))) := by
  have hslots : Slot.child 0 < Slot.child (2 ^ 32) := by
    rw [Slot.lt_iff]
    exact Prod.Lex.toLex_lt_toLex.2 (Or.inr ⟨rfl, Nat.two_pow_pos 32⟩)
  refine (precedes_iff h.first_mem h.last_mem rfl).2 ?_
  exact List.Lex.append_left _ (List.Lex.rel hslots) r.path

theorem first_ne_last : r.push (.child 0) ≠ r.push (.child (2 ^ 32)) := by
  intro heq
  have hlt := (precedes_iff h.first_mem h.last_mem rfl).1 h.precedes
  rw [heq] at hlt
  exact lt_irrefl _ hlt

/-- A list that holds both is not in ascending order of addresses. -/
theorem not_ascending {qs : List Position} (hfirst : r.push (.child 0) ∈ qs)
    (hlast : r.push (.child (2 ^ 32)) ∈ qs) : ¬ (qs.map F.nav).Pairwise (· < ·) := by
  intro hascending
  have hnodup : (qs.map F.nav).Nodup := hascending.imp fun hlt => ne_of_lt hlt
  exact h.first_ne_last (List.inj_on_of_nodup_map hnodup hfirst hlast h.nav_last.symm)

end Crowded

/-- The child of a crowd. -/
def crowdToken : Token := ⟨.literal, "", Version.minimum, none⟩

/-- A forest of one node, which has `n` children. -/
def crowd (n : Nat) : Forest := ⟨[.node (List.replicate n (.token crowdToken))]⟩

theorem get?_crowd (n : Nat) :
    (crowd n).get? ⟨0, []⟩ = some (.node (List.replicate n (.token crowdToken))) := rfl

theorem get?_crowd_child {n i : Nat} (h : i < n) :
    (crowd n).get? ⟨0, [.child i]⟩ = some (.token crowdToken) := by
  refine (get?_push (crowd n) ⟨0, []⟩ (.child i)).trans ?_
  rw [get?_crowd, Option.bind_some]
  simp [Element.part?, Element.children, h]

theorem crowd_crowded : (crowd (2 ^ 32 + 1)).Crowded ⟨0, []⟩ := by
  unfold Crowded
  rw [length_children (get?_crowd _)]
  simp only [Element.children, List.length_replicate]
  omega

end Forest

end PatternTree
