import Mathlib
import PatternTree.Proofs.Search.Results
import PatternTree.Proofs.Store.Makers
import PatternTree.Proofs.Store.Planning

/-!
# Ancestors and descendants in store

What is below a node can be found in two ways. A search goes down from the node along the names of the
parts; for a given element the links to the holders are followed up until the node is met. Both find the
same (`run_contains_iff_find`). With the element itself included, the second way gives an order on the
elements of a store. That one comes above another can be seen from their addresses, if both belong to
the same tree (`run_ancestorOf_iff_nav`) and no two children share an address (`run_crowd_not_ancestorOf`).
-/

namespace PatternTree

/-- Only nodes have parts. -/
theorem Shape.isNode_of_part? {shape : Shape} {slot : Slot} {p : Handle}
    (h : shape.part? slot = some p) : shape.kind.isNode = true := by
  cases shape with
  | token t => cases slot <;> cases h
  | node cs => rfl
  | group form start type cs finish => exact form.isNode_kind

namespace Store

/-- The element `a` is `b` or above it. -/
def Above (s : Store) (a b : Handle) : Prop := s.ancestorOf a (some b) = some true

theorem isNode_of_part? {s : Store} {n p : Handle} {slot : Slot} (h : s.part? n slot = some p) :
    s.isNode n = true := by
  obtain ⟨c, hc, hp⟩ := Option.bind_eq_some_iff.1 h
  rw [isNode, hc, Option.any_some]
  exact Shape.isNode_of_part? hp

namespace Sound

variable {s : Store} (hs : Sound s)

include hs

/-- The links up are the names of the parts, turned around. -/
theorem up_iff {n p : Handle} : s.Up p n ↔ p ∈ s.elements n := by
  constructor
  · intro hp
    have hroot : p ∉ s.roots := by
      intro hr
      have hfree := hs.free p hr
      rw [hp] at hfree
      cases hfree
    obtain ⟨m, hm⟩ := hs.linked.held p (alive_of_parent? hp) hroot
    obtain rfl : m = n := Option.some.inj ((hs.linked.parent m p hm).symm.trans hp)
    exact hm
  · exact hs.linked.parent n p

/-- A node is met on the way up from an element if and only if the element is met on a way down. -/
theorem transGen_up {n p : Handle} :
    Relation.TransGen s.Up p n ↔ Relation.TransGen (fun a b => b ∈ s.elements a) n p := by
  rw [← Relation.transGen_swap]
  have hswap : Function.swap s.Up = fun a b => b ∈ s.elements a := by
    funext a b
    exact propext hs.up_iff
  rw [hswap]

theorem top_eq_top_iff {r q : Position} {a b : Handle} (hr : s.handle? r = some a)
    (hq : s.handle? q = some b) : s.top a = s.top b ↔ r.tree = q.tree := by
  rw [hs.top_handle? hr, hs.top_handle? hq, Position.top_eq, Position.top_eq]
  constructor
  · intro h
    obtain ⟨t, ht⟩ := exists_handle?_of_ancestorOf hr (Position.ancestorOf_iff.2 ⟨r.path, rfl⟩ :
      (⟨r.tree, []⟩ : Position).ancestorOf (some r) = true)
    have hroots := hs.handle?_injective ht (h.symm.trans ht)
    exact (Position.mk.inj hroots).1
  · intro h
    rw [h]

/-- Whether one element is above another is what their positions say. A token is not asked for what
is below it, and there is nothing. -/
theorem ancestorOf_handle? {r q : Position} {n h : Handle} (hr : s.handle? r = some n)
    (hq : s.handle? q = some h) : s.ancestorOf n (some h) = some (r.ancestorOf (some q)) := by
  by_cases heq : h = n
  · subst heq
    obtain rfl := hs.handle?_injective hq hr
    simp [ancestorOf]
  · have hne : q ≠ r := by
      rintro rfl
      exact heq (Option.some.inj (hq.symm.trans hr))
    have hcontains : r.ancestorOf (some q) = r.contains (some q) := by
      simp [Position.ancestorOf, hne]
    rw [ancestorOf, if_neg heq, hcontains]
    split
    case isTrue => exact hs.contains_handle? hr hq
    case isFalse hnode =>
      cases hrq : r.contains (some q) with
      | false => rfl
      | true =>
        -- the first slot on the way to `q` would be a slot of the token
        obtain ⟨slot, path, rfl⟩ := Position.contains_iff.1 hrq
        obtain ⟨p, hp⟩ := exists_handle?_of_ancestorOf hq (Position.ancestorOf_iff.2 ⟨path, rfl⟩)
        obtain ⟨m, hm, hpart, -⟩ := mem_elements_of_push hp
        obtain rfl : n = m := Option.some.inj (hr.symm.trans hm)
        exact absurd (isNode_of_part? hpart) hnode

theorem above_iff {r q : Position} {a b : Handle} (hr : s.handle? r = some a)
    (hq : s.handle? q = some b) : s.Above a b ↔ r.ancestorOf (some q) = true := by
  rw [Above, hs.ancestorOf_handle? hr hq, Option.some.injEq]

/-- What is met on the ways down from a node is at the positions it contains. -/
theorem transGen_iff_contains {r q : Position} {n k : Handle} (hr : s.handle? r = some n)
    (hq : s.handle? q = some k) :
    Relation.TransGen (fun a b => b ∈ s.elements a) n k ↔ r.contains (some q) = true := by
  obtain ⟨b, hb, hiff⟩ := hs.exists_meets n (hs.alive_handle? hq)
  obtain rfl : b = r.contains (some q) := Option.some.inj (hb.symm.trans (hs.contains_handle? hr hq))
  rw [hiff, hs.transGen_up]

theorem mem_filterMap_handle? {qs : List Position} {q : Position} {k : Handle}
    (hq : s.handle? q = some k) : k ∈ qs.filterMap s.handle? ↔ q ∈ qs := by
  rw [List.mem_filterMap]
  constructor
  · rintro ⟨p, hp, hk⟩
    rwa [hs.handle?_injective hq hk]
  · exact fun h => ⟨q, h, hq⟩

end Sound

/-! ## Down and up -/

theorem Mirrors.mem_positions {s : Store} {F : Forest} (hm : s.Mirrors F) (hs : Sound s)
    {q : Position} : q ∈ F.positions ↔ ∃ k, s.handle? q = some k := by
  rw [Forest.mem_positions, ← Option.isSome_iff_exists, ← Option.isSome_iff_exists, hm.isSome hs]

/-- Positions of the forest all have names in store. -/
theorem Mirrors.map_handle? {s : Store} {F : Forest} (hm : s.Mirrors F) (hs : Sound s)
    {qs : List Position} (hqs : ∀ q ∈ qs, q ∈ F.positions) :
    qs.map s.handle? = (qs.filterMap s.handle?).map some := by
  rw [List.map_filterMap, eq_comm, List.filterMap_eq_map_iff_forall_eq_some]
  intro q hq
  obtain ⟨k, hk⟩ := (hm.mem_positions hs).1 (hqs q hq)
  rw [hk, Option.map_some]

/-- **Containment is what a search finds.** After any requests, the search for elements below a node gives
every element that is met on a way down from it, delimiters and what is below them included, each of them
once, and never the node itself. The search upwards from an element meets the node if and only if
the element is among them; for elements of other trees, and for none, it does not. -/
theorem run_contains_iff_find {σ : Type} (requests : List (Request (Option Nat))) (options : Options)
    (state : σ) :
    let F : Forest := ⟨(Request.elements requests).filterMap id⟩
    ∃ s, run requests = .ok s ∧ (∀ h, s.alive h = true → ∃! r, s.handle? r = some h) ∧
      ∀ r n, s.handle? r = some n → s.contains n none = some false ∧
        ∃ (ms : List Position) (found : List Handle),
          (F.find options r (.code Kind.element.code) state).result = some ms ∧
          ms.map s.handle? = found.map some ∧ found.Nodup ∧ n ∉ found ∧
          (∀ k, k ∈ found ↔ Relation.TransGen (fun a b => b ∈ s.elements a) n k) ∧
          ∀ k, s.alive k = true →
            (∃ b, s.contains n (some k) = some b ∧ (b = true ↔ k ∈ found)) ∧
            (s.top k ≠ s.top n → s.contains n (some k) = some false) := by
  intro F
  obtain ⟨s, hrun, hs, hshows⟩ := run_shows requests
  have hm : s.Mirrors F := hshows.mirrors
  refine ⟨s, hrun, fun h ha => hs.position_unique ha, fun r n hr => ⟨rfl, ?_⟩⟩
  obtain ⟨e, he⟩ := Forest.mem_positions.1 ((hm.mem_positions hs).2 ⟨n, hr⟩)
  -- both ways come to the positions that `r` contains
  have hmem : ∀ {q k}, s.handle? q = some k →
      (k ∈ (r.below e.parts).filterMap s.handle? ↔ r.contains (some q) = true) := by
    intro q k hq
    have hqF := (hm.mem_positions hs).2 ⟨k, hq⟩
    rw [hs.mem_filterMap_handle? hq, Forest.mem_below_parts he, and_iff_right hqF]
  refine ⟨_, _, Forest.find_element he options state, hm.map_handle? hs ?_, ?_, ?_, ?_, ?_⟩
  · exact fun q hq => ((Forest.mem_below_parts he).1 hq).1
  · have hnodup := F.nodup_preorder r
    rw [Forest.preorder_of_get? he, List.nodup_cons] at hnodup
    exact hnodup.2.filterMap fun a b k ha hb => hs.handle?_injective ha hb
  · rw [hmem hr, Position.contains_self]
    exact Bool.false_ne_true
  · intro k
    constructor
    · intro hk
      obtain ⟨q, -, hq⟩ := List.mem_filterMap.1 hk
      exact (hs.transGen_iff_contains hr hq).2 ((hmem hq).1 hk)
    · intro hk
      obtain ⟨p, -, hp⟩ := Relation.TransGen.tail'_iff.1 hk
      obtain ⟨q, hq, -⟩ := hs.position_unique (alive_of_parent? (hs.linked.parent p k hp))
      exact (hmem hq).2 ((hs.transGen_iff_contains hr hq).1 hk)
  · intro k hk
    obtain ⟨q, hq, -⟩ := hs.position_unique hk
    have hcontains := hs.contains_handle? hr hq
    refine ⟨⟨_, hcontains, (hmem hq).symm⟩, fun htop => ?_⟩
    rw [hcontains, Option.some.injEq, Bool.eq_false_iff]
    intro hrq
    have hsame := (Position.ancestorOf_iff_path.1 (Position.ancestorOf_of_contains hrq)).1
    exact htop ((hs.top_eq_top_iff hq hr).2 hsame.symm)

/-- The tree of `sampleRequests`, which holds the capture 2 with the start 0 in the node 4, and the token 5
as a tree of its own. -/
def twoTrees : List (Request (Option Nat)) :=
  sampleRequests ++ [.token (.token .literal) "c" none none]

theorem run_twoTrees {s : Store} (h : run twoTrees = .ok s) :
    s.handle? ⟨0, []⟩ = some 4 ∧ s.handle? ⟨0, [.child 0]⟩ = some 2 ∧
      s.handle? ⟨0, [.child 0, .start]⟩ = some 0 ∧ s.handle? ⟨1, []⟩ = some 5 ∧
      s.alive 0 = true ∧ s.alive 5 = true ∧ s.elements 2 = [0, 1] ∧
      s.top 0 = some 4 ∧ s.top 2 = some 4 ∧ s.top 4 = some 4 ∧ s.top 5 = some 5 := by
  have hsample : (run twoTrees).map (fun s => ([s.handle? ⟨0, []⟩, s.handle? ⟨0, [.child 0]⟩,
      s.handle? ⟨0, [.child 0, .start]⟩, s.handle? ⟨1, []⟩], [s.alive 0, s.alive 4, s.alive 5],
      s.elements 2, [s.parent? 0, s.parent? 2, s.parent? 4, s.parent? 5])) =
      .ok ([some 4, some 2, some 0, some 5], [true, true, true], [0, 1],
        [some 2, some 4, none, none]) := by decide +kernel
  rw [h] at hsample
  simp only [Except.map, Except.ok.injEq, Prod.mk.injEq, List.cons.injEq, and_true] at hsample
  obtain ⟨⟨h4, h2, h0, h5⟩, ⟨ha0, ha4, ha5⟩, helements, hp0, hp2, hp4, hp5⟩ := hsample
  have htop4 := top_root ha4 hp4
  have htop2 := (top_up hp2).trans htop4
  exact ⟨h4, h2, h0, h5, ha0, ha5, helements, (top_up hp0).trans htop2, htop2, htop4,
    top_root ha5 hp5⟩

/-- The capture contains its start, and not the token of the other tree. -/
theorem run_twoTrees_contains_iff_find : ∃ s, run twoTrees = .ok s ∧
    s.handle? ⟨0, [.child 0]⟩ = some 2 ∧ s.alive 0 = true ∧ s.alive 5 = true ∧ s.top 5 ≠ s.top 2 ∧
    s.contains 2 (some 0) = some true ∧ s.contains 2 (some 5) = some false := by
  obtain ⟨s, hrun, -, hsearch⟩ := run_contains_iff_find twoTrees {} ()
  obtain ⟨-, h2, -, -, ha0, ha5, helements, -, htop2, -, htop5⟩ := run_twoTrees hrun
  have hother : s.top 5 ≠ s.top 2 := by simp [htop5, htop2]
  obtain ⟨-, ms, found, -, -, -, -, hfound, hcontains⟩ := hsearch _ 2 h2
  have hstart : 0 ∈ found := (hfound 0).2 (.single (by simp [helements]))
  obtain ⟨⟨b, hb, hiff⟩, -⟩ := hcontains 0 ha0
  obtain rfl := hiff.2 hstart
  exact ⟨s, hrun, h2, ha0, ha5, hother, hb, (hcontains 5 ha5).2 hother⟩

/-! ## The order of ancestors -/

namespace Sound

variable {s : Store} (hs : Sound s)

include hs

theorem above_refl {a : Handle} (ha : s.alive a = true) : s.Above a a := by
  obtain ⟨r, hr, -⟩ := hs.position_unique ha
  exact (hs.above_iff hr hr).2 r.ancestorOf_self

theorem above_antisymm {a b : Handle} (ha : s.alive a = true) (hb : s.alive b = true)
    (hab : s.Above a b) (hba : s.Above b a) : a = b := by
  obtain ⟨r, hr, -⟩ := hs.position_unique ha
  obtain ⟨q, hq, -⟩ := hs.position_unique hb
  rw [hs.above_iff hr hq] at hab
  rw [hs.above_iff hq hr] at hba
  obtain rfl := Position.ancestorOf_antisymm hab hba
  exact Option.some.inj (hr.symm.trans hq)

theorem above_trans {a b c : Handle} (ha : s.alive a = true) (hb : s.alive b = true)
    (hc : s.alive c = true) (hab : s.Above a b) (hbc : s.Above b c) : s.Above a c := by
  obtain ⟨r, hr, -⟩ := hs.position_unique ha
  obtain ⟨q, hq, -⟩ := hs.position_unique hb
  obtain ⟨p, hp, -⟩ := hs.position_unique hc
  rw [hs.above_iff hr hq] at hab
  rw [hs.above_iff hq hp] at hbc
  exact (hs.above_iff hr hp).2 (Position.ancestorOf_trans hab hbc)

/-- Everything above an element is on the one way from the root to it. -/
theorem above_isChain {b : Handle} (hb : s.alive b = true) :
    IsChain s.Above {a | s.alive a = true ∧ s.Above a b} := by
  rintro a ⟨ha, hab⟩ c ⟨hc, hcb⟩ -
  obtain ⟨r, hr, -⟩ := hs.position_unique ha
  obtain ⟨q, hq, -⟩ := hs.position_unique hb
  obtain ⟨p, hp, -⟩ := hs.position_unique hc
  rw [hs.above_iff hr hq] at hab
  rw [hs.above_iff hp hq] at hcb
  rw [hs.above_iff hr hp, hs.above_iff hp hr]
  exact Position.ancestorOf_or_ancestorOf hab hcb

/-- The root of the tree of an element is above the element and above all that is above it. -/
theorem top_above {b : Handle} (hb : s.alive b = true) :
    ∃ t, s.top b = some t ∧ s.alive t = true ∧ s.Above t b ∧
      ∀ a, s.alive a = true → s.Above a b → s.Above t a := by
  obtain ⟨q, hq, -⟩ := hs.position_unique hb
  have hroot : ∀ p : Position, p.tree = q.tree → q.top.ancestorOf (some p) = true := by
    intro p hp
    rw [Position.top_eq, Position.ancestorOf_iff_path]
    exact ⟨hp.symm, List.nil_prefix⟩
  obtain ⟨t, ht⟩ := exists_handle?_of_ancestorOf hq (hroot q rfl)
  refine ⟨t, (hs.top_handle? hq).trans ht, hs.alive_handle? ht, (hs.above_iff ht hq).2 (hroot q rfl), ?_⟩
  intro a ha hab
  obtain ⟨r, hr, -⟩ := hs.position_unique ha
  rw [hs.above_iff hr hq] at hab
  exact (hs.above_iff ht hr).2 (hroot r (Position.ancestorOf_iff_path.1 hab).1)

end Sound

/-- Of two children that share an address neither is above the other. -/
theorem Mirrors.not_above_of_crowded {s : Store} {F : Forest} (hm : s.Mirrors F) (hs : Sound s)
    {r : Position} (h : F.Crowded r) :
    ∃ a b, s.handle? (r.push (.child 0)) = some a ∧ s.handle? (r.push (.child (2 ^ 32))) = some b ∧
      s.top a = s.top b ∧ F.nav (r.push (.child 0)) <+: F.nav (r.push (.child (2 ^ 32))) ∧
      s.ancestorOf a (some b) = some false := by
  obtain ⟨a, ha⟩ := (hm.mem_positions hs).1 h.first_mem
  obtain ⟨b, hb⟩ := (hm.mem_positions hs).1 h.last_mem
  refine ⟨a, b, ha, hb, (hs.top_eq_top_iff ha hb).2 rfl, ?_, ?_⟩
  · rw [h.nav_last]
  · rw [hs.ancestorOf_handle? ha hb, Option.some.injEq, Bool.eq_false_iff]
    intro habove
    -- a path that begins one of the same length is that path
    obtain ⟨-, hprefix⟩ := Position.ancestorOf_iff_path.1 habove
    have hpath := hprefix.eq_of_length (by simp)
    simp at hpath

/-- **Ancestors are read off addresses.** After any requests, one element is another or above it if and only
if both belong to one tree and the path to the first begins the path to the second. Then the address of
the first, which spells the path out in steps, begins the address of the second. The converse holds as
well where no node of the tree has more than 2^32 children, and in no other tree. To be below is
the same turned around. This is an order on all elements of the store, and those above an
element form a chain in it, from the root of its tree to the element itself. -/
theorem run_ancestorOf_iff_nav (requests : List (Request (Option Nat))) :
    let F : Forest := ⟨(Request.elements requests).filterMap id⟩
    ∃ s, run requests = .ok s ∧ (∀ h, s.alive h = true → ∃! r, s.handle? r = some h) ∧
      (∀ r q a b, s.handle? r = some a → s.handle? q = some b →
        ∃ v, s.ancestorOf a (some b) = some v ∧ s.descendantOf b (some a) = some v ∧
          (v = true ↔ s.top a = s.top b ∧ r.path <+: q.path) ∧ F.nav r = r.path.map Slot.step ∧
          (v = true → s.top a = s.top b ∧ F.nav r <+: F.nav q) ∧
          (F.Addressed r.tree → (v = true ↔ s.top a = s.top b ∧ F.nav r <+: F.nav q))) ∧
      (∀ tree, ¬ F.Addressed tree → ∃ r q a b, r.tree = tree ∧ s.handle? r = some a ∧
        s.handle? q = some b ∧ s.top a = s.top b ∧ F.nav r <+: F.nav q ∧
        s.ancestorOf a (some b) = some false) ∧
      (∀ a, s.alive a = true → s.Above a a) ∧
      (∀ a b, s.alive a = true → s.alive b = true → s.Above a b → s.Above b a → a = b) ∧
      (∀ a b c, s.alive a = true → s.alive b = true → s.alive c = true →
        s.Above a b → s.Above b c → s.Above a c) ∧
      ∀ b, s.alive b = true → IsChain s.Above {a | s.alive a = true ∧ s.Above a b} ∧
        ∃ t, s.top b = some t ∧ s.alive t = true ∧ s.Above t b ∧
          ∀ a, s.alive a = true → s.Above a b → s.Above t a := by
  intro F
  obtain ⟨s, hrun, hs, hshows⟩ := run_shows requests
  have hm : s.Mirrors F := hshows.mirrors
  refine ⟨s, hrun, fun h ha => hs.position_unique ha, fun r q a b hr hq => ?_, fun tree hF => ?_,
    fun a => hs.above_refl, fun a b => hs.above_antisymm, fun a b c => hs.above_trans,
    fun b hb => ⟨hs.above_isChain hb, hs.top_above hb⟩⟩
  · have hrF := (hm.mem_positions hs).2 ⟨a, hr⟩
    have hqF := (hm.mem_positions hs).2 ⟨b, hq⟩
    have hpath : r.ancestorOf (some q) = true ↔ s.top a = s.top b ∧ r.path <+: q.path := by
      rw [hs.top_eq_top_iff hr hq, Position.ancestorOf_iff_path]
    have hanc := hs.ancestorOf_handle? hr hq
    refine ⟨_, hanc, hanc, hpath, Forest.nav_eq hrF, fun habove => ?_, fun hF => ?_⟩
    · obtain ⟨htop, hprefix⟩ := hpath.1 habove
      refine ⟨htop, ?_⟩
      rw [Forest.nav_eq hrF, Forest.nav_eq hqF]
      exact hprefix.map Slot.step
    · rw [hpath, and_congr_right_iff]
      intro htop
      exact (Forest.nav_prefix_iff hF hrF hqF ((hs.top_eq_top_iff hr hq).1 htop)).symm
  · obtain ⟨r, -, ht, hr⟩ := Forest.not_addressed_iff.1 hF
    obtain ⟨a, b, ha, hb, htop, hnav, habove⟩ := hm.not_above_of_crowded hs hr
    exact ⟨r.push (.child 0), r.push (.child (2 ^ 32)), a, b, ht, ha, hb, htop, hnav, habove⟩

/-- The capture is above its start, and its address begins the one of the start. The roots of the two trees
have the same address, and neither is above the other. -/
theorem run_twoTrees_ancestorOf_iff_nav :
    let F : Forest := ⟨(Request.elements twoTrees).filterMap id⟩
    F.Addressed 0 ∧ F.nav ⟨0, []⟩ = F.nav ⟨1, []⟩ ∧
    ∃ s, run twoTrees = .ok s ∧ s.handle? ⟨0, []⟩ = some 4 ∧ s.handle? ⟨0, [.child 0]⟩ = some 2 ∧
      s.handle? ⟨0, [.child 0, .start]⟩ = some 0 ∧ s.handle? ⟨1, []⟩ = some 5 ∧
      s.ancestorOf 2 (some 0) = some true ∧
      F.nav ⟨0, [.child 0]⟩ <+: F.nav ⟨0, [.child 0, .start]⟩ ∧
      s.ancestorOf 4 (some 5) = some false := by
  intro F
  have hF : F.Addressed 0 := by unfold Forest.Addressed; decide +kernel
  obtain ⟨s, hrun, -, hnav, -⟩ := run_ancestorOf_iff_nav twoTrees
  obtain ⟨h4, h2, h0, h5, -, -, -, htop0, htop2, htop4, htop5⟩ := run_twoTrees hrun
  obtain ⟨v, hv, -, hpath, -, -, haddress⟩ := hnav _ _ _ _ h2 h0
  obtain rfl := hpath.2 ⟨htop2.trans htop0.symm, by decide⟩
  obtain ⟨w, hw, -, hpath', -⟩ := hnav _ _ _ _ h4 h5
  have hfalse : w = false := by
    rw [Bool.eq_false_iff]
    intro h
    have hroots := (hpath'.1 h).1
    rw [htop4, htop5] at hroots
    cases hroots
  exact ⟨hF, rfl, s, hrun, h4, h2, h0, h5, hv, ((haddress hF).1 rfl).2, hfalse ▸ hw⟩

/-- Requests for `n` tokens and for a node that holds them. -/
def crowdRequests (n : Nat) : List (Request (Option Nat)) :=
  (Blueprint.planAll 0 [.node (List.replicate n (.token (.token .literal) "" none none))]).1

theorem forest_crowdRequests (n : Nat) :
    (⟨(Request.elements (crowdRequests n)).filterMap id⟩ : Forest) = Forest.crowd n := by
  have hchildren : (List.replicate n (some (Element.token Forest.crowdToken))).mapM id =
      some (List.replicate n (.token Forest.crowdToken)) :=
    List.mapM_id_eq_some_iff.2 List.map_replicate.symm
  have htoken : Blueprint.build (.token (.token .literal) "" none none) =
      some (.token Forest.crowdToken) := rfl
  rw [crowdRequests, Blueprint.elements_planAll, Blueprint.buildAll_eq_map, List.map_singleton,
    Blueprint.build, Blueprint.buildAll_eq_map, List.map_replicate, htoken, Element.makeNode?, hchildren]
  rfl

/-- With one child more than there are indices, the first child has the address of the last, and is not
above it. -/
theorem run_crowd_not_ancestorOf :
    (⟨(Request.elements (crowdRequests (2 ^ 32 + 1))).filterMap id⟩ : Forest) =
      Forest.crowd (2 ^ 32 + 1) ∧
    ∃ s a b, run (crowdRequests (2 ^ 32 + 1)) = .ok s ∧ s.handle? ⟨0, [.child 0]⟩ = some a ∧
      s.handle? ⟨0, [.child (2 ^ 32)]⟩ = some b ∧
      ¬ (s.ancestorOf a (some b) = some true ↔ s.top a = s.top b ∧
        (Forest.crowd (2 ^ 32 + 1)).nav ⟨0, [.child 0]⟩ <+:
          (Forest.crowd (2 ^ 32 + 1)).nav ⟨0, [.child (2 ^ 32)]⟩) := by
  obtain ⟨s, hrun, hs, hshows⟩ := run_shows (crowdRequests (2 ^ 32 + 1))
  have hm := hshows.mirrors
  rw [forest_crowdRequests] at hm
  obtain ⟨a, b, ha, hb, htop, hnav, habove⟩ := hm.not_above_of_crowded hs Forest.crowd_crowded
  refine ⟨forest_crowdRequests _, s, a, b, hrun, ha, hb, fun h => ?_⟩
  have htrue := h.2 ⟨htop, hnav⟩
  rw [habove] at htrue
  cases htrue

end Store

end PatternTree
