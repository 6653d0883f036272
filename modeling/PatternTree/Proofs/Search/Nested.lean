import Mathlib
import PatternTree.Proofs.Search.First
import PatternTree.Proofs.Search.Results
import PatternTree.Proofs.Store.Ancestry
import PatternTree.Proofs.Store.Reading

/-!
# Searching inside and around

A search that starts at a node inside another one finds part of what the search around it finds. Where the
selector is a code or a name, nothing is pruned and nothing fails, so what is found inside is all of it: what
the outer search finds and the inner node contains. These elements stand together in the outer result,
because everything below a node stands together in the preorder around it (`infix_below`), and the
first of them is the first match of the inner search. Containment is asked upwards, by the links of
the elements in store (`run_find_nested`).
-/

namespace PatternTree

/-- A code or a name that stands for a predicate accepts according to the element alone, and always goes on. -/
theorem Selector.exists_accepted {σ : Type} {want : Selector σ} {pred : Predicate σ}
    (hkind : ∀ p, want ≠ .predicate p) (hw : want.resolve? = some pred) :
    ∃ P : Element → Bool, ∀ v s, (pred v s).1 = if P v.element then .accept else .reject := by
  cases want with
  | code c =>
    obtain ⟨kind, -, rfl⟩ := Option.map_eq_some_iff.1 hw
    exact ⟨fun d => d.kind.isa kind, fun _ _ => rfl⟩
  | name n =>
    cases hn : Kind.ofName? n with
    | some kind =>
      obtain rfl := Option.some.inj ((Selector.resolve?_name hn).symm.trans hw)
      exact ⟨fun d => d.kind.isa kind, fun _ _ => rfl⟩
    | none =>
      rw [resolve?, hn] at hw
      obtain rfl := Option.some.inj hw
      exact ⟨fun _ => false, fun _ _ => rfl⟩
  | predicate p => exact absurd rfl (hkind p)

namespace Forest

open Search

/-- Where nothing fails, the first match is the first of all matches. -/
theorem findFirst_accepted {σ : Type} {F : Forest} {r : Position} {e : Element} (he : F.get? r = some e)
    (options : Options) {want : Selector σ} {pred : Predicate σ} (hw : want.resolve? = some pred)
    {P : Element → Bool} (hP : ∀ v s, (pred v s).1 = if P v.element then .accept else .reject) (s : σ) :
    (F.findFirst options r want s).result =
      some ((r.below e.parts).filter fun q => (F.get? q).any P).head? := by
  have hfirst : F.findFirst options r want s = firstBelow options pred e r s := by
    simp [findFirst, hw, he]
  have hfind : F.find options r want s = findBelow options pred e r s := by
    simp [find, hw, he]
  have hfailed : ∀ c ∈ (findBelow options pred e r s).calls, c.failed = false := by
    intro c hc
    rw [Call.failed, verdict_accepted he options hP s hc]
    split <;> rfl
  obtain ⟨ms, hms, hhead⟩ := (firstBelow_brokenOff options pred e r s).result_eq_head
    (findBelow_explained options pred e r s) hfailed
  have haccepted := find_accepted he options hw hP s
  rw [hfind, hms] at haccepted
  rw [hfirst, hhead, Option.some.inj haccepted]

/-! ## Below a node inside another one -/

/-- What is below a node inside another one is what is below that one and inside. -/
theorem below_eq_filter {F : Forest} {r m : Position} {e d : Element} (he : F.get? r = some e)
    (hd : F.get? m = some d) (h : r.contains (some m) = true) :
    m.below d.parts = (r.below e.parts).filter fun q => m.contains (some q) := by
  have hm : m ∈ F.positions := mem_positions.2 ⟨d, hd⟩
  have hsub : (m.below d.parts).Sublist (F.preorder r) := by
    refine List.Sublist.trans ?_ (infix_preorder hm (Position.ancestorOf_of_contains h)).sublist
    rw [preorder_of_get? hd]
    exact List.sublist_cons_self m _
  have hall : m.below d.parts = (F.preorder r).filter fun q => m.contains (some q) := by
    refine eq_filter_of_sublist hsub fun q hq => ?_
    rw [mem_below_parts hd, and_iff_right (mem_preorder.1 hq).1]
  -- the outer node itself is not inside
  have hself : m.contains (some r) = false := by
    rw [Bool.eq_false_iff]
    intro hmr
    have hnot := Position.not_ancestorOf_of_contains h
    rw [Position.ancestorOf_of_contains hmr] at hnot
    cases hnot
  rw [hall, preorder_of_get? he, List.filter_cons, hself]
  rfl

/-- What is below a node stands together below any node around it. -/
theorem infix_below {F : Forest} {r m : Position} {e d : Element} (he : F.get? r = some e)
    (hd : F.get? m = some d) (h : r.contains (some m) = true) : m.below d.parts <:+: r.below e.parts := by
  have hr : r ∈ F.positions := mem_positions.2 ⟨e, he⟩
  have hm : m ∈ F.positions := mem_positions.2 ⟨d, hd⟩
  have hbelow : r.below e.parts = (F.elements r).flatMap F.preorder :=
    (List.cons.inj ((preorder_of_get? he).symm.trans (preorder_eq hr))).2
  -- the inner node is at or below one part of the outer one
  obtain ⟨slot, path, hpath⟩ := Position.contains_iff.1 h
  have hanc : (r.push slot).ancestorOf (some m) = true := Position.ancestorOf_iff.2 ⟨path, hpath⟩
  have hpart : r.push slot ∈ F.elements r :=
    mem_elements_iff.2 ⟨mem_positions_of_ancestorOf hm hanc, Position.parent?_push r slot⟩
  have hinner : m.below d.parts <:+: F.preorder m := by
    rw [preorder_of_get? hd]
    exact (List.suffix_cons m _).isInfix
  rw [hbelow]
  exact hinner.trans ((infix_preorder hm hanc).trans (List.infix_flatMap_of_mem hpart F.preorder))

/-- The searches for a code or a name around and inside: the inner one gives the block of what the
inner node contains. -/
theorem find_nested {σ : Type} {F : Forest} {r m : Position} (hm : m ∈ F.positions)
    (h : r.contains (some m) = true) (options : Options) {want : Selector σ}
    (hkind : ∀ p, want ≠ .predicate p) (hw : want.resolve?.isSome = true) (s : σ) :
    ∃ found, (F.find options r want s).result = some found ∧ (∀ q ∈ found, q ∈ F.positions) ∧
      (F.find options m want s).result = some (found.filter fun q => m.contains (some q)) ∧
      (found.filter fun q => m.contains (some q)) <:+: found ∧
      (F.findFirst options m want s).result =
        some (found.filter fun q => m.contains (some q)).head? := by
  obtain ⟨d, hd⟩ := mem_positions.1 hm
  obtain ⟨e, he⟩ := mem_positions.1 (mem_positions_of_ancestorOf hm (Position.ancestorOf_of_contains h))
  obtain ⟨pred, hw⟩ := Option.isSome_iff_exists.1 hw
  obtain ⟨P, hP⟩ := Selector.exists_accepted hkind hw
  have hblock : ((r.below e.parts).filter fun q => (F.get? q).any P).filter (fun q => m.contains (some q)) =
      (m.below d.parts).filter fun q => (F.get? q).any P := by
    rw [below_eq_filter he hd h, List.filter_comm]
  refine ⟨_, find_accepted he options hw hP s, fun q hq => ?_, ?_⟩
  · exact ((mem_below_parts he).1 (List.mem_of_mem_filter hq)).1
  · rw [hblock]
    exact ⟨find_accepted hd options hw hP s, (infix_below he hd h).filter _,
      findFirst_accepted hd options hw hP s⟩

end Forest

namespace Store

/-- **Searching inside and around.** After any requests, let a node contain an element, and search below
both for a code that stands for a kind, or for a name. The inner search gives those of the outer result that
the inner element contains, in the same order; in the outer result they stand together, and the
first of them, if there is one, is the first match of the inner search. -/
theorem run_find_nested {σ : Type} (requests : List (Request (Option Nat))) (options : Options)
    (want : Selector σ) (hkind : ∀ p, want ≠ .predicate p) (hw : want.resolve?.isSome = true) (state : σ) :
    ∃ s, run requests = .ok s ∧
      ∀ r m n k, s.handle? r = some n → s.handle? m = some k → s.contains n (some k) = some true →
        ∃ found block, (s.forest.find options r want state).result = some found ∧
          (s.forest.find options m want state).result = some block ∧
          block = found.filter (fun q => s.contains k (s.handle? q) = some true) ∧
          block <:+: found ∧
          (s.forest.findFirst options m want state).result = some block.head? := by
  obtain ⟨s, hrun, hs, hshows⟩ := run_shows requests
  have hm := hshows.mirrors
  rw [← hm.forest_eq hs] at hm
  refine ⟨s, hrun, fun r m n k hr hk hcontains => ?_⟩
  have hrm : r.contains (some m) = true :=
    Option.some.inj ((hs.contains_handle? hr hk).symm.trans hcontains)
  obtain ⟨found, hfound, hmem, hinner, hinfix, hfirst⟩ :=
    Forest.find_nested ((hm.mem_positions hs).2 ⟨k, hk⟩) hrm options hkind hw state
  have hblock : (found.filter fun q => m.contains (some q)) =
      found.filter (fun q => s.contains k (s.handle? q) = some true) := by
    refine List.filter_congr fun q hq => ?_
    obtain ⟨j, hj⟩ := (hm.mem_positions hs).1 (hmem q hq)
    rw [hj, hs.contains_handle? hk hj]
    simp
  rw [hblock] at hinner hinfix hfirst
  exact ⟨found, _, hfound, hinner, rfl, hinfix, hfirst⟩

/-- A node that holds a capture and a literal. The start of the capture is a capture itself, with a literal inside. -/
def delimited : List (Request (Option Nat)) :=
  let literal (content : String) : Request (Option Nat) :=
    .token (.token .literal) content none none
  [literal "a", .group .capture none none [some 0] none, literal "b",
    .group .capture (some 1) none [some 2] none, literal "c", .node [some 3, some 4]]

/-- Inside the capture are two of the three tokens, the first of them in its start. -/
theorem run_delimited_find_nested :
    let outer : Position := ⟨0, []⟩
    let inner : Position := ⟨0, [.child 0]⟩
    let a : Position := ⟨0, [.child 0, .start, .child 0]⟩
    let b : Position := ⟨0, [.child 0, .child 0]⟩
    let c : Position := ⟨0, [.child 1]⟩
    ∃ s, run delimited = .ok s ∧ s.handle? outer = some 5 ∧ s.handle? inner = some 3 ∧
      s.contains 5 (some 3) = some true ∧
      (s.forest.find {} outer (.name "Token") ()).result = some [a, b, c] ∧
      (s.forest.find {} inner (.name "Token") ()).result = some [a, b] ∧
      [a, b] = [a, b, c].filter (fun q => s.contains 3 (s.handle? q) = some true) ∧
      (s.forest.findFirst {} inner (.name "Token") ()).result = some (some a) := by
  intro outer inner a b c
  obtain ⟨s, hrun, hnested⟩ :=
    run_find_nested delimited {} (.name "Token" : Selector Unit) (by simp) (by decide) ()
  have hhandles : (run delimited).map (fun s => (s.handle? outer, s.handle? inner,
      s.contains 5 (some 3))) = .ok (some 5, some 3, some true) := by decide +kernel
  have hresults : (run delimited).map (fun s => [(s.forest.find {} outer (.name "Token") ()).result,
      (s.forest.find {} inner (.name "Token") ()).result]) = .ok [some [a, b, c], some [a, b]] := by
    decide +kernel
  rw [hrun] at hhandles hresults
  simp only [Except.map, Except.ok.injEq, Prod.mk.injEq] at hhandles
  simp only [Except.map, Except.ok.injEq, List.cons.injEq, and_true] at hresults
  obtain ⟨houter, hinner, hcontains⟩ := hhandles
  obtain ⟨hall, hinside⟩ := hresults
  obtain ⟨found, block, hfound, hblock, hfilter, -, hfirst⟩ := hnested _ _ _ _ houter hinner hcontains
  obtain rfl := Option.some.inj (hall.symm.trans hfound)
  obtain rfl := Option.some.inj (hinside.symm.trans hblock)
  exact ⟨s, hrun, houter, hinner, hcontains, hall, hinside, hfilter, hfirst⟩

end Store

end PatternTree
