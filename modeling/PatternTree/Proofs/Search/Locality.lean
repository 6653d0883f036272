import PatternTree.Proofs.Search.Faults

/-!
# Faults stay where they arise

Two searches are compared. Their predicates remember nothing and give the same answers, except on the
parts of one node `c`, and there the second one fails at least once. The first search then finds
everything that the second one finds, and besides only what `c` contains (`find_fault_local`).

The comparison goes down from any node outside of `c`, whether `c` is below that node or not
(`findBelow_outside`). It reaches `c` at most once, as a part of such a node. The second search loses
what is below `c`, and the first one finds nothing there that is not to be left out.
-/

namespace PatternTree

/-- The predicate that answers by what it is shown and remembers nothing. -/
def Predicate.memoryless {σ : Type} (answer : Visit → Verdict) : Predicate σ := fun v s => (answer v, s)

/-- What a search of the forest can show to a predicate: an element with the node that holds it. -/
def Forest.Visitable (F : Forest) (v : Visit) : Prop :=
  v.position ∈ F.elements v.container ∧ F.get? v.position = some v.element

/-- The positions of the list that are not below `c`. -/
def Position.outside (c : Position) (rs : List Position) : List Position :=
  rs.filter fun r => !c.contains (some r)

namespace Position

theorem outside_append (c : Position) (l m : List Position) :
    c.outside (l ++ m) = c.outside l ++ c.outside m :=
  List.filter_append l m

theorem outside_cons_of_not_contains {c r : Position} (h : c.contains (some r) = false)
    (rs : List Position) : c.outside (r :: rs) = r :: c.outside rs := by
  simp [outside, h]

theorem outside_eq_nil {c : Position} {rs : List Position}
    (h : ∀ r ∈ rs, c.contains (some r) = true) : c.outside rs = [] := by
  rw [outside, List.filter_eq_nil_iff]
  intro r hr
  simp [h r hr]

end Position

namespace Forest

theorem visitable_of_mem_parts {F : Forest} {r : Position} {e : Element} (he : F.get? r = some e)
    {p : Slot × Element} (hp : p ∈ e.parts) : F.Visitable ⟨r, r.push p.1, p.2⟩ := by
  refine ⟨?_, get?_push_of_mem_parts he hp⟩
  rw [elements, he]
  exact List.mem_map_of_mem hp

theorem mem_parts_of_visitable {F : Forest} {c q : Position} {d e : Element}
    (hv : F.Visitable ⟨c, q, d⟩) (he : F.get? c = some e) :
    ∃ p ∈ e.parts, q = c.push p.1 ∧ d = p.2 := by
  obtain ⟨hq, hd⟩ := hv
  simp only [elements, he] at hq
  obtain ⟨p, hp, rfl⟩ := List.mem_map.1 hq
  have hget := get?_push_of_mem_parts he hp
  exact ⟨p, hp, rfl, Option.some.inj (hd.symm.trans hget)⟩

theorem container_mem_positions {F : Forest} {v : Visit} (hv : F.Visitable v) :
    v.container ∈ F.positions := by
  obtain ⟨hpos, -⟩ := hv
  unfold elements at hpos
  cases he : F.get? v.container with
  | none => simp [he] at hpos
  | some e => exact mem_positions.2 ⟨e, he⟩

end Forest

namespace Search

variable {σ : Type} (options : Options)

/-- What a memoryless predicate makes of the first part and what is left for the others. -/
theorem result_findParts_cons (answer : Visit → Verdict) (here : Position) (slot : Slot) (e : Element)
    (below : Position → σ → Found σ) (rest : List (Slot × Element × (Position → σ → Found σ)))
    (s : σ) :
    let sub := below (here.push slot) s
    let tail := findParts options (Predicate.memoryless answer) here rest
    (findParts options (Predicate.memoryless answer) here ((slot, e, below) :: rest) s).result =
      match answer ⟨here, here.push slot, e⟩ with
      | .fail _ => none
      | .prune => (tail s).result
      | .accept => (tail sub.state).result.map fun ms => here.push slot :: sub.result.getD [] ++ ms
      | .reject => (tail sub.state).result.map fun ms => sub.result.getD [] ++ ms := by
  intro sub tail
  rw [findParts, Predicate.memoryless]
  cases answer ⟨here, here.push slot, e⟩ <;> rfl

/-! ## At the node with the faults -/

/-- A predicate that fails on one of the parts costs all matches, whatever it says of the parts before. -/
theorem findParts_eq_none {answer : Visit → Verdict} {here : Position}
    (subs : List (Slot × Element × (Position → σ → Found σ)))
    (h : ∃ p ∈ subs, (answer ⟨here, here.push p.1, p.2.1⟩).isFault = true) (s : σ) :
    (findParts options (Predicate.memoryless answer) here subs s).result = none := by
  induction subs generalizing s with
  | nil => simp at h
  | cons p rest ih =>
    obtain ⟨slot, e, below⟩ := p
    have hrest : (answer ⟨here, here.push slot, e⟩).isFault = false →
        ∃ p ∈ rest, (answer ⟨here, here.push p.1, p.2.1⟩).isFault = true := by
      intro hfirst
      obtain ⟨p, hp, hfault⟩ := h
      rcases List.mem_cons.1 hp with rfl | hp
      · rw [hfirst] at hfault
        cases hfault
      · exact ⟨p, hp, hfault⟩
    rw [result_findParts_cons]
    cases hv : answer ⟨here, here.push slot, e⟩ with
    | fail fault => rfl
    | prune => exact ih (hrest (by rw [hv]; rfl)) _
    | accept => exact Option.map_eq_none_iff.2 (ih (hrest (by rw [hv]; rfl)) _)
    | reject => exact Option.map_eq_none_iff.2 (ih (hrest (by rw [hv]; rfl)) _)

theorem findBelow_eq_none {answer : Visit → Verdict} {e : Element} {here : Position}
    (h : ∃ p ∈ e.parts, (answer ⟨here, here.push p.1, p.2⟩).isFault = true) (s : σ) :
    (findBelow options (Predicate.memoryless answer) e here s).result = none := by
  rw [findBelow_eq]
  refine findParts_eq_none options _ ?_ s
  obtain ⟨p, hp, hfault⟩ := h
  exact ⟨_, List.mem_map_of_mem hp, hfault⟩

theorem contains_of_mem_findBelow {pred : Predicate σ} {e : Element} {here : Position} {s : σ}
    {q : Position} (hq : q ∈ (findBelow options pred e here s).result.getD []) :
    here.contains (some q) = true := by
  have hx := findBelow_explained options pred e here s
  rw [hx.getD_result] at hq
  obtain ⟨⟨c, hc, -, rfl⟩, -⟩ := mem_survivors.1 hq
  exact hx.contains_position hc

/-! ## Outside of it -/

section

variable {F : Forest} {c : Position} {p q : Visit → Verdict}
  (hagree : ∀ v, F.Visitable v → v.container ≠ c → p v = q v)

include hagree

/-- One part after the other: the two predicates say the same of the parts themselves, and below each
part the second search finds what the first one finds outside of `c`. -/
theorem findParts_outside {here : Position} (hhere : c.ancestorOf (some here) = false)
    (parts : List (Slot × Element)) (hF : ∀ x ∈ parts, F.Visitable ⟨here, here.push x.1, x.2⟩)
    (hsub : ∀ x ∈ parts, ∀ s s' : σ,
      (findBelow options (Predicate.memoryless q) x.2 (here.push x.1) s).result.getD [] =
        c.outside ((findBelow options (Predicate.memoryless p) x.2 (here.push x.1) s').result.getD []))
    (s s' : σ) :
    (findParts options (Predicate.memoryless q) here
        (parts.map fun x => (x.1, x.2, findBelow options (Predicate.memoryless q) x.2)) s).result =
      (findParts options (Predicate.memoryless p) here
        (parts.map fun x => (x.1, x.2, findBelow options (Predicate.memoryless p) x.2)) s').result.map
          c.outside := by
  induction parts generalizing s s' with
  | nil => rfl
  | cons x parts ih =>
    obtain ⟨slot, e⟩ := x
    obtain ⟨hfirst, hF⟩ := List.forall_mem_cons.1 hF
    obtain ⟨hbelow, hsub⟩ := List.forall_mem_cons.1 hsub
    have hne : here ≠ c := by
      rintro rfl
      rw [Position.ancestorOf_self] at hhere
      cases hhere
    have hself : c.contains (some (here.push slot)) = false := by rwa [Position.contains_push]
    have htail := ih hF hsub (findBelow options (Predicate.memoryless q) e (here.push slot) s).state
      (findBelow options (Predicate.memoryless p) e (here.push slot) s').state
    rw [List.map_cons, List.map_cons, result_findParts_cons, result_findParts_cons, ← hagree _ hfirst hne]
    cases p ⟨here, here.push slot, e⟩ with
    | fail fault => rfl
    | prune => exact ih hF hsub s s'
    | accept =>
      simp only [hbelow s s', htail, Option.map_map]
      congr 1
      funext ms
      simp [Position.outside_append, Position.outside_cons_of_not_contains hself]
    | reject =>
      simp only [hbelow s s', htail, Option.map_map]
      congr 1
      funext ms
      simp [Position.outside_append]

/-- Below a node outside of `c` the second search finds what the first one finds outside of `c`. -/
theorem findBelow_outside (hfault : ∃ v, F.Visitable v ∧ v.container = c ∧ (q v).isFault = true)
    {e : Element} {here : Position} (he : F.get? here = some e)
    (hhere : c.ancestorOf (some here) = false) (s s' : σ) :
    (findBelow options (Predicate.memoryless q) e here s).result =
      (findBelow options (Predicate.memoryless p) e here s').result.map c.outside := by
  induction e using Element.induction_parts generalizing here s s' with
  | h e ih =>
    rw [findBelow_eq, findBelow_eq]
    refine findParts_outside options hagree hhere e.parts (fun x => F.visitable_of_mem_parts he) ?_ s s'
    intro x hx s s'
    have hget := Forest.get?_push_of_mem_parts he hx
    by_cases hxc : here.push x.1 = c
    · -- the part is `c`: one search loses what is below it, and from the other it is left out
      obtain ⟨⟨container, position, element⟩, hv, rfl, hfault⟩ := hfault
      obtain ⟨y, hy, rfl, rfl⟩ := Forest.mem_parts_of_visitable hv (hxc ▸ hget)
      rw [hxc, findBelow_eq_none options ⟨y, hy, hfault⟩, Option.getD_none, eq_comm]
      exact Position.outside_eq_nil fun r hr => contains_of_mem_findBelow options hr
    · have hoff : c.ancestorOf (some (here.push x.1)) = false := by
        rw [Bool.eq_false_iff]
        intro hanc
        rw [Position.ancestorOf_iff_eq_or, Position.contains_push, hhere] at hanc
        exact hanc.elim hxc Bool.false_ne_true
      rw [ih x hx hget hoff s s']
      cases (findBelow options (Predicate.memoryless p) x.2 (here.push x.1) s').result with
      | none => rfl
      | some ms => rfl

end

end Search

namespace Forest

open Search

/-- **Faults stay where they arise.** Let two predicates without memory, which may fail, give the same
answers on everything but the parts of a node `c` below the searched node, and let the second fail on
one of these parts. The search with the second then fails if and only if the one with the first does,
and otherwise it gives the same matches in the same order, except that those that `c` contains are left
out. A match on `c` itself stays. -/
theorem find_fault_local {σ : Type} (F : Forest) (options : Options) (r c : Position)
    (hrc : r.contains (some c) = true) (p q : Visit → Verdict)
    (hagree : ∀ v, F.Visitable v → v.container ≠ c → p v = q v)
    (hfault : ∃ v, F.Visitable v ∧ v.container = c ∧ (q v).isFault = true) (s : σ) :
    let found answer := (F.find options r (.predicate (some (Predicate.memoryless answer))) s).result
    (found q = none ↔ found p = none) ∧
    ∀ ms, found p = some ms →
      found q = some (ms.filter fun x => !c.contains (some x)) ∧
      (c ∈ ms → c ∈ ms.filter fun x => !c.contains (some x)) := by
  have hr : r ∈ F.positions := by
    obtain ⟨v, hv, rfl, -⟩ := hfault
    exact mem_positions_of_ancestorOf (container_mem_positions hv) (Position.ancestorOf_of_contains hrc)
  obtain ⟨e, he⟩ := mem_positions.1 hr
  intro found
  have hfound : found q = (found p).map c.outside := by
    simp only [found, find_predicate he]
    exact findBelow_outside options hagree hfault he (Position.not_ancestorOf_of_contains hrc) s s
  refine ⟨by rw [hfound, Option.map_eq_none_iff], fun ms hms => ⟨?_, fun hc => ?_⟩⟩
  · rw [hfound, hms]
    rfl
  · rw [List.mem_filter, Position.contains_self]
    exact ⟨hc, rfl⟩

/-- The first predicate accepts everything, the second fails on the second child of a capture. Of the
parts of the capture some are shown before that child and one would come after it; all of them are lost,
but not the capture nor what follows it. -/
theorem find_sample_fault_local :
    let c : Position := ⟨0, [.child 0]⟩
    let p : Visit → Verdict := fun _ => .accept
    let q : Visit → Verdict := fun v =>
      if v.container = c ∧ v.position = c.push (.child 1) then .fail .unknown else .accept
    let found answer :=
      (sample.find {} ⟨0, []⟩ (.predicate (some (Predicate.memoryless answer))) ()).result
    Position.contains ⟨0, []⟩ (some c) = true ∧
    (∀ v, sample.Visitable v → v.container ≠ c → p v = q v) ∧
    (∃ v, sample.Visitable v ∧ v.container = c ∧ (q v).isFault = true) ∧
    ∃ ms, found p = some ms ∧ ms.length = 8 ∧ c ∈ ms ∧
      ms.filter (fun x => !c.contains (some x)) = [c, ⟨0, [.child 1]⟩] ∧
      found q = some [c, ⟨0, [.child 1]⟩] := by
  intro c p q found
  have hrc : Position.contains ⟨0, []⟩ (some c) = true := by decide
  have hagree : ∀ v, sample.Visitable v → v.container ≠ c → p v = q v := by
    intro v _ hne
    simp [p, q, hne]
  have hfault : ∃ v, sample.Visitable v ∧ v.container = c ∧ (q v).isFault = true := by
    obtain ⟨d, hd⟩ : ∃ d, sample.get? (c.push (.child 1)) = some d := ⟨_, rfl⟩
    have hmem : c.push (.child 1) ∈ sample.elements c := by decide
    exact ⟨⟨c, c.push (.child 1), d⟩, ⟨hmem, hd⟩, rfl, by simp [q, Verdict.isFault]⟩
  obtain ⟨ms, hms, hlength, hc, hfilter⟩ : ∃ ms, found p = some ms ∧ ms.length = 8 ∧ c ∈ ms ∧
      ms.filter (fun x => !c.contains (some x)) = [c, ⟨0, [.child 1]⟩] :=
    ⟨_, rfl, by decide, by decide, by decide⟩
  have hlocal := (find_fault_local sample {} ⟨0, []⟩ c hrc p q hagree hfault ()).2 ms hms
  exact ⟨hrc, hagree, hfault, ms, hms, hlength, hc, hfilter, hfilter ▸ hlocal.1⟩

end Forest

end PatternTree
