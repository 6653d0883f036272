import Mathlib
import PatternTree.Proofs.Search.Faults
import PatternTree.Proofs.Tree.Order

/-!
# What a search visits

`Visits` says what the log of a search for all matches can look like, one part after the other: a fault
ends the search of the node, a pruned part is passed over, and below any other part the search goes on
before it comes to the next part. What the predicate remembers does not show here, so all that follows
from it holds of every predicate.

The elements are shown in document order, none of them twice (`Visits.sublist`). Which ones are shown is
decided at each node by itself (`Visits.shown_iff`): a part is shown just if the search went on below
the node that holds it and no earlier part of that node failed. From node to node this
describes the whole log (`find_visits`).
-/

namespace PatternTree

/-- The predicate gives this verdict on the visit in some state. -/
def Predicate.Answers {σ : Type} (pred : Predicate σ) (v : Visit) (verdict : Verdict) : Prop :=
  ∃ s, (pred v s).1 = verdict

namespace Search

/-- The calls on one element. -/
def callsOn (calls : List Call) (q : Position) : List Call := calls.filter (·.position == q)

/-- A call on the element was answered such that the search goes on below it. -/
def Entered (calls : List Call) (q : Position) : Prop :=
  ∃ c ∈ callsOn calls q, c.verdict = .accept ∨ c.verdict = .reject

theorem mem_callsOn {calls : List Call} {q : Position} {c : Call} :
    c ∈ callsOn calls q ↔ c ∈ calls ∧ c.position = q := by
  simp [callsOn]

@[simp]
theorem callsOn_nil (q : Position) : callsOn [] q = [] := rfl

theorem callsOn_eq_nil {calls : List Call} {q : Position} :
    callsOn calls q = [] ↔ ∀ c ∈ calls, c.position ≠ q := by
  simp [callsOn]

theorem callsOn_append (l m : List Call) (q : Position) :
    callsOn (l ++ m) q = callsOn l q ++ callsOn m q := by
  simp [callsOn]

/-- The calls of a search through these parts of the node at `here`. -/
inductive Visits {σ : Type} (pred : Predicate σ) :
    Position → List (Slot × Element) → List Call → Prop where
  | done (here : Position) : Visits pred here [] []
  | fault {here : Position} {slot : Slot} {e : Element} {v : Verdict} (rest : List (Slot × Element))
      (hv : v.isFault = true) (hanswer : pred.Answers ⟨here, here.push slot, e⟩ v) :
      Visits pred here ((slot, e) :: rest) [⟨here, here.push slot, v⟩]
  | prune {here : Position} {slot : Slot} {e : Element} {rest : List (Slot × Element)}
      {tail : List Call} (hanswer : pred.Answers ⟨here, here.push slot, e⟩ .prune)
      (htail : Visits pred here rest tail) :
      Visits pred here ((slot, e) :: rest) (⟨here, here.push slot, .prune⟩ :: tail)
  | enter {here : Position} {slot : Slot} {e : Element} {v : Verdict} {rest : List (Slot × Element)}
      {below tail : List Call} (hv : v = .accept ∨ v = .reject)
      (hanswer : pred.Answers ⟨here, here.push slot, e⟩ v)
      (hbelow : Visits pred (here.push slot) e.parts below) (htail : Visits pred here rest tail) :
      Visits pred here ((slot, e) :: rest) (⟨here, here.push slot, v⟩ :: below ++ tail)

/-! ## The log of a search -/

section

variable {σ : Type} (options : Options) (pred : Predicate σ)

theorem findParts_visits (here : Position) (parts : List (Slot × Element))
    (h : ∀ p ∈ parts, ∀ r s, Visits pred r p.2.parts (findBelow options pred p.2 r s).calls) (s : σ) :
    Visits pred here parts
      (findParts options pred here
        (parts.map fun p => (p.1, p.2, findBelow options pred p.2)) s).calls := by
  induction parts generalizing s with
  | nil => exact .done here
  | cons p parts ih =>
    obtain ⟨slot, e⟩ := p
    have ih := ih fun p hp => h p (List.mem_cons_of_mem _ hp)
    have hanswer : pred.Answers ⟨here, here.push slot, e⟩ (pred ⟨here, here.push slot, e⟩ s).1 := ⟨s, rfl⟩
    rw [List.map_cons, findParts]
    generalize pred ⟨here, here.push slot, e⟩ s = answer at hanswer
    obtain ⟨v, s'⟩ := answer
    have hbelow := h _ List.mem_cons_self (here.push slot) s'
    cases v with
    | accept => exact .enter (Or.inl rfl) hanswer hbelow (ih _)
    | reject => exact .enter (Or.inr rfl) hanswer hbelow (ih _)
    | prune => exact .prune hanswer (ih _)
    | fail fault => exact .fault _ rfl hanswer

theorem findBelow_visits (e : Element) (here : Position) (s : σ) :
    Visits pred here e.parts (findBelow options pred e here s).calls := by
  induction e using Element.induction_parts generalizing here s with
  | h e ih =>
    rw [findBelow_eq]
    exact findParts_visits options pred here e.parts (fun p hp r s => ih p hp r s) s

end

namespace Visits

variable {σ : Type} {pred : Predicate σ} {here : Position} {parts : List (Slot × Element)}
  {calls : List Call}

/-! ## In document order -/

/-- The elements are shown in the order in which they stand below the node. -/
theorem sublist (h : Visits pred here parts calls) :
    (calls.map (·.position)).Sublist (here.below parts) := by
  induction h with
  | done here => exact .slnil
  | fault rest hv hanswer =>
    rw [Position.below_cons]
    exact .cons_cons _ (List.nil_sublist _)
  | prune hanswer htail ih =>
    rw [Position.below_cons]
    exact .cons_cons _ (ih.trans (List.sublist_append_right _ _))
  | enter hv hanswer hbelow htail ihbelow ihtail =>
    rw [Position.below_cons, List.cons_append, List.map_cons, List.map_append]
    exact .cons_cons _ (ihbelow.append ihtail)

/-- If the search goes on below every element shown, then everything is shown. -/
theorem map_position_eq (h : Visits pred here parts calls)
    (hall : ∀ c ∈ calls, c.verdict = .accept ∨ c.verdict = .reject) :
    calls.map (·.position) = here.below parts := by
  induction h with
  | done here => rfl
  | fault rest hv hanswer => rcases hall _ List.mem_cons_self with rfl | rfl <;> cases hv
  | prune hanswer htail ih => rcases hall _ List.mem_cons_self with h | h <;> cases h
  | enter hv hanswer hbelow htail ihbelow ihtail =>
    rw [List.cons_append] at hall
    have hbelow := ihbelow fun c hc => hall c (List.mem_cons_of_mem _ (List.mem_append_left _ hc))
    have htail := ihtail fun c hc => hall c (List.mem_cons_of_mem _ (List.mem_append_right _ hc))
    rw [Position.below_cons, List.cons_append, List.map_cons, List.map_append, hbelow, htail]

/-- What is shown stands at or below one of the parts. -/
theorem exists_part (h : Visits pred here parts calls) {c : Call} (hc : c ∈ calls) :
    ∃ p ∈ parts, (here.push p.1).ancestorOf (some c.position) = true :=
  Position.mem_below (h.sublist.subset (List.mem_map_of_mem hc))

theorem contains_position (h : Visits pred here parts calls) {c : Call} (hc : c ∈ calls) :
    here.contains (some c.position) = true := by
  obtain ⟨p, -, hp⟩ := h.exists_part hc
  obtain ⟨path, hpath⟩ := Position.ancestorOf_iff.1 hp
  exact Position.contains_iff.2 ⟨p.1, path, hpath⟩

/-- Nothing at or below a part that is not among these is shown. -/
theorem not_ancestorOf_of_notMem (h : Visits pred here parts calls) {slot : Slot}
    (hs : slot ∉ parts.map (·.1)) {c : Call} (hc : c ∈ calls) :
    (here.push slot).ancestorOf (some c.position) = false := by
  rw [Bool.eq_false_iff]
  intro hslot
  obtain ⟨p, hp, hpos⟩ := h.exists_part hc
  exact hs (Position.eq_of_ancestorOf_push hslot hpos ▸ List.mem_map_of_mem hp)

/-- Every verdict is one that the predicate gives on the element that was shown. -/
theorem answers {F : Forest} (h : Visits pred here parts calls)
    (hF : ∀ p ∈ parts, F.get? (here.push p.1) = some p.2) {c : Call} (hc : c ∈ calls) :
    ∃ e, F.get? c.position = some e ∧ pred.Answers ⟨c.container, c.position, e⟩ c.verdict := by
  induction h with
  | done here => cases hc
  | fault rest hv hanswer =>
    obtain rfl := List.mem_singleton.1 hc
    exact ⟨_, hF _ List.mem_cons_self, hanswer⟩
  | prune hanswer htail ih =>
    rcases List.mem_cons.1 hc with rfl | hc
    · exact ⟨_, hF _ List.mem_cons_self, hanswer⟩
    · exact ih (fun p hp => hF p (List.mem_cons_of_mem _ hp)) hc
  | enter hv hanswer hbelow htail ihbelow ihtail =>
    have hhead := hF _ List.mem_cons_self
    rw [List.cons_append] at hc
    rcases List.mem_cons.1 hc with rfl | hc
    · exact ⟨_, hhead, hanswer⟩
    · rcases List.mem_append.1 hc with hc | hc
      · exact ihbelow (fun p hp => Forest.get?_push_of_mem_parts hhead hp) hc
      · exact ihtail (fun p hp => hF p (List.mem_cons_of_mem _ hp)) hc

/-! ## Node by node -/

/-- The first part has been passed without a fault: what was shown below it, nothing if it was pruned, and
what was shown of the other parts keep to their own elements. -/
structure Passed (pred : Predicate σ) (here : Position) (slot : Slot) (e : Element)
    (parts : List (Slot × Element)) (calls : List Call) (v : Verdict) (below tail : List Call) :
    Prop where
  not_fault : v.isFault = false
  entered : (v = .accept ∨ v = .reject) ∧ Visits pred (here.push slot) e.parts below ∨
    v = .prune ∧ below = []
  visits : Visits pred here parts tail
  on_slot : callsOn calls (here.push slot) = [⟨here, here.push slot, v⟩]
  on_below : ∀ q, (here.push slot).contains (some q) = true → callsOn calls q = callsOn below q
  on_tail : ∀ q, (here.push slot).ancestorOf (some q) = false → callsOn calls q = callsOn tail q

theorem Passed.of_append {slot : Slot} {e : Element} {v : Verdict} {below tail : List Call}
    (hv : v.isFault = false)
    (hbelow : (v = .accept ∨ v = .reject) ∧ Visits pred (here.push slot) e.parts below ∨
      v = .prune ∧ below = [])
    (htail : Visits pred here parts tail) (hs : slot ∉ parts.map (·.1)) :
    Passed pred here slot e parts (⟨here, here.push slot, v⟩ :: (below ++ tail)) v below tail := by
  have hunder : ∀ c ∈ below, (here.push slot).contains (some c.position) = true := by
    intro c hc
    rcases hbelow with ⟨-, hbelow⟩ | ⟨-, rfl⟩
    · exact hbelow.contains_position hc
    · cases hc
  have htail_nil : ∀ q, (here.push slot).ancestorOf (some q) = true → callsOn tail q = [] := by
    intro q hq
    refine callsOn_eq_nil.2 fun c hc hpos => ?_
    rw [← hpos, htail.not_ancestorOf_of_notMem hs hc] at hq
    cases hq
  have hsplit : ∀ q, callsOn (⟨here, here.push slot, v⟩ :: (below ++ tail)) q =
      callsOn [⟨here, here.push slot, v⟩] q ++ (callsOn below q ++ callsOn tail q) := by
    intro q
    rw [← callsOn_append, ← callsOn_append, List.singleton_append]
  refine ⟨hv, hbelow, htail, ?_, fun q hq => ?_, fun q hq => ?_⟩
  · have hnil : callsOn below (here.push slot) = [] := by
      refine callsOn_eq_nil.2 fun c hc hpos => ?_
      have := hunder c hc
      rw [hpos, Position.contains_self] at this
      cases this
    rw [hsplit, hnil, htail_nil _ (Position.ancestorOf_self _)]
    simp [callsOn]
  · have hnil : callsOn [(⟨here, here.push slot, v⟩ : Call)] q = [] := by
      refine callsOn_eq_nil.2 fun c hc hpos => ?_
      obtain rfl := List.mem_singleton.1 hc
      rw [← hpos, Position.contains_self] at hq
      cases hq
    rw [hsplit, hnil, htail_nil q (Position.ancestorOf_of_contains hq), List.nil_append, List.append_nil]
  · have hnil : callsOn (⟨here, here.push slot, v⟩ :: below) q = [] := by
      refine callsOn_eq_nil.2 fun c hc hpos => ?_
      rw [← hpos] at hq
      rcases List.mem_cons.1 hc with rfl | hc
      · rw [Position.ancestorOf_self] at hq
        cases hq
      · rw [Position.ancestorOf_of_contains (hunder c hc)] at hq
        cases hq
    rw [← List.cons_append, callsOn_append, hnil, List.nil_append]

/-- The first part failed, and nothing else was shown; or it was passed. -/
theorem cons_cases {slot : Slot} {e : Element} (h : Visits pred here ((slot, e) :: parts) calls)
    (hs : slot ∉ parts.map (·.1)) :
    (∃ v, v.isFault = true ∧ calls = [⟨here, here.push slot, v⟩]) ∨
      ∃ v below tail, Passed pred here slot e parts calls v below tail := by
  cases h with
  | fault _ hv hanswer => exact Or.inl ⟨_, hv, rfl⟩
  | prune hanswer htail =>
    exact Or.inr ⟨_, [], _, .of_append rfl (Or.inr ⟨rfl, rfl⟩) htail hs⟩
  | @enter _ _ _ v _ below tail hv hanswer hbelow htail =>
    refine Or.inr ⟨v, below, tail, .of_append ?_ (Or.inl ⟨hv, hbelow⟩) htail hs⟩
    rcases hv with rfl | rfl <;> rfl

theorem not_ancestorOf_push_push {slot a : Slot} (h : slot ≠ a) :
    (here.push slot).ancestorOf (some (here.push a)) = false := by
  rw [Bool.eq_false_iff]
  intro hanc
  exact h (Position.eq_of_ancestorOf_push hanc (Position.ancestorOf_self _))

/-- A part is shown just if no part before it failed. -/
theorem shown_part (h : Visits pred here parts calls) (hs : (parts.map (·.1)).Nodup)
    {before after : List (Slot × Element)} {slot : Slot} {d : Element}
    (hp : parts = before ++ (slot, d) :: after) :
    callsOn calls (here.push slot) ≠ [] ↔
      ∀ p ∈ before, ∀ c ∈ callsOn calls (here.push p.1), c.verdict.isFault = false := by
  induction before generalizing parts calls with
  | nil =>
    subst hp
    obtain ⟨hslot, -⟩ := List.nodup_cons.1 hs
    rcases h.cons_cases hslot with ⟨v, -, rfl⟩ | ⟨v, below, tail, hpass⟩
    · simp [callsOn]
    · simp [hpass.on_slot]
  | cons p before ih =>
    obtain ⟨a, e⟩ := p
    subst hp
    rw [List.cons_append, List.map_cons, List.nodup_cons] at hs
    obtain ⟨ha, hs⟩ := hs
    have hne : ∀ b ∈ (before ++ (slot, d) :: after).map (·.1), a ≠ b := by
      rintro b hb rfl
      exact ha hb
    rw [List.forall_mem_cons]
    rcases h.cons_cases ha with ⟨v, hv, rfl⟩ | ⟨v, below, tail, hpass⟩
    · have hslot : here.push a ≠ here.push slot := fun hpush =>
        hne slot (by simp) (Position.push_injective hpush).2
      simp [callsOn, hslot, hv]
    · have htail : ∀ b ∈ (before ++ (slot, d) :: after).map (·.1),
          callsOn calls (here.push b) = callsOn tail (here.push b) := by
        intro b hb
        exact hpass.on_tail _ (not_ancestorOf_push_push (hne b hb))
      have hfirst : ∀ c ∈ callsOn calls (here.push a), c.verdict.isFault = false := by
        simpa [hpass.on_slot] using hpass.not_fault
      rw [htail slot (by simp), ih hpass.visits hs rfl]
      constructor
      · intro hrest
        refine ⟨hfirst, fun p hp => ?_⟩
        rw [htail p.1 (by simp [List.mem_map_of_mem hp])]
        exact hrest p hp
      · rintro ⟨-, hrest⟩ p hp
        rw [← htail p.1 (by simp [List.mem_map_of_mem hp])]
        exact hrest p hp

/-- What was shown below a part is the log of a search there, if the search went on below the part, and
nothing otherwise. -/
theorem exists_below (h : Visits pred here parts calls) (hs : (parts.map (·.1)).Nodup) {slot : Slot}
    {d : Element} (hd : (slot, d) ∈ parts) :
    ∃ below, (∀ q, (here.push slot).contains (some q) = true → callsOn calls q = callsOn below q) ∧
      (Entered calls (here.push slot) ∧ Visits pred (here.push slot) d.parts below ∨
        ¬ Entered calls (here.push slot) ∧ below = []) := by
  induction parts generalizing calls with
  | nil => cases hd
  | cons p parts ih =>
    obtain ⟨a, e⟩ := p
    obtain ⟨ha, hs⟩ := List.nodup_cons.1 hs
    rcases h.cons_cases ha with ⟨v, hv, rfl⟩ | ⟨v, below, tail, hpass⟩
    · refine ⟨[], fun q hq => callsOn_eq_nil.2 fun c hc hpos => ?_, Or.inr ⟨?_, rfl⟩⟩
      · obtain rfl := List.mem_singleton.1 hc
        rw [← hpos, Position.contains_push, Position.not_ancestorOf_push] at hq
        cases hq
      · rintro ⟨c, hc, hcv⟩
        obtain rfl := List.mem_singleton.1 (mem_callsOn.1 hc).1
        rcases hcv with rfl | rfl <;> cases hv
    · rcases List.mem_cons.1 hd with hd | hd
      · obtain ⟨rfl, rfl⟩ := Prod.mk.inj hd
        refine ⟨below, hpass.on_below, ?_⟩
        rcases hpass.entered with ⟨hv, hbelow⟩ | ⟨rfl, rfl⟩
        · exact Or.inl ⟨⟨_, by rw [hpass.on_slot]; exact List.mem_cons_self, hv⟩, hbelow⟩
        · refine Or.inr ⟨?_, rfl⟩
          simp [Entered, hpass.on_slot]
      · have hne : a ≠ slot := by
          rintro rfl
          exact ha (List.mem_map.2 ⟨_, hd, rfl⟩)
        obtain ⟨below, hon, hcases⟩ := ih hpass.visits hs hd
        have hslot := hpass.on_tail _ (not_ancestorOf_push_push hne)
        refine ⟨below, fun q hq => ?_, ?_⟩
        · rw [hpass.on_tail q ?_, hon q hq]
          rw [Bool.eq_false_iff]
          intro hanc
          exact hne (Position.eq_of_ancestorOf_push hanc (Position.ancestorOf_of_contains hq))
        · simpa only [Entered, hslot] using hcases

/-- A part of a node is shown just if the search went on below the node, which it does at its start
anyway, and no earlier part of that node failed. -/
theorem shown_iff {F : Forest} {r n : Position} {e x : Element} (h : Visits pred r e.parts calls)
    (he : F.get? r = some e) (hn : r.ancestorOf (some n) = true) (hx : F.get? n = some x)
    {before after : List (Slot × Element)} {slot : Slot} {d : Element}
    (hp : x.parts = before ++ (slot, d) :: after) :
    callsOn calls (n.push slot) ≠ [] ↔ (n = r ∨ Entered calls n) ∧
      ∀ p ∈ before, ∀ c ∈ callsOn calls (n.push p.1), c.verdict.isFault = false := by
  obtain ⟨path, rfl⟩ := Position.ancestorOf_iff.1 hn
  induction path generalizing r e calls with
  | nil =>
    rw [Position.extend_nil] at hx ⊢
    obtain rfl := Option.some.inj (he.symm.trans hx)
    rw [h.shown_part e.nodup_slots hp]
    simp
  | cons a path ih =>
    rw [Position.extend_cons] at hx ⊢
    have hanc : (r.push a).ancestorOf (some ((r.push a).extend path)) = true :=
      Position.ancestorOf_iff.2 ⟨path, rfl⟩
    have hne : (r.push a).extend path ≠ r := by
      intro hr
      rw [hr, Position.not_ancestorOf_push] at hanc
      cases hanc
    obtain ⟨y, hy⟩ := Forest.mem_positions.1
      (Forest.mem_positions_of_ancestorOf (Forest.mem_positions.2 ⟨x, hx⟩) hanc)
    have hmem : (a, y) ∈ e.parts := by
      rwa [Forest.get?_push, he, Option.bind_some, ← Element.mem_parts] at hy
    obtain ⟨below, hon, hcases⟩ := h.exists_below e.nodup_slots hmem
    have hparts : ∀ b, callsOn calls (((r.push a).extend path).push b) =
        callsOn below (((r.push a).extend path).push b) := by
      intro b
      exact hon _ (by rwa [Position.contains_push])
    have hself : (r.push a).extend path ≠ r.push a →
        callsOn calls ((r.push a).extend path) = callsOn below ((r.push a).extend path) := by
      intro hne
      exact hon _ ((Position.ancestorOf_iff_eq_or.1 hanc).resolve_left hne)
    simp only [hparts, hne, false_or]
    rcases hcases with ⟨hin, hbelow⟩ | ⟨hout, rfl⟩
    · rw [ih hbelow hy hanc hx]
      refine and_congr_left fun _ => ?_
      by_cases hpart : (r.push a).extend path = r.push a
      · simp [hpart, hin]
      · simp [hpart, Entered, hself hpart]
    · have hnot : ¬ Entered calls ((r.push a).extend path) := by
        by_cases hpart : (r.push a).extend path = r.push a
        · rwa [hpart]
        · simp [Entered, hself hpart]
      simp [hnot]

end Visits

end Search

namespace Forest

open Search

/-- No call on an earlier part of the node that holds the element failed. -/
def Unhindered (F : Forest) (calls : List Call) (a : Position) : Prop :=
  ∀ n, a.parent? = some n → ∀ before after, F.elements n = before ++ a :: after →
    ∀ c ∈ calls, c.position ∈ before → c.verdict.isFault = false

/-- An element is shown just if the search went on below the node that holds it and nothing hindered it
there. -/
theorem shown_push_iff {σ : Type} {pred : Predicate σ} {F : Forest} {r n : Position} {e : Element}
    {calls : List Call} (h : Visits pred r e.parts calls) (he : F.get? r = some e)
    (hn : r.ancestorOf (some n) = true) {slot : Slot} (hpos : n.push slot ∈ F.positions) :
    callsOn calls (n.push slot) ≠ [] ↔
      (n = r ∨ Entered calls n) ∧ F.Unhindered calls (n.push slot) := by
  obtain ⟨x, hx, hpart⟩ := push_mem_positions.1 hpos
  have helements : F.elements n = x.parts.map fun p => n.push p.1 := by
    rw [elements, hx]
  obtain ⟨d, hd⟩ := Option.isSome_iff_exists.1 hpart
  obtain ⟨before, after, hp⟩ := List.append_of_mem (Element.mem_parts.2 hd)
  constructor
  · intro hshown
    refine ⟨((h.shown_iff he hn hx hp).1 hshown).1, ?_⟩
    intro m hm earlier later hsplit c hc hearlier
    obtain rfl : n = m := by simpa using hm
    rw [helements] at hsplit
    obtain ⟨front, back, hparts, rfl, hback⟩ := List.map_eq_append_iff.1 hsplit
    obtain ⟨⟨b, y⟩, rest, rfl, hb, -⟩ := List.map_eq_cons_iff.1 hback
    obtain rfl : b = slot := (Position.push_injective hb).2
    obtain ⟨p, hp, hpc⟩ := List.mem_map.1 hearlier
    exact ((h.shown_iff he hn hx hparts).1 hshown).2 p hp c (mem_callsOn.2 ⟨hc, hpc.symm⟩)
  · rintro ⟨hin, hclear⟩
    refine (h.shown_iff he hn hx hp).2 ⟨hin, fun p hpb c hc => ?_⟩
    obtain ⟨hc, hpc⟩ := mem_callsOn.1 hc
    refine hclear n (Position.parent?_push n slot) (before.map fun p => n.push p.1)
      (after.map fun p => n.push p.1) ?_ c hc (hpc ▸ List.mem_map_of_mem hpb)
    rw [helements, hp, List.map_append, List.map_cons]

/-- An element below the searched node is shown just if nothing hindered it, nor any element above it, and
the search went on below each of these. -/
theorem shown_iff_way {σ : Type} {pred : Predicate σ} {F : Forest} {r : Position} {e : Element}
    {calls : List Call} (h : Visits pred r e.parts calls) (he : F.get? r = some e) {d : Position}
    (hd : d ∈ F.positions) (hrd : r.contains (some d) = true) :
    callsOn calls d ≠ [] ↔ ∀ a, r.contains (some a) = true → a.ancestorOf (some d) = true →
      F.Unhindered calls a ∧ (a ≠ d → Entered calls a) := by
  -- from node to node down the way: one part more at a time
  induction d using Position.push_induction with
  | root tree => simp at hrd
  | push n slot ih =>
    rw [Position.contains_push] at hrd
    have hnF := mem_positions_of_ancestorOf hd (Position.ancestorOf_push n slot)
    have hbelow : n ≠ r → r.contains (some n) = true :=
      (Position.ancestorOf_iff_eq_or.1 hrd).resolve_left
    rw [shown_push_iff h he hrd hd]
    constructor
    · rintro ⟨hin, hfree⟩ a hra had
      rw [Position.ancestorOf_iff_eq_or, Position.contains_push] at had
      rcases had with rfl | had
      · exact ⟨hfree, fun hne => absurd rfl hne⟩
      · have hne : n ≠ r := by
          rintro rfl
          rw [Position.not_ancestorOf_of_contains hra] at had
          cases had
        have hn := hin.resolve_left hne
        have hshown : callsOn calls n ≠ [] := by
          obtain ⟨c, hc, -⟩ := hn
          exact List.ne_nil_of_mem hc
        obtain ⟨hafree, hain⟩ := (ih hnF (hbelow hne)).1 hshown a hra had
        refine ⟨hafree, fun _ => ?_⟩
        by_cases han : a = n
        · rwa [han]
        · exact hain han
    · intro hway
      have hself : r.contains (some (n.push slot)) = true := by rwa [Position.contains_push]
      refine ⟨?_, (hway _ hself (Position.ancestorOf_self _)).1⟩
      by_cases hne : n = r
      · exact Or.inl hne
      · have hneq : n ≠ n.push slot := by
          intro heq
          have := Position.not_ancestorOf_push n slot
          rw [← heq, Position.ancestorOf_self] at this
          cases this
        exact Or.inr ((hway n (hbelow hne) (Position.ancestorOf_push n slot)).2 hneq)

theorem calls_sublist {σ : Type} {pred : Predicate σ} {F : Forest} {r : Position} {e : Element}
    {calls : List Call} (h : Visits pred r e.parts calls) (he : F.get? r = some e) :
    (calls.map (·.position)).Sublist (F.preorder r) := by
  rw [preorder_of_get? he]
  exact h.sublist.cons _

/-- **What a search visits.** Every call shows an element to the predicate together with the node that
holds it, and that is the searched node or below it. The elements are shown in document order, and none
of them twice. An element below the searched node is shown if and only if, all the way down to it, no
call on an earlier part of the same node failed and the search went on below every element above
it. -/
theorem find_visits {σ : Type} (F : Forest) (options : Options) (r : Position) (hr : r ∈ F.positions)
    (pred : Predicate σ) (s : σ) :
    let calls := (F.find options r (.predicate (some pred)) s).calls
    (∀ c ∈ calls, c.position ∈ F.elements c.container ∧ c.position.parent? = some c.container ∧
      (c.container = r ∨ r.contains (some c.container) = true)) ∧
    (calls.map (·.position)).Nodup ∧
    (calls.map (·.position)).Pairwise F.Precedes ∧
    ∀ d ∈ F.positions, r.contains (some d) = true →
      ((∃ c ∈ calls, c.position = d) ↔
        ∀ a, r.contains (some a) = true → a.ancestorOf (some d) = true →
          F.Unhindered calls a ∧
          (a ≠ d → ∃ c ∈ calls, c.position = a ∧ (c.verdict = .accept ∨ c.verdict = .reject))) := by
  obtain ⟨e, he⟩ := mem_positions.1 hr
  rw [find_predicate he]
  have hx := findBelow_explained options pred e r s
  have h := findBelow_visits options pred e r s
  generalize (findBelow options pred e r s) = o at hx h
  intro calls
  have hsub := calls_sublist h he
  refine ⟨fun c hc => ?_, (F.nodup_preorder r).sublist hsub, pairwise_precedes hsub, ?_⟩
  · have hpos := (mem_preorder.1 (hsub.subset (List.mem_map_of_mem hc))).1
    refine ⟨mem_elements_iff.2 ⟨hpos, hx.held c hc⟩, hx.held c hc, ?_⟩
    exact Position.ancestorOf_iff_eq_or.1 (hx.ancestorOf_container hc)
  · have hshown : ∀ d, (∃ c ∈ calls, c.position = d) ↔ callsOn calls d ≠ [] := by
      intro d
      rw [Ne, callsOn_eq_nil]
      simp
    have hentered : ∀ a, (∃ c ∈ calls, c.position = a ∧ (c.verdict = .accept ∨ c.verdict = .reject)) ↔
        Entered calls a := by
      intro a
      simp [Entered, mem_callsOn, and_assoc]
    simp only [hshown, hentered]
    exact fun d hd hrd => shown_iff_way h he hd hrd

/-- The third call prunes a capture that is the type of another one, and the fifth fails on the last child
of that other one. What stands after it there is not shown, what stands after the other one is. -/
theorem find_sample_visits :
    let pred : Predicate Nat := fun _ n =>
      (if n = 2 then .prune else if n = 4 then .fail .unknown else .reject, n + 1)
    let calls := (sample.find {} ⟨0, []⟩ (.predicate (some pred)) 0).calls
    ⟨0, []⟩ ∈ sample.positions ∧
    calls.map (·.position.path) = [[.child 0], [.child 0, .start], [.child 0, .type],
      [.child 0, .child 0], [.child 0, .child 1], [.child 1]] ∧
    (calls.map (·.position)).Pairwise sample.Precedes ∧
    sample.Unhindered calls ⟨0, [.child 1]⟩ ∧
    ¬ ∀ a, Position.contains ⟨0, []⟩ (some a) = true →
      a.ancestorOf (some ⟨0, [.child 0, .finish]⟩) = true → sample.Unhindered calls a ∧
        (a ≠ ⟨0, [.child 0, .finish]⟩ →
          ∃ c ∈ calls, c.position = a ∧ (c.verdict = .accept ∨ c.verdict = .reject)) := by
  intro pred calls
  have hr : ⟨0, []⟩ ∈ sample.positions := by decide
  obtain ⟨-, -, horder, hshown⟩ := find_visits sample {} ⟨0, []⟩ hr pred 0
  refine ⟨hr, by decide, horder, ?_, fun hway => ?_⟩
  · have hlast : ∃ c ∈ calls, c.position = ⟨0, [.child 1]⟩ := by decide
    exact ((hshown ⟨0, [.child 1]⟩ (by decide) (by decide)).1 hlast _ (by decide) (by decide)).1
  · have hfinish : ¬ ∃ c ∈ calls, c.position = ⟨0, [.child 0, .finish]⟩ := by decide
    exact hfinish ((hshown ⟨0, [.child 0, .finish]⟩ (by decide) (by decide)).2 hway)

end Forest

end PatternTree
