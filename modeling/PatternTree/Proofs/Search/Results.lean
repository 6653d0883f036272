import Mathlib
import PatternTree.Proofs.Search.Visits
import PatternTree.Proofs.Tree.Listing

/-!
# What a search gives

A search shows the elements in document order, and what it gives are some of those it has shown; so
whatever is asked for, and whatever is lost to faults, the result is in document order
(`find_sublist`). As document order is the order of addresses, results can be merged and compared by
address alone (`precedes_iff_nav_lt`). A search by kind, given by code or by name, neither fails nor
prunes, and gives all the elements of that kind (`find_kind`, `find_kind_eq`).
-/

namespace PatternTree

theorem Selector.resolve?_name {σ : Type} {name : String} {kind : Kind}
    (h : Kind.ofName? name = some kind) :
    (Selector.name name : Selector σ).resolve? = some (Predicate.ofKind kind) := by
  rw [resolve?, h]

namespace Search

theorem survivors_sublist (log : List Call) : (survivors log).Sublist (log.map (·.position)) :=
  List.filter_sublist.map _

/-- A search that neither fails nor prunes, and accepts according to the element alone, gives what it
accepts among everything below the node. -/
theorem result_eq_filter {σ : Type} {pred : Predicate σ} {here : Position} {slots : List Slot}
    {parts : List (Slot × Element)} {o : Found σ} (hx : Explained here slots o)
    (hv : Visits pred here parts o.calls) {P : Position → Bool}
    (hP : ∀ c ∈ o.calls, c.verdict = if P c.position then .accept else .reject) :
    o.result = some ((here.below parts).filter P) := by
  have hnone : ∀ c ∈ o.calls, c.failed = false := by
    intro c hc
    rw [Call.failed, hP c hc]
    split <;> rfl
  have hresult : o.result ≠ none := by
    intro hlost
    obtain ⟨c, hc, -, hfailed⟩ := hx.lost_iff.1 hlost
    rw [hnone c hc] at hfailed
    cases hfailed
  obtain ⟨ms, hms⟩ := Option.ne_none_iff_exists'.1 hresult
  have hshown : o.calls.map (·.position) = here.below parts := by
    refine hv.map_position_eq fun c hc => ?_
    rw [hP c hc]
    split
    · exact Or.inl rfl
    · exact Or.inr rfl
  rw [hms, hx.kept ms hms, survivors_of_not_failed hnone, ← hshown, List.filter_map]
  congr 2
  refine List.filter_congr fun c hc => ?_
  rw [Call.accepted, hP c hc, Function.comp_apply]
  cases P c.position <;> rfl

end Search

namespace Forest

open Search

theorem find_sublist {σ : Type} {F : Forest} {options : Options} {r : Position} {want : Selector σ}
    {s : σ} {ms : List Position} (h : (F.find options r want s).result = some ms) :
    ms.Sublist (F.preorder r) := by
  unfold find at h
  split at h
  · rename_i pred e _ he
    rw [(findBelow_explained options pred e r s).kept ms h]
    exact (survivors_sublist _).trans (calls_sublist (findBelow_visits options pred e r s) he)
  · cases h

/-- What a predicate answers that always goes on, and accepts according to the element alone. -/
theorem verdict_accepted {σ : Type} {F : Forest} {r : Position} {e : Element} (he : F.get? r = some e)
    (options : Options) {pred : Predicate σ} {P : Element → Bool}
    (hP : ∀ v s, (pred v s).1 = if P v.element then .accept else .reject) (s : σ) {c : Call}
    (hc : c ∈ (findBelow options pred e r s).calls) :
    c.verdict = if (F.get? c.position).any P then .accept else .reject := by
  obtain ⟨d, hd, s', hs'⟩ :=
    (findBelow_visits options pred e r s).answers (fun _ hp => get?_push_of_mem_parts he hp) hc
  rw [hd, Option.any_some, ← hs']
  exact hP _ s'

/-- A selector whose predicate always goes on, and accepts according to the element alone, gives what it accepts
among everything below the node. -/
theorem find_accepted {σ : Type} {F : Forest} {r : Position} {e : Element} (he : F.get? r = some e)
    (options : Options) {want : Selector σ} {pred : Predicate σ} (hw : want.resolve? = some pred)
    {P : Element → Bool} (hP : ∀ v s, (pred v s).1 = if P v.element then .accept else .reject) (s : σ) :
    (F.find options r want s).result = some ((r.below e.parts).filter fun q => (F.get? q).any P) := by
  have hfind : F.find options r want s = findBelow options pred e r s := by
    simp [find, hw, he]
  rw [hfind]
  exact result_eq_filter (findBelow_explained options _ e r s) (findBelow_visits options pred e r s)
    fun c hc => verdict_accepted he options hP s hc

/-- A selector that stands for a kind, by code or by name, gives everything of that kind below the node. -/
theorem find_kind {σ : Type} {F : Forest} {r : Position} {e : Element} (he : F.get? r = some e)
    (options : Options) {want : Selector σ} {kind : Kind}
    (hw : want.resolve? = some (Predicate.ofKind kind)) (s : σ) :
    (F.find options r want s).result =
      some ((r.below e.parts).filter fun q => (F.get? q).any fun d => d.kind.isa kind) :=
  find_accepted he options hw (fun _ _ => rfl) s

/-- The search by kind gives everything of that kind below the node. -/
theorem find_code {σ : Type} {F : Forest} {r : Position} {e : Element} (he : F.get? r = some e)
    (options : Options) {code : Nat} {kind : Kind} (hk : Kind.ofCode? code = some kind) (s : σ) :
    (F.find options r (.code code) s).result =
      some ((r.below e.parts).filter fun q => (F.get? q).any fun d => d.kind.isa kind) :=
  find_kind he options (by simp [Selector.resolve?, hk]) s

/-- Every kind is one of elements, so a search for these leaves out nothing. -/
theorem find_element {σ : Type} {F : Forest} {r : Position} {e : Element} (he : F.get? r = some e)
    (options : Options) (s : σ) :
    (F.find options r (.code Kind.element.code) s).result = some (r.below e.parts) := by
  have hisa : ∀ k : Kind, k.isa .element = true := by
    intro k
    cases k <;> rfl
  rw [find_code he options rfl, List.filter_eq_self.2]
  intro q hq
  obtain ⟨d, hd⟩ := mem_positions.1 ((mem_below_parts he).1 hq).1
  rw [hd, Option.any_some, hisa]

/-- The search for a kind gives what is of that kind in the preorder, less the node itself. -/
theorem find_kind_eq {σ : Type} {F : Forest} {r : Position} (hr : r ∈ F.positions) (options : Options)
    {want : Selector σ} {kind : Kind} (hw : want.resolve? = some (Predicate.ofKind kind)) (s : σ) :
    ∃ found, (F.find options r want s).result = some found ∧
      (F.preorder r).filter (F.isa kind) = (if F.isa kind r then [r] else []) ++ found := by
  obtain ⟨e, he⟩ := mem_positions.1 hr
  refine ⟨_, find_kind he options hw s, ?_⟩
  rw [preorder_of_get? he, List.filter_cons]
  split <;> rfl

/-- A node whose own kind is not asked for: the search gives all there is of the kind. -/
theorem find_kind_of_not_isa {σ : Type} {F : Forest} {r : Position} (hr : r ∈ F.positions)
    (options : Options) {want : Selector σ} {kind : Kind}
    (hw : want.resolve? = some (Predicate.ofKind kind)) (hkind : F.isa kind r = false) (s : σ) :
    (F.find options r want s).result = some ((F.preorder r).filter (F.isa kind)) := by
  obtain ⟨found, hfound, hfilter⟩ := find_kind_eq hr options hw s
  rw [hfound, hfilter, hkind]
  rfl

/-- The addresses of elements in document order ascend. -/
theorem pairwise_nav {F : Forest} {r : Position} (hF : F.Addressed r.tree) {qs : List Position}
    (hqs : qs.Sublist (F.preorder r)) : (qs.map F.nav).Pairwise (· < ·) := by
  rw [List.pairwise_map]
  refine pairwise_of_sublist hqs fun a ha b hb hat hbt h => ?_
  exact (nav_lt_iff (hat ▸ hF) ha hb (hat.trans hbt.symm)).2 h

/-- **Document order is the order of addresses.** To go through a tree is to visit an element and then to
go through its parts one after the other. One element comes before another on that way if and only if its
path is lexicographically smaller, with the slots of a node in the order start, type, children, finish.
The address spells the path out in steps, and compares as the path does where no node has more
than 2^32 children. So what a search finds is in document order, whatever it looks for and whatever it
loses to faults, and so are the tokens; their addresses ascend. The bound is exact: in every other tree
there are two elements, one before the other, with the same address. -/
theorem precedes_iff_nav_lt (F : Forest) (tree : Nat) :
    (∀ r ∈ F.positions, F.preorder r = r :: (F.elements r).flatMap F.preorder) ∧
    (∀ a ∈ F.positions, ∀ b ∈ F.positions, a.tree = tree → b.tree = tree →
      (F.Precedes a b ↔ a.path < b.path) ∧ F.nav a = a.path.map Slot.step ∧
      (F.Addressed tree → (F.Precedes a b ↔ F.nav a < F.nav b))) ∧
    (∀ r ∈ F.positions, r.tree = tree → ∀ found,
      (found = F.tokens r ∨ ∃ (σ : Type) (options : Options) (want : Selector σ) (s : σ),
        (F.find options r want s).result = some found) →
      found.Pairwise F.Precedes ∧ (F.Addressed tree → (found.map F.nav).Pairwise (· < ·))) ∧
    (¬ F.Addressed tree → ∃ a ∈ F.positions, ∃ b ∈ F.positions, a.tree = tree ∧ b.tree = tree ∧
      F.Precedes a b ∧ F.nav a = F.nav b) := by
  refine ⟨fun r hr => preorder_eq hr, ?_, ?_, ?_⟩
  · intro a ha b hb hat hbt
    obtain rfl := hat
    have hpath := precedes_iff ha hb hbt.symm
    refine ⟨hpath, nav_eq ha, fun hF => ?_⟩
    rw [hpath, nav_lt_iff hF ha hb hbt.symm]
  · intro r hr ht found hfound
    obtain rfl := ht
    have hsub : found.Sublist (F.preorder r) := by
      rcases hfound with rfl | ⟨σ, options, want, s, h⟩
      · exact F.tokens_sublist r
      · exact find_sublist h
    exact ⟨pairwise_precedes hsub, fun hF => pairwise_nav hF hsub⟩
  · intro hF
    obtain ⟨r, -, ht, hr⟩ := not_addressed_iff.1 hF
    exact ⟨_, hr.first_mem, _, hr.last_mem, ht, ht, hr.precedes, hr.nav_last.symm⟩

/-- A start, a type and a child are met in this order, although the method of a child has the lowest
code. The search by kind gives the captures in the order of their addresses. -/
theorem precedes_sample_nav_lt :
    sample.Addressed 0 ∧ sample.Precedes ⟨0, [.child 0, .type]⟩ ⟨0, [.child 0, .child 0]⟩ ∧
    ∃ ms, (sample.find {} ⟨0, []⟩ (.name "Structure::Capture") ()).result = some ms ∧ ms.length = 3 ∧
      (ms.map sample.nav).Pairwise (· < ·) := by
  have hF : sample.Addressed 0 := by unfold Addressed; decide
  obtain ⟨-, horder, hfound, -⟩ := precedes_iff_nav_lt sample 0
  refine ⟨hF, ?_, ?_⟩
  · have hlt : sample.nav ⟨0, [.child 0, .type]⟩ < sample.nav ⟨0, [.child 0, .child 0]⟩ := by decide
    exact ((horder _ (by decide) _ (by decide) rfl rfl).2.2 hF).2 hlt
  · have hms : (sample.find {} ⟨0, []⟩ (.name "Structure::Capture") ()).result =
        some [⟨0, [.child 0]⟩, ⟨0, [.child 0, .type]⟩, ⟨0, [.child 0, .child 1]⟩] := by decide +kernel
    exact ⟨_, hms, rfl, (hfound ⟨0, []⟩ (by decide) rfl _ (Or.inr ⟨Unit, {}, _, (), hms⟩)).2 hF⟩

/-- With one child more than there are indices, the first child comes before the last, and its address is not
smaller. Neither the tokens nor what a search gives are in ascending order of addresses. -/
theorem precedes_crowd_not_nav_lt :
    ⟨0, [.child 0]⟩ ∈ (crowd (2 ^ 32 + 1)).positions ∧
    ⟨0, [.child (2 ^ 32)]⟩ ∈ (crowd (2 ^ 32 + 1)).positions ∧
    ¬ ((crowd (2 ^ 32 + 1)).Precedes ⟨0, [.child 0]⟩ ⟨0, [.child (2 ^ 32)]⟩ ↔
      (crowd (2 ^ 32 + 1)).nav ⟨0, [.child 0]⟩ < (crowd (2 ^ 32 + 1)).nav ⟨0, [.child (2 ^ 32)]⟩) ∧
    ¬ (((crowd (2 ^ 32 + 1)).tokens ⟨0, []⟩).map (crowd (2 ^ 32 + 1)).nav).Pairwise (· < ·) ∧
    ∃ found, ((crowd (2 ^ 32 + 1)).find {} ⟨0, []⟩ (.code Kind.element.code) ()).result = some found ∧
      ¬ (found.map (crowd (2 ^ 32 + 1)).nav).Pairwise (· < ·) := by
  have hcrowd := crowd_crowded
  have hroot := get?_crowd (2 ^ 32 + 1)
  have hbelow : ∀ i, (⟨0, []⟩ : Position).contains (some ⟨0, [.child i]⟩) = true := fun i =>
    Position.contains_iff.2 ⟨.child i, [], rfl⟩
  have htoken : ∀ i < 2 ^ 32 + 1, ⟨0, [.child i]⟩ ∈ (crowd (2 ^ 32 + 1)).tokens ⟨0, []⟩ := fun i hi =>
    (mem_tokens hroot rfl).2 ⟨hbelow i, _, get?_crowd_child hi⟩
  refine ⟨hcrowd.first_mem, hcrowd.last_mem, fun h => ?_, ?_, _, find_element hroot {} (), ?_⟩
  · have hlt := h.1 hcrowd.precedes
    rw [show (crowd (2 ^ 32 + 1)).nav ⟨0, [.child (2 ^ 32)]⟩ = _ from hcrowd.nav_last] at hlt
    exact lt_irrefl _ hlt
  · exact hcrowd.not_ascending (htoken 0 (by omega)) (htoken (2 ^ 32) (by omega))
  · apply hcrowd.not_ascending
    · exact (mem_below_parts hroot).2 ⟨hcrowd.first_mem, hbelow 0⟩
    · exact (mem_below_parts hroot).2 ⟨hcrowd.last_mem, hbelow (2 ^ 32)⟩

end Forest

end PatternTree
