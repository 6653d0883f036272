import PatternTree.Proofs.Tree.Positions
import PatternTree.Search.Find

/-!
# What a fault costs

A search for all matches leaves a log of its calls. The log alone decides the result
(`find_eq_survivors`): the search fails exactly if a call on a part of the searched node itself
failed, and otherwise it gives the accepted elements in the order of the log, less those that stand
below a node in which a call failed.

The invariant is `Explained`. One part after the other is added to it (`Explained.descend` and the
lemmas before it), and this works because the calls below one part and those below another
are about elements that never contain each other.
-/

namespace PatternTree

/-- Whether the predicate gave no answer. -/
def Verdict.isFault : Verdict → Bool
  | fail _ => true
  | _ => false

namespace Call

def accepted (c : Call) : Bool := c.verdict == .accept

def failed (c : Call) : Bool := c.verdict.isFault

end Call

namespace Search

/-! ## What a log leaves -/

/-- Whether a call of the log failed in a node that contains the position. -/
def lost (log : List Call) (r : Position) : Bool :=
  log.any fun c => c.failed && c.container.contains (some r)

/-- The matches among `calls` that no failure in `log` costs. -/
def spared (log calls : List Call) : List Position :=
  (calls.filter fun c => c.accepted && !lost log c.position).map (·.position)

/-- The matches that a log leaves, in its order. -/
def survivors (log : List Call) : List Position := spared log log

theorem lost_iff {log : List Call} {r : Position} :
    lost log r = true ↔ ∃ c ∈ log, c.failed = true ∧ c.container.contains (some r) = true := by
  simp [lost]

theorem lost_cons_of_not_failed {c : Call} (h : c.failed = false) (log : List Call) (r : Position) :
    lost (c :: log) r = lost log r := by
  simp [lost, h]

theorem lost_append (l m : List Call) (r : Position) : lost (l ++ m) r = (lost l r || lost m r) := by
  simp [lost]

theorem spared_append (log l m : List Call) : spared log (l ++ m) = spared log l ++ spared log m := by
  simp [spared]

theorem spared_congr {log log' calls : List Call}
    (h : ∀ c ∈ calls, lost log c.position = lost log' c.position) :
    spared log calls = spared log' calls := by
  have he : ∀ c ∈ calls, (c.accepted && !lost log c.position) = (c.accepted && !lost log' c.position) :=
    fun c hc => by rw [h c hc]
  rw [spared, spared, List.filter_congr he]

theorem spared_eq_nil {log calls : List Call} (h : ∀ c ∈ calls, lost log c.position = true) :
    spared log calls = [] := by
  rw [spared, List.map_eq_nil_iff, List.filter_eq_nil_iff]
  intro c hc
  simp [h c hc]

theorem spared_singleton (log : List Call) (c : Call) :
    spared log [c] = if c.accepted && !lost log c.position then [c.position] else [] := by
  cases h : c.accepted && !lost log c.position <;> simp [spared, h]

theorem survivors_cons_of_not_failed {c : Call} (hf : c.failed = false) (ha : c.accepted = false)
    (log : List Call) : survivors (c :: log) = survivors log := by
  rw [survivors, survivors, ← List.singleton_append, spared_append, spared_singleton, ha]
  simpa using spared_congr fun d _ => lost_cons_of_not_failed hf log d.position

theorem survivors_of_not_failed {log : List Call} (h : ∀ c ∈ log, c.failed = false) :
    survivors log = (log.filter (·.accepted)).map (·.position) := by
  have hl : ∀ r, lost log r = false := by
    intro r
    rw [lost, List.any_eq_false]
    intro c hc
    simp [h c hc]
  simp [survivors, spared, hl]

theorem mem_survivors {log : List Call} {r : Position} :
    r ∈ survivors log ↔ (∃ c ∈ log, c.accepted = true ∧ c.position = r) ∧ lost log r = false := by
  simp only [survivors, spared, List.mem_map, List.mem_filter, Bool.and_eq_true, Bool.not_eq_true']
  constructor
  · rintro ⟨c, ⟨hc, ha, hl⟩, rfl⟩
    exact ⟨⟨c, hc, ha, rfl⟩, hl⟩
  · rintro ⟨⟨c, hc, ha, rfl⟩, hl⟩
    exact ⟨c, ⟨hc, ha, hl⟩, rfl⟩

/-! ## Outcomes explained by their log -/

/-- The outcome of searching the parts in `slots` of the node at `here`, explained by its calls. -/
structure Explained {σ : Type} (here : Position) (slots : List Slot) (o : Found σ) : Prop where
  /-- The container of a call is the node that holds the element shown. -/
  held : ∀ c ∈ o.calls, c.position.parent? = some c.container
  /-- Only the parts and what is below them are shown. -/
  under : ∀ c ∈ o.calls, ∃ slot ∈ slots, (here.push slot).ancestorOf (some c.position) = true
  /-- The matches are lost exactly if a call failed on a part itself. -/
  lost_iff : o.result = none ↔ ∃ c ∈ o.calls, c.container = here ∧ c.failed = true
  kept : ∀ ms, o.result = some ms → ms = survivors o.calls

namespace Explained

variable {σ : Type} {here : Position} {slots : List Slot} {o : Found σ}

theorem contains_position (h : Explained here slots o) {c : Call} (hc : c ∈ o.calls) :
    here.contains (some c.position) = true := by
  obtain ⟨slot, -, hs⟩ := h.under c hc
  obtain ⟨path, hp⟩ := Position.ancestorOf_iff.1 hs
  exact Position.contains_iff.2 ⟨slot, path, hp⟩

theorem ancestorOf_container (h : Explained here slots o) {c : Call} (hc : c ∈ o.calls) :
    here.ancestorOf (some c.container) = true := by
  obtain ⟨slot, hs⟩ := Position.parent?_eq_some.1 (h.held c hc)
  have := h.contains_position hc
  rwa [hs, Position.contains_push] at this

/-- The container of a call is the searched node itself or stands at or below one of the parts. -/
theorem container_cases (h : Explained here slots o) {c : Call} (hc : c ∈ o.calls) :
    c.container = here ∨
      ∃ slot ∈ slots, (here.push slot).ancestorOf (some c.container) = true := by
  obtain ⟨slot, hslot, hs⟩ := h.under c hc
  obtain ⟨a, ha⟩ := Position.parent?_eq_some.1 (h.held c hc)
  rw [ha, Position.ancestorOf, Bool.or_eq_true, beq_iff_eq, Position.contains_push] at hs
  rcases hs with hs | hs
  · exact Or.inl (Position.push_injective hs).1
  · exact Or.inr ⟨slot, hslot, hs⟩

/-- Failed or not, the outcome gives what its log leaves: a failure on a part costs everything. -/
theorem getD_result (h : Explained here slots o) : o.result.getD [] = survivors o.calls := by
  cases hr : o.result with
  | some ms => exact h.kept ms hr
  | none =>
    obtain ⟨c, hc, rfl, hf⟩ := h.lost_iff.1 hr
    exact (spared_eq_nil fun d hd => Search.lost_iff.2 ⟨c, hc, hf, h.contains_position hd⟩).symm

/-- What failed below one part costs nothing at or below another. -/
theorem lost_eq_false {slot b : Slot} {r : Position} (h : Explained (here.push slot) slots o)
    (hb : b ≠ slot) (hr : (here.push b).ancestorOf (some r) = true) : lost o.calls r = false := by
  rw [Bool.eq_false_iff]
  intro hl
  obtain ⟨c, hc, -, hcr⟩ := Search.lost_iff.1 hl
  have := Position.ancestorOf_trans (h.ancestorOf_container hc) (Position.ancestorOf_of_contains hcr)
  exact hb (Position.eq_of_ancestorOf_push hr this)

/-- If no call failed on a part of `here`, nothing is lost at or below a part that was not
searched. -/
theorem lost_eq_false_of_some {slot : Slot} {r : Position} {ms : List Position}
    (h : Explained here slots o) (hs : slot ∉ slots) (hms : o.result = some ms)
    (hr : (here.push slot).ancestorOf (some r) = true) : lost o.calls r = false := by
  rw [Bool.eq_false_iff]
  intro hl
  obtain ⟨c, hc, hf, hcr⟩ := Search.lost_iff.1 hl
  rcases h.container_cases hc with hh | ⟨b, hb, hbc⟩
  · have := h.lost_iff.2 ⟨c, hc, hh, hf⟩
    rw [hms] at this
    cases this
  · have := Position.ancestorOf_trans hbc (Position.ancestorOf_of_contains hcr)
    exact hs (Position.eq_of_ancestorOf_push this hr ▸ hb)

/-! ## One part more -/

theorem nil (here : Position) (s : σ) : Explained here [] (⟨some [], s, [], []⟩ : Found σ) where
  held c hc := absurd hc List.not_mem_nil
  under c hc := absurd hc List.not_mem_nil
  lost_iff := by simp
  kept ms hms := (Option.some.inj hms).symm

theorem fault {slot : Slot} {v : Verdict} (hv : v.isFault = true) (slots : List Slot) (s : σ)
    (messages : List Message) :
    Explained here (slot :: slots) (⟨none, s, [⟨here, here.push slot, v⟩], messages⟩ : Found σ) where
  held c hc := by
    obtain rfl := List.mem_singleton.1 hc
    exact Position.parent?_push here slot
  under c hc := by
    obtain rfl := List.mem_singleton.1 hc
    exact ⟨slot, List.mem_cons_self, Position.ancestorOf_self _⟩
  lost_iff := by simp [Call.failed, hv]
  kept ms hms := by cases hms

theorem prune {slot : Slot} (h : Explained here slots o) :
    Explained here (slot :: slots) (o.after [⟨here, here.push slot, .prune⟩] []) where
  held c hc := by
    rcases List.mem_cons.1 hc with rfl | hc
    · exact Position.parent?_push here slot
    · exact h.held c hc
  under c hc := by
    rcases List.mem_cons.1 hc with rfl | hc
    · exact ⟨slot, List.mem_cons_self, Position.ancestorOf_self _⟩
    · obtain ⟨a, ha, hs⟩ := h.under c hc
      exact ⟨a, List.mem_cons_of_mem _ ha, hs⟩
  lost_iff := by
    have := h.lost_iff
    simpa [Outcome.after, Call.failed, Verdict.isFault] using this
  kept ms hms := (h.kept ms hms).trans (survivors_cons_of_not_failed rfl rfl o.calls).symm

/-- The calls on and below one part, followed by those of the other parts: each of the three shares
of the log keeps its own matches. -/
theorem survivors_descend {slot : Slot} {v : Verdict} {below : List Slot} {sub tail : Found σ}
    {ms : List Position} (hv : v.isFault = false)
    (hsub : Explained (here.push slot) below sub) (htail : Explained here slots tail)
    (hs : slot ∉ slots) (hms : tail.result = some ms) :
    survivors (⟨here, here.push slot, v⟩ :: sub.calls ++ tail.calls) =
      (if v = .accept then [here.push slot] else []) ++ survivors sub.calls
        ++ survivors tail.calls := by
  have hcall : (⟨here, here.push slot, v⟩ : Call).failed = false := hv
  have hlost : ∀ r, lost (⟨here, here.push slot, v⟩ :: sub.calls ++ tail.calls) r =
      (lost sub.calls r || lost tail.calls r) := by
    intro r
    rw [List.cons_append, lost_cons_of_not_failed hcall, lost_append]
  have hself : lost (⟨here, here.push slot, v⟩ :: sub.calls ++ tail.calls) (here.push slot) = false := by
    have hr := Position.ancestorOf_self (here.push slot)
    rw [hlost, htail.lost_eq_false_of_some hs hms hr, Bool.or_false, Bool.eq_false_iff]
    intro hl
    -- a node below the part would have to contain the part
    obtain ⟨c, hc, -, hcr⟩ := Search.lost_iff.1 hl
    rw [Position.contains_push] at hcr
    have := Position.ancestorOf_trans (hsub.ancestorOf_container hc) hcr
    rw [Position.not_ancestorOf_push] at this
    cases this
  have hbelow : spared (⟨here, here.push slot, v⟩ :: sub.calls ++ tail.calls) sub.calls =
      survivors sub.calls := by
    refine spared_congr fun c hc => ?_
    have hr := Position.ancestorOf_of_contains (hsub.contains_position hc)
    rw [hlost, htail.lost_eq_false_of_some hs hms hr, Bool.or_false]
  have hafter : spared (⟨here, here.push slot, v⟩ :: sub.calls ++ tail.calls) tail.calls =
      survivors tail.calls := by
    refine spared_congr fun c hc => ?_
    obtain ⟨b, hb, hr⟩ := htail.under c hc
    have hne : b ≠ slot := fun h => hs (h ▸ hb)
    rw [hlost, hsub.lost_eq_false hne hr, Bool.false_or]
  generalize hlog : (⟨here, here.push slot, v⟩ :: sub.calls ++ tail.calls : List Call) = log at *
  rw [survivors]
  nth_rewrite 2 [← hlog]
  rw [List.cons_append, ← List.singleton_append, spared_append, spared_append, hbelow, hafter,
    spared_singleton, hself]
  simp [Call.accepted]

theorem descend {slot : Slot} {v : Verdict} {below : List Slot} {sub tail : Found σ}
    (hv : v.isFault = false) (hsub : Explained (here.push slot) below sub)
    (htail : Explained here slots tail) (hs : slot ∉ slots) (messages : List Message) :
    Explained here (slot :: slots)
      ⟨tail.result.map fun ms =>
          (if v = .accept then [here.push slot] else []) ++ sub.result.getD [] ++ ms,
        tail.state, ⟨here, here.push slot, v⟩ :: sub.calls ++ tail.calls, messages⟩ where
  held c hc := by
    rcases List.mem_append.1 hc with hc | hc
    · rcases List.mem_cons.1 hc with rfl | hc
      · exact Position.parent?_push here slot
      · exact hsub.held c hc
    · exact htail.held c hc
  under c hc := by
    rcases List.mem_append.1 hc with hc | hc
    · refine ⟨slot, List.mem_cons_self, ?_⟩
      rcases List.mem_cons.1 hc with rfl | hc
      · exact Position.ancestorOf_self _
      · exact Position.ancestorOf_of_contains (hsub.contains_position hc)
    · obtain ⟨a, ha, hr⟩ := htail.under c hc
      exact ⟨a, List.mem_cons_of_mem _ ha, hr⟩
  lost_iff := by
    rw [Option.map_eq_none_iff, htail.lost_iff]
    constructor
    · rintro ⟨c, hc, hh, hf⟩
      exact ⟨c, List.mem_append_right _ hc, hh, hf⟩
    · rintro ⟨c, hc, hh, hf⟩
      rcases List.mem_append.1 hc with hc | hc
      · rcases List.mem_cons.1 hc with rfl | hc
        · rw [Call.failed, hv] at hf
          cases hf
        · have := hsub.ancestorOf_container hc
          rw [hh, Position.not_ancestorOf_push] at this
          cases this
      · exact ⟨c, hc, hh, hf⟩
  kept ms hms := by
    obtain ⟨ms', hms', rfl⟩ := Option.map_eq_some_iff.1 hms
    rw [survivors_descend hv hsub htail hs hms', ← hsub.getD_result, ← htail.kept ms' hms']

end Explained

/-! ## The whole search -/

variable {σ : Type} (options : Options) (pred : Predicate σ)

/-- Parts in different slots, each with an explained search below it, are searched with an explained
outcome. -/
theorem findParts_explained (here : Position)
    (subs : List (Slot × Element × (Position → σ → Found σ))) (hs : (subs.map (·.1)).Nodup)
    (hsub : ∀ p ∈ subs, ∀ s, ∃ below, Explained (here.push p.1) below (p.2.2 (here.push p.1) s))
    (s : σ) : Explained here (subs.map (·.1)) (findParts options pred here subs s) := by
  induction subs generalizing s with
  | nil => exact Explained.nil here s
  | cons p rest ih =>
    obtain ⟨slot, e, search⟩ := p
    obtain ⟨hslot, hrest⟩ := List.nodup_cons.1 hs
    have ih := ih hrest fun p hp => hsub p (List.mem_cons_of_mem _ hp)
    rw [findParts]
    generalize pred ⟨here, here.push slot, e⟩ s = answer
    obtain ⟨v, s'⟩ := answer
    obtain ⟨below, hbelow⟩ := hsub _ List.mem_cons_self s'
    cases v with
    | accept => exact Explained.descend (v := .accept) rfl hbelow (ih _) hslot _
    | reject => exact Explained.descend (v := .reject) rfl hbelow (ih _) hslot _
    | prune => exact (ih s').prune
    | fail fault => exact Explained.fault rfl _ s' _

theorem findBelow_explained (e : Element) (here : Position) (s : σ) :
    Explained here (e.parts.map (·.1)) (findBelow options pred e here s) := by
  induction e using Element.induction_parts generalizing here s with
  | h e ih =>
    rw [findBelow_eq]
    have hslots : (e.parts.map fun p => (p.1, p.2, findBelow options pred p.2)).map (·.1) =
        e.parts.map (·.1) := by
      simp
    rw [← hslots]
    refine findParts_explained options pred here _ (hslots ▸ e.nodup_slots) ?_ s
    intro p hp s'
    obtain ⟨⟨slot, d⟩, hd, rfl⟩ := List.mem_map.1 hp
    exact ⟨_, ih _ hd (here.push slot) s'⟩

end Search

namespace Forest

open Search

theorem find_predicate {F : Forest} {r : Position} {e : Element} (h : F.get? r = some e)
    {σ : Type} (options : Options) (pred : Predicate σ) (s : σ) :
    F.find options r (.predicate (some pred)) s = findBelow options pred e r s := by
  simp [find, Selector.resolve?, h]

/-- **What a fault costs.** A search for all matches fails exactly if a call failed in the searched
node itself. Otherwise it gives the accepted elements in the order of the calls, less those contained
in a node in which a call failed. So a fault costs all matches below the node in which it arose, and
neither that node nor anything outside of it. -/
theorem find_eq_survivors {σ : Type} (F : Forest) (options : Options) (r : Position)
    (hr : r ∈ F.positions) (pred : Predicate σ) (s : σ) :
    let o := F.find options r (.predicate (some pred)) s
    (o.result = none ↔ ∃ c ∈ o.calls, c.container = r ∧ c.verdict.isFault = true) ∧
    (∀ ms, o.result = some ms →
      ms = (o.calls.filter fun c => c.verdict == .accept &&
        !o.calls.any fun d => d.verdict.isFault && d.container.contains (some c.position)).map
          (·.position)) ∧
    (∀ ms, o.result = some ms → ∀ c ∈ o.calls, c.verdict = .accept →
      (c.position ∈ ms ↔ ∀ d ∈ o.calls, d.verdict.isFault = true →
        d.container.contains (some c.position) = false)) ∧
    ∀ d ∈ o.calls, d.container.contains (some d.container) = false := by
  obtain ⟨e, he⟩ := mem_positions.1 hr
  rw [find_predicate he]
  have h := findBelow_explained options pred e r s
  generalize findBelow options pred e r s = o at h
  refine ⟨h.lost_iff, h.kept, fun ms hms c hc ha => ?_, fun d _ => Position.contains_self _⟩
  have hex : ∃ c' ∈ o.calls, c'.accepted = true ∧ c'.position = c.position :=
    ⟨c, hc, by simp [Call.accepted, ha], rfl⟩
  rw [h.kept ms hms, mem_survivors]
  simp [hex, lost, Call.failed]

/-- The fifth call, on the second child of a group, fails: the group and what stands after it are
still found, the delimiters and the child before it are not. -/
theorem find_sample_survivors :
    let pred : Predicate Nat := fun _ n => (if n = 4 then .fail .unknown else .accept, n + 1)
    let o := sample.find {} ⟨0, []⟩ (.predicate (some pred)) 0
    ⟨0, []⟩ ∈ sample.positions ∧ o.calls.length = 6 ∧
    o.result = some [⟨0, [.child 0]⟩, ⟨0, [.child 1]⟩] ∧
    [⟨0, [.child 0]⟩, ⟨0, [.child 1]⟩] =
      (o.calls.filter fun c => c.verdict == .accept &&
        !o.calls.any fun d => d.verdict.isFault && d.container.contains (some c.position)).map
          (·.position) := by
  intro pred o
  have hr : ⟨0, []⟩ ∈ sample.positions := by decide
  have ho : o.result = some [⟨0, [.child 0]⟩, ⟨0, [.child 1]⟩] := by decide
  exact ⟨hr, by decide, ho, (find_eq_survivors sample {} ⟨0, []⟩ hr pred 0).2.1 _ ho⟩

end Forest

end PatternTree
