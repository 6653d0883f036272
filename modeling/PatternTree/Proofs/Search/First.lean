import PatternTree.Proofs.Search.Faults

/-!
# The first match

The search for the first match is the search for all matches, broken off at the first call that was
accepted or failed: up to there both make the same calls in the same order, and that call is the
answer (`findFirst_breaks_off`). They treat faults below a part differently, but the
difference shows only after the first fault, when the search for the first match is already over.
-/

namespace PatternTree

namespace Call

/-- Whether the search for the first match ends with this call. -/
def decisive (c : Call) : Bool := c.accepted || c.failed

/-- What a decisive call answers. -/
def answer (c : Call) : Option (Option Position) :=
  if c.accepted then some (some c.position) else none

theorem decisive_eq_false {c : Call} :
    c.decisive = false ↔ c.verdict ≠ .accept ∧ c.verdict.isFault = false := by
  simp [decisive, accepted, failed]

theorem filter_accepted_eq_nil {calls : List Call} (h : ∀ c ∈ calls, c.decisive = false) :
    calls.filter (·.accepted) = [] := by
  rw [List.filter_eq_nil_iff]
  intro c hc ha
  have := h c hc
  rw [decisive, ha] at this
  cases this

theorem answer_ne_no_match (c : Call) : c.answer ≠ some none := by
  unfold answer
  split <;> simp

end Call

namespace Search

variable {σ : Type}

/-- `b` makes the calls of `a` up to the first decisive one, and answers what that call answers. If
no call is decisive, `b` makes all of them, finds no match and leaves the predicate in the same
state. -/
inductive BrokenOff (a : Found σ) (b : First σ) : Prop where
  | through (undecided : ∀ c ∈ a.calls, c.decisive = false) (calls : b.calls = a.calls)
      (result : b.result = some none) (state : b.state = a.state)
  | atCall (before : List Call) (c : Call) (after : List Call)
      (split : a.calls = before ++ c :: after) (undecided : ∀ d ∈ before, d.decisive = false)
      (decisive : c.decisive = true) (calls : b.calls = before ++ [c]) (result : b.result = c.answer)

namespace BrokenOff

/-- Undecided calls in front of both searches change nothing. -/
theorem prepend {a a' : Found σ} {b : First σ} {calls : List Call} (h : BrokenOff a b)
    (hc : ∀ c ∈ calls, c.decisive = false) (ha : a'.calls = calls ++ a.calls)
    (hs : a'.state = a.state) (messages : List Message) : BrokenOff a' (b.after calls messages) := by
  cases h with
  | through undecided hcalls hresult hstate =>
    refine .through (fun c hc' => ?_) (by rw [ha, ← hcalls]; rfl) hresult (by rw [hs, ← hstate]; rfl)
    rw [ha] at hc'
    rcases List.mem_append.1 hc' with hc' | hc'
    · exact hc c hc'
    · exact undecided c hc'
  | atCall before c after hsplit undecided decisive hcalls hresult =>
    refine .atCall (calls ++ before) c after (by rw [ha, hsplit, List.append_assoc]) (fun d hd => ?_)
      decisive (by rw [List.append_assoc, ← hcalls]; rfl) hresult
    rcases List.mem_append.1 hd with hd | hd
    · exact hc d hd
    · exact undecided d hd

/-- A part that was neither accepted nor pruned: the search below it, and then that of the other
parts unless the first one was broken off. -/
theorem descend {a sub tail : Found σ} {sub' tail' : First σ} {call : Call}
    (hcall : call.decisive = false) (hsub : BrokenOff sub sub')
    (htail : sub'.state = sub.state → BrokenOff tail tail')
    (ha : a.calls = call :: sub.calls ++ tail.calls) (hs : a.state = tail.state) :
    BrokenOff a
      (match sub'.result with
      | some none => tail'.after (call :: sub'.calls) sub'.messages
      | _ => sub'.after [call] []) := by
  cases hsub with
  | through undecided hcalls hresult hstate =>
    rw [hresult, hcalls]
    refine (htail hstate).prepend (fun c hc => ?_) ha hs sub'.messages
    rcases List.mem_cons.1 hc with rfl | hc
    · exact hcall
    · exact undecided c hc
  | atCall before c after hsplit undecided decisive hcalls hresult =>
    have hb : BrokenOff a (sub'.after [call] []) := by
      refine .atCall (call :: before) c (after ++ tail.calls) (by simp [ha, hsplit]) (fun d hd => ?_)
        decisive (by simp [Outcome.after, hcalls]) hresult
      rcases List.mem_cons.1 hd with rfl | hd
      · exact hcall
      · exact undecided d hd
    have hne := c.answer_ne_no_match
    rw [← hresult] at hne
    split
    · rename_i h
      exact absurd h hne
    · exact hb

/-- Where no call fails, breaking off gives the head of all matches. -/
theorem result_eq_head {a : Found σ} {b : First σ} {here : Position} {slots : List Slot}
    (h : BrokenOff a b) (ha : Explained here slots a) (hf : ∀ c ∈ a.calls, c.failed = false) :
    ∃ ms, a.result = some ms ∧ b.result = some ms.head? := by
  have hne : a.result ≠ none := by
    intro hn
    obtain ⟨c, hc, -, hcf⟩ := ha.lost_iff.1 hn
    rw [hf c hc] at hcf
    cases hcf
  obtain ⟨ms, hms⟩ := Option.ne_none_iff_exists'.1 hne
  refine ⟨ms, hms, ?_⟩
  rw [ha.kept ms hms, survivors_of_not_failed hf]
  cases h with
  | through undecided hcalls hresult hstate =>
    rw [hresult, Call.filter_accepted_eq_nil undecided]
    rfl
  | atCall before c after hsplit undecided decisive hcalls hresult =>
    have hacc : c.accepted = true := by
      have hcf : c.failed = false := hf c (by simp [hsplit])
      rwa [Call.decisive, hcf, Bool.or_false] at decisive
    rw [hresult, hsplit, List.filter_append, Call.filter_accepted_eq_nil undecided, List.nil_append,
      List.filter_cons_of_pos hacc]
    simp [Call.answer, hacc]

end BrokenOff

variable (options : Options) (pred : Predicate σ)

theorem firstParts_brokenOff (here : Position) (parts : List (Slot × Element))
    (h : ∀ p ∈ parts, ∀ r s, BrokenOff (findBelow options pred p.2 r s) (firstBelow options pred p.2 r s))
    (s : σ) :
    BrokenOff (findParts options pred here (parts.map fun p => (p.1, p.2, findBelow options pred p.2)) s)
      (firstParts options pred here (parts.map fun p => (p.1, p.2, firstBelow options pred p.2)) s) := by
  induction parts generalizing s with
  | nil => exact .through (fun c hc => absurd hc List.not_mem_nil) rfl rfl rfl
  | cons p parts ih =>
    obtain ⟨slot, e⟩ := p
    have ih := ih fun p hp => h p (List.mem_cons_of_mem _ hp)
    rw [List.map_cons, List.map_cons, findParts, firstParts]
    generalize pred ⟨here, here.push slot, e⟩ s = answer
    obtain ⟨v, s'⟩ := answer
    have hsub := h _ List.mem_cons_self (here.push slot) s'
    cases v with
    | accept => exact .atCall [] _ _ rfl (by simp) rfl rfl rfl
    | fail fault => exact .atCall [] _ [] rfl (by simp) rfl rfl rfl
    | prune =>
      refine (ih s').prepend (fun c hc => ?_) (by rfl) (by rfl) []
      obtain rfl := List.mem_singleton.1 hc
      rfl
    | reject => exact BrokenOff.descend rfl hsub (fun hst => hst ▸ ih _) rfl rfl

theorem firstBelow_brokenOff (e : Element) (here : Position) (s : σ) :
    BrokenOff (findBelow options pred e here s) (firstBelow options pred e here s) := by
  induction e using Element.induction_parts generalizing here s with
  | h e ih =>
    rw [findBelow_eq, firstBelow_eq]
    exact firstParts_brokenOff options pred here e.parts (fun p hp r s => ih p hp r s) s

end Search

namespace Forest

open Search

theorem findFirst_predicate {F : Forest} {r : Position} {e : Element} (h : F.get? r = some e)
    {σ : Type} (options : Options) (pred : Predicate σ) (s : σ) :
    F.findFirst options r (.predicate (some pred)) s = firstBelow options pred e r s := by
  simp [findFirst, Selector.resolve?, h]

/-- **The first match.** Run from the same state, the search for the first match makes the calls of
the search for all matches up to the first one that was accepted or failed, and gives the accepted
element or fails; if there is no such call it makes all of them and gives no match. So where no
call fails it gives the head of all matches. -/
theorem findFirst_breaks_off {σ : Type} (F : Forest) (options : Options) (r : Position)
    (hr : r ∈ F.positions) (pred : Predicate σ) (s : σ) :
    let a := F.find options r (.predicate (some pred)) s
    let b := F.findFirst options r (.predicate (some pred)) s
    ((∃ before c after, a.calls = before ++ c :: after ∧
        (∀ d ∈ before, d.verdict ≠ .accept ∧ d.verdict.isFault = false) ∧
        b.calls = before ++ [c] ∧
        (c.verdict = .accept ∧ b.result = some (some c.position) ∨
          c.verdict.isFault = true ∧ b.result = none)) ∨
      (∀ d ∈ a.calls, d.verdict ≠ .accept ∧ d.verdict.isFault = false) ∧
        b.calls = a.calls ∧ b.result = some none) ∧
    ((∀ c ∈ a.calls, c.verdict.isFault = false) →
      ∃ ms, a.result = some ms ∧ b.result = some ms.head?) := by
  obtain ⟨e, he⟩ := mem_positions.1 hr
  rw [find_predicate he, findFirst_predicate he]
  have hx := findBelow_explained options pred e r s
  have hb := firstBelow_brokenOff options pred e r s
  generalize findBelow options pred e r s = a at hx hb
  generalize firstBelow options pred e r s = b at hb
  refine ⟨?_, hb.result_eq_head hx⟩
  cases hb with
  | through undecided hcalls hresult hstate =>
    exact Or.inr ⟨fun d hd => Call.decisive_eq_false.1 (undecided d hd), hcalls, hresult⟩
  | atCall before c after hsplit undecided decisive hcalls hresult =>
    refine Or.inl ⟨before, c, after, hsplit, fun d hd => Call.decisive_eq_false.1 (undecided d hd),
      hcalls, ?_⟩
    cases hacc : c.accepted with
    | true => exact Or.inl ⟨by simpa [Call.accepted] using hacc, by simp [hresult, Call.answer, hacc]⟩
    | false =>
      rw [Call.decisive, hacc, Bool.false_or] at decisive
      exact Or.inr ⟨decisive, by simp [hresult, Call.answer, hacc]⟩

/-- The fourth call accepts a child of a group and the fifth one fails. The first match is that
child, while the search for all matches goes on and loses it. -/
theorem findFirst_sample_breaks_off :
    let pred : Predicate Nat := fun _ n =>
      (if n = 3 then .accept else if n = 4 then .fail .unknown else .reject, n + 1)
    let a := sample.find {} ⟨0, []⟩ (.predicate (some pred)) 0
    let b := sample.findFirst {} ⟨0, []⟩ (.predicate (some pred)) 0
    ⟨0, []⟩ ∈ sample.positions ∧ a.result = some [] ∧ a.calls.length = 6 ∧
    b.result = some (some ⟨0, [.child 0, .child 0]⟩) ∧
    ∃ before c after, a.calls = before ++ c :: after ∧ b.calls = before ++ [c] ∧
      c.position = ⟨0, [.child 0, .child 0]⟩ := by
  intro pred a b
  have hr : ⟨0, []⟩ ∈ sample.positions := by decide
  have hb : b.result = some (some ⟨0, [.child 0, .child 0]⟩) := by decide
  refine ⟨hr, by decide, by decide, hb, ?_⟩
  rcases (findFirst_breaks_off sample {} ⟨0, []⟩ hr pred 0).1 with
    ⟨before, c, after, hsplit, -, hcalls, ⟨-, hc⟩ | ⟨-, hc⟩⟩ | ⟨-, -, hc⟩
  · have hpos := Option.some.inj (Option.some.inj (hc.symm.trans hb))
    exact ⟨before, c, after, hsplit, hcalls, hpos⟩
  · cases hc.symm.trans hb
  · cases hc.symm.trans hb

end Forest

end PatternTree
