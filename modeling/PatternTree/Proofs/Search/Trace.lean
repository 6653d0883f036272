import Mathlib
import PatternTree.Proofs.Search.First

/-!
# What a search traces

While messages are traced, a search tells of every call that failed, once and in the order of the calls. A fault
is told of where it arises. It then passes through the nodes around it, which lose matches to it or give up
altogether, and none of them tells of it again (`findBelow_traced`, `firstBelow_traced`).

Whether messages are traced decides about the messages and about nothing else: two searches that differ in
the options alone are alike in their results, their calls and the state in which they leave the predicate
(`find_alike`, `findFirst_eq`). Both together say what a reader of the trace learns about a search
(`find_traced`).
-/

namespace PatternTree

/-- The searches differ in their messages at most. -/
structure Outcome.Alike {σ ρ : Type} (a b : Outcome σ ρ) : Prop where
  result : a.result = b.result
  state : a.state = b.state
  calls : a.calls = b.calls

/-- The calls that are told of. -/
def Options.reported (options : Options) (calls : List Call) : List Call :=
  calls.filter fun c => options.verbose && c.failed

namespace Options

@[simp]
theorem reported_append (options : Options) (l m : List Call) :
    options.reported (l ++ m) = options.reported l ++ options.reported m := by
  simp [reported]

theorem reported_cons_of_not_failed (options : Options) {c : Call} (h : c.failed = false)
    (calls : List Call) : options.reported (c :: calls) = options.reported calls := by
  simp [reported, h]

end Options

/-- The message names the kind and the content of the element on which the call failed, and the fault. -/
def Forest.Tells (F : Forest) (mode : SearchMode) (c : Call) (m : Message) : Prop :=
  ∃ e fault, F.get? c.position = some e ∧ c.verdict = .fail fault ∧
    m.text = mode.name ++ ": predicate threw on " ++ e.kind.name ++ " \"" ++ e.content ++ "\": " ++ fault.text

namespace Search

variable {σ ρ : Type} {F : Forest} {options : Options} {mode : SearchMode}

/-! ## Messages and calls -/

/-- The messages tell of the calls that failed, one of each, in their order. -/
def Traced (F : Forest) (options : Options) (mode : SearchMode) (o : Outcome σ ρ) : Prop :=
  List.Forall₂ (F.Tells mode) (options.reported o.calls) o.messages

/-- One call that failed, and nothing else. -/
theorem faulted_traced {e : Element} {c : Call} (he : F.get? c.position = some e) {fault : Fault}
    (hc : c.verdict = .fail fault) (result : ρ) (s : σ) :
    Traced F options mode (faulted options mode result e fault c s) := by
  have hfailed : c.failed = true := by rw [Call.failed, hc]; rfl
  have htells : F.Tells mode c (.faulted mode e.kind e.content fault) :=
    ⟨e, fault, he, hc, Message.text_faulted mode e.kind e.content fault⟩
  cases hv : options.verbose <;> simp [Traced, faulted, Options.reported, Options.log, hv, hfailed, htells]

theorem Traced.messages_eq_nil {o : Outcome σ ρ} (h : Traced F options mode o)
    (hv : options.verbose = false) : o.messages = [] := by
  have hnone : options.reported o.calls = [] := by simp [Options.reported, hv]
  rw [Traced, hnone] at h
  exact List.forall₂_nil_left_iff.1 h

/-- What was done before an outcome, and told of, is told of before it. -/
theorem Traced.after {o : Outcome σ ρ} (h : Traced F options mode o) {calls : List Call}
    {messages : List Message}
    (hbefore : List.Forall₂ (F.Tells mode) (options.reported calls) messages) :
    Traced F options mode (o.after calls messages) := by
  rw [Traced, Outcome.after, Options.reported_append]
  exact List.rel_append hbefore h

/-- A call that was answered is not told of. -/
theorem Traced.answered {calls : List Call} {messages : List Message}
    (h : List.Forall₂ (F.Tells mode) (options.reported calls) messages) {c : Call} (hc : c.failed = false) :
    List.Forall₂ (F.Tells mode) (options.reported (c :: calls)) messages := by
  rw [Options.reported_cons_of_not_failed options hc]
  exact h

section

variable (options) (pred : Predicate σ)

theorem findParts_traced {here : Position} {parts : List (Slot × Element)}
    (hF : ∀ p ∈ parts, F.get? (here.push p.1) = some p.2)
    (h : ∀ p ∈ parts, ∀ r s, F.get? r = some p.2 → Traced F options .all (findBelow options pred p.2 r s))
    (s : σ) :
    Traced F options .all
      (findParts options pred here (parts.map fun p => (p.1, p.2, findBelow options pred p.2)) s) := by
  induction parts generalizing s with
  | nil => exact .nil
  | cons p parts ih =>
    obtain ⟨slot, e⟩ := p
    obtain ⟨he, hF⟩ := List.forall_mem_cons.1 hF
    obtain ⟨hbelow, h⟩ := List.forall_mem_cons.1 h
    have ih := ih hF h
    rw [List.map_cons, findParts]
    generalize pred ⟨here, here.push slot, e⟩ s = answer
    obtain ⟨v, s'⟩ := answer
    have hsub := hbelow (here.push slot) s' he
    cases v with
    | accept => exact (ih _).after (Traced.answered hsub rfl)
    | reject => exact (ih _).after (Traced.answered hsub rfl)
    | prune => exact (ih s').after (Traced.answered .nil rfl)
    | fail fault => exact faulted_traced he rfl _ _

theorem findBelow_traced {e : Element} {r : Position} (he : F.get? r = some e) (s : σ) :
    Traced F options .all (findBelow options pred e r s) := by
  induction e using Element.induction_parts generalizing r s with
  | h e ih =>
    rw [findBelow_eq]
    exact findParts_traced options pred (fun p hp => Forest.get?_push_of_mem_parts he hp)
      (fun p hp r s hr => ih p hp hr s) s

theorem firstParts_traced {here : Position} {parts : List (Slot × Element)}
    (hF : ∀ p ∈ parts, F.get? (here.push p.1) = some p.2)
    (h : ∀ p ∈ parts, ∀ r s, F.get? r = some p.2 → Traced F options .first (firstBelow options pred p.2 r s))
    (s : σ) :
    Traced F options .first
      (firstParts options pred here (parts.map fun p => (p.1, p.2, firstBelow options pred p.2)) s) := by
  induction parts generalizing s with
  | nil => exact .nil
  | cons p parts ih =>
    obtain ⟨slot, e⟩ := p
    obtain ⟨he, hF⟩ := List.forall_mem_cons.1 hF
    obtain ⟨hbelow, h⟩ := List.forall_mem_cons.1 h
    have ih := ih hF h
    rw [List.map_cons, firstParts]
    generalize pred ⟨here, here.push slot, e⟩ s = answer
    obtain ⟨v, s'⟩ := answer
    have hsub := hbelow (here.push slot) s' he
    cases v with
    | accept => simp [Traced, Options.reported, Call.failed, Verdict.isFault]
    | prune => exact (ih s').after (Traced.answered .nil rfl)
    | fail fault => exact faulted_traced he rfl _ _
    | reject =>
      -- a fault below the part has been told of there, whether or not the search goes on
      dsimp only
      split
      · exact (ih _).after (Traced.answered hsub rfl)
      · exact hsub.after (Traced.answered .nil rfl)

theorem firstBelow_traced {e : Element} {r : Position} (he : F.get? r = some e) (s : σ) :
    Traced F options .first (firstBelow options pred e r s) := by
  induction e using Element.induction_parts generalizing r s with
  | h e ih =>
    rw [firstBelow_eq]
    exact firstParts_traced options pred (fun p hp => Forest.get?_push_of_mem_parts he hp)
      (fun p hp r s hr => ih p hp hr s) s

end

/-! ## Two runs -/

section

variable (options options' : Options) (pred : Predicate σ)

theorem findParts_alike (here : Position) {parts : List (Slot × Element)}
    (h : ∀ p ∈ parts, ∀ r s, (findBelow options pred p.2 r s).Alike (findBelow options' pred p.2 r s))
    (s : σ) :
    (findParts options pred here (parts.map fun p => (p.1, p.2, findBelow options pred p.2)) s).Alike
      (findParts options' pred here
        (parts.map fun p => (p.1, p.2, findBelow options' pred p.2)) s) := by
  induction parts generalizing s with
  | nil => exact ⟨rfl, rfl, rfl⟩
  | cons p parts ih =>
    obtain ⟨slot, e⟩ := p
    obtain ⟨hbelow, h⟩ := List.forall_mem_cons.1 h
    rw [List.map_cons, List.map_cons, findParts, findParts]
    generalize pred ⟨here, here.push slot, e⟩ s = answer
    obtain ⟨v, s'⟩ := answer
    have hsub := hbelow (here.push slot) s'
    -- the search below the part leaves the predicate in the same state both times
    have htail := ih h (findBelow options pred e (here.push slot) s').state
    nth_rewrite 2 [hsub.state] at htail
    cases v with
    | accept => exact ⟨by simp [hsub.result, htail.result], htail.state, by simp [hsub.calls, htail.calls]⟩
    | reject => exact ⟨by simp [hsub.result, htail.result], htail.state, by simp [hsub.calls, htail.calls]⟩
    | prune =>
      have hrest := ih h s'
      exact ⟨hrest.result, hrest.state, by simp [Outcome.after, hrest.calls]⟩
    | fail fault => exact ⟨rfl, rfl, rfl⟩

theorem findBelow_alike (e : Element) (here : Position) (s : σ) :
    (findBelow options pred e here s).Alike (findBelow options' pred e here s) := by
  induction e using Element.induction_parts generalizing here s with
  | h e ih =>
    rw [findBelow_eq, findBelow_eq]
    exact findParts_alike options options' pred here (fun p hp r s => ih p hp r s) s

end

namespace BrokenOff

variable {a : Found σ} {b : First σ}

/-- What breaking off gives is a matter of the calls up to the first decisive one. -/
theorem eq_first_decisive (h : BrokenOff a b) :
    b.calls = a.calls.takeWhile (!·.decisive) ++ (a.calls.find? (·.decisive)).toList ∧
    b.result = (a.calls.find? (·.decisive)).elim (some none) Call.answer := by
  cases h with
  | through undecided hcalls hresult hstate =>
    have hnone : a.calls.find? (·.decisive) = none :=
      List.find?_eq_none.2 fun c hc => by simp [undecided c hc]
    have hall : a.calls.takeWhile (!·.decisive) = a.calls :=
      List.takeWhile_eq_self_iff.2 fun c hc => by simp [undecided c hc]
    rw [hnone, hall]
    exact ⟨by simp [hcalls], hresult⟩
  | atCall before c after hsplit undecided decisive hcalls hresult =>
    have hfirst : a.calls.find? (·.decisive) = some c := by
      have hnone : before.find? (·.decisive) = none :=
        List.find?_eq_none.2 fun d hd => by simp [undecided d hd]
      rw [hsplit, List.find?_append, hnone, Option.none_or, List.find?_cons_of_pos decisive]
    have hbefore : a.calls.takeWhile (!·.decisive) = before := by
      rw [hsplit, List.takeWhile_append_of_pos fun d hd => by simp [undecided d hd],
        List.takeWhile_cons_of_neg (by simp [decisive]), List.append_nil]
    rw [hfirst, hbefore]
    exact ⟨hcalls, hresult⟩

/-- A search for the first match fails just if its last call failed, and no other call of it can fail. -/
theorem failed_calls (h : BrokenOff a b) :
    b.calls.filter (·.failed) = [] ∧ b.result ≠ none ∨
      ∃ c, b.calls.filter (·.failed) = [c] ∧ b.result = none := by
  have hnone : ∀ calls : List Call, (∀ d ∈ calls, d.decisive = false) → calls.filter (·.failed) = [] := by
    intro calls hcalls
    refine List.filter_eq_nil_iff.2 fun d hd => ?_
    rw [Call.failed, (Call.decisive_eq_false.1 (hcalls d hd)).2]
    exact Bool.false_ne_true
  cases h with
  | through undecided hcalls hresult hstate =>
    exact Or.inl ⟨hcalls ▸ hnone _ undecided, by simp [hresult]⟩
  | atCall before c after hsplit undecided decisive hcalls hresult =>
    rw [hcalls, hresult, List.filter_append, hnone before undecided, List.nil_append, Call.answer]
    cases hacc : c.accepted with
    | true =>
      have hverdict : c.verdict = .accept := by simpa [Call.accepted] using hacc
      exact Or.inl (by simp [Call.failed, hverdict, Verdict.isFault])
    | false =>
      rw [Call.decisive, hacc, Bool.false_or] at decisive
      exact Or.inr ⟨c, by simp [decisive]⟩

end BrokenOff

end Search

namespace Forest

open Search

variable {σ : Type}

/-! ## Whole searches -/

theorem find_alike (F : Forest) (options options' : Options) (r : Position) (want : Selector σ) (s : σ) :
    (F.find options r want s).Alike (F.find options' r want s) := by
  unfold find
  split
  · exact findBelow_alike options options' _ _ r s
  · exact ⟨rfl, rfl, rfl⟩

theorem findFirst_eq (F : Forest) (options options' : Options) (r : Position) (want : Selector σ) (s : σ) :
    (F.findFirst options r want s).calls = (F.findFirst options' r want s).calls ∧
    (F.findFirst options r want s).result = (F.findFirst options' r want s).result := by
  unfold findFirst
  split
  · rename_i pred e _ _
    -- both are broken off from searches with the same calls
    have hcalls := (findBelow_alike options options' pred e r s).calls
    have h := (firstBelow_brokenOff options pred e r s).eq_first_decisive
    have h' := (firstBelow_brokenOff options' pred e r s).eq_first_decisive
    rw [hcalls] at h
    exact ⟨h.1.trans h'.1.symm, h.2.trans h'.2.symm⟩
  · exact ⟨rfl, rfl⟩

theorem find_traces (F : Forest) (options : Options) (r : Position) (want : Selector σ) (s : σ) :
    Traced F options .all (F.find options r want s) := by
  unfold find
  split
  · rename_i pred e _ he
    exact findBelow_traced options pred he s
  · exact .nil

theorem findFirst_traces (F : Forest) (options : Options) (r : Position) (want : Selector σ) (s : σ) :
    Traced F options .first (F.findFirst options r want s) := by
  unfold findFirst
  split
  · rename_i pred e _ he
    exact firstBelow_traced options pred he s
  · exact .nil

/-- A search for the first match whose selector stands for a predicate has one failed call if it fails, and none
otherwise. -/
theorem findFirst_failed {F : Forest} {r : Position} (hr : r ∈ F.positions) (options : Options)
    {want : Selector σ} (hw : want.resolve?.isSome = true) (s : σ) :
    let calls := (F.findFirst options r want s).calls.filter (·.failed)
    calls.length ≤ 1 ∧ (calls.length = 1 ↔ (F.findFirst options r want s).result = none) := by
  obtain ⟨e, he⟩ := mem_positions.1 hr
  obtain ⟨pred, hpred⟩ := Option.isSome_iff_exists.1 hw
  have hfirst : F.findFirst options r want s = firstBelow options pred e r s := by
    simp [findFirst, hpred, he]
  rw [hfirst]
  rcases (firstBelow_brokenOff options pred e r s).failed_calls with ⟨hcalls, hresult⟩ | ⟨c, hcalls, hresult⟩
  · simp [hcalls, hresult]
  · simp [hcalls, hresult]

/-- **What a search traces.** While messages are traced, both searches tell of the calls that failed, one message
for each in their order, with the kind and the content of the element and with the fault. So the search
for the first match tells of one call at most, and it does just if it fails although its selector
stands for a predicate. A selector that stands for none leads to no call and no message. While messages
are not traced there are none, and results and calls are the same. -/
theorem find_traced (F : Forest) (first : UInt32) (r : Position) (hr : r ∈ F.positions) (want : Selector σ)
    (s : σ) :
    let all := F.find ⟨true, first⟩ r want s
    let one := F.findFirst ⟨true, first⟩ r want s
    let allQuiet := F.find ⟨false, first⟩ r want s
    let oneQuiet := F.findFirst ⟨false, first⟩ r want s
    List.Forall₂ (F.Tells .all) (all.calls.filter (·.verdict.isFault)) all.messages ∧
    List.Forall₂ (F.Tells .first) (one.calls.filter (·.verdict.isFault)) one.messages ∧
    one.messages.length ≤ 1 ∧
    (one.messages.length = 1 ↔ one.result = none ∧ want.resolve?.isSome = true) ∧
    (want.resolve? = none →
      all.calls = [] ∧ all.messages = [] ∧ one.calls = [] ∧ one.messages = []) ∧
    (allQuiet.messages = [] ∧ allQuiet.result = all.result ∧ allQuiet.calls = all.calls) ∧
    oneQuiet.messages = [] ∧ oneQuiet.result = one.result ∧ oneQuiet.calls = one.calls := by
  intro all one allQuiet oneQuiet
  have hone : List.Forall₂ (F.Tells .first) (one.calls.filter (·.failed)) one.messages :=
    F.findFirst_traces ⟨true, first⟩ r want s
  have hunresolved : want.resolve? = none →
      all.calls = [] ∧ all.messages = [] ∧ one.calls = [] ∧ one.messages = [] := by
    intro hw
    simp [all, one, find, findFirst, hw]
  have hlength : one.messages.length ≤ 1 ∧
      (one.messages.length = 1 ↔ one.result = none ∧ want.resolve?.isSome = true) := by
    cases hw : want.resolve? with
    | none => simp [(hunresolved hw).2.2.2]
    | some pred =>
      rw [← hone.length_eq]
      simpa using findFirst_failed hr ⟨true, first⟩ (by rw [hw]; rfl) s
  have halike := F.find_alike ⟨false, first⟩ ⟨true, first⟩ r want s
  have hsame := F.findFirst_eq ⟨false, first⟩ ⟨true, first⟩ r want s
  exact ⟨F.find_traces ⟨true, first⟩ r want s, hone, hlength.1, hlength.2, hunresolved,
    ⟨(F.find_traces ⟨false, first⟩ r want s).messages_eq_nil rfl, halike.result, halike.calls⟩,
    (F.findFirst_traces ⟨false, first⟩ r want s).messages_eq_nil rfl, hsame.2, hsame.1⟩

/-- The fifth call fails on a named capture with a description, of which nothing after its NUL is told, and the
sixth fails on a token without one. The search for all matches tells of both, that for the first
match of the one that ended it. -/
theorem find_sample_traced :
    let pred : Predicate Nat := fun _ n =>
      (if n = 4 then .fail (.described "no\x00t") else if n = 5 then .fail .unknown else .reject, n + 1)
    let r : Position := ⟨0, []⟩
    let all := sample.find ⟨true, 1⟩ r (.predicate (some pred)) 0
    let one := sample.findFirst ⟨true, 1⟩ r (.predicate (some pred)) 0
    r ∈ sample.positions ∧
    all.messages.map Message.text =
      ["find: predicate threw on Structure::NamedCapture \"b\": no",
        "find: predicate threw on Token::Literal \"c\": unknown exception"] ∧
    List.Forall₂ (sample.Tells .all) (all.calls.filter (·.verdict.isFault)) all.messages ∧
    one.messages.length = 1 ∧ one.result = none ∧
    (sample.find ⟨false, 1⟩ r (.predicate (some pred)) 0).messages = [] ∧
    (sample.find ⟨false, 1⟩ r (.predicate (some pred)) 0).calls = all.calls := by
  intro pred r all one
  have hr : r ∈ sample.positions := by decide
  have hone : one.result = none := by decide
  obtain ⟨hall, -, -, hlength, -, ⟨hquiet, -, hcalls⟩, -⟩ :=
    find_traced sample 1 r hr (.predicate (some pred)) 0
  exact ⟨hr, by decide +kernel, hall, hlength.2 ⟨hone, rfl⟩, hone, hquiet, hcalls⟩

end Forest

end PatternTree
