import Mathlib
import PatternTree.Proofs.Lists
import PatternTree.Proofs.Numbering.Order
import PatternTree.Session

/-!
# The number of a capture, from the history of a session

A session only remembers numbers. What they are is told by the numbering passes that were made, each
with its target and its first number (`passes`): a capture has the number that the last pass that
reached it gave it, and that is the first number plus the captures before it in the order of the pass
(`number?_eq_last_pass`). Setting options, counting failures and asking questions leave no trace
in the numbers, except that options decide where later passes start.
-/

namespace PatternTree

/-- What a caller does with a session: give a command, or ask a question, whose answer is computed from
the session. -/
inductive Action : Type 1 where
  | command (c : Command)
  | question {Answer : Type} (ask : Session → Answer)

/-- The numbering pass that a command makes while `options` are in force: its target and its first
number. -/
def Command.pass? (options : Options) : Command → Option (Position × UInt32)
  | .number target start => some (target, start)
  | .finish target => some (target, options.firstCapture)
  | .setOptions .. => none
  | .countFailures _ => none

namespace Session

/-- The session after an action. -/
def act (S : Session) : Action → Session
  | .command c => (S.perform c).2.2
  | .question _ => S

/-- The session after actions in a row. -/
def history (S : Session) (actions : List Action) : Session := actions.foldl act S

/-- The passes that actions make, the first one first. -/
def passes (S : Session) : List Action → List (Position × UInt32)
  | [] => []
  | .command c :: actions => (c.pass? S.options).toList ++ passes (S.act (.command c)) actions
  | .question _ :: actions => passes S actions

/-! ## What actions do to the numbers -/

@[simp]
theorem forest_act (S : Session) (a : Action) : (S.act a).forest = S.forest := by
  cases a with
  | command c => cases c <;> rfl
  | question ask => rfl

theorem assigned_pass (S : Session) (r : Position) (n : UInt32) :
    (S.pass r n).assigned = Numbering.numbered n (S.forest.captures r) := by
  unfold pass
  cases h : S.forest.get? r with
  | some e => exact (Numbering.pass_numbers S.options h n).assigned
  | none => simp [Forest.captures, Forest.childOrder, h, Numbering.numbered]

/-- A command puts the numbers of its pass before those that were given earlier. -/
theorem numbers_act_command (S : Session) (c : Command) :
    (S.act (.command c)).numbers =
      (c.pass? S.options).toList.flatMap
        (fun p => Numbering.numbered p.2 (S.forest.captures p.1)) ++ S.numbers := by
  cases c with
  | setOptions verbose firstCapture => rfl
  | countFailures target => rfl
  | number target start => simp [act, perform, record, Command.pass?, assigned_pass]
  | finish target => simp [act, perform, record, Command.pass?, assigned_pass]

/-- The numbers of a session are those of its passes, the latest pass first. -/
theorem numbers_history (S : Session) (actions : List Action) :
    (S.history actions).numbers =
      (S.passes actions).reverse.flatMap
        (fun p => Numbering.numbered p.2 (S.forest.captures p.1)) ++ S.numbers := by
  induction actions generalizing S with
  | nil => rfl
  | cons a actions ih =>
    have hrec : S.history (a :: actions) = (S.act a).history actions := rfl
    rw [hrec, ih, forest_act]
    cases a with
    | question ask => rfl
    | command c =>
      rw [numbers_act_command, passes, List.reverse_append, List.flatMap_append, List.append_assoc]
      cases c.pass? S.options <;> rfl

end Session

namespace Forest

/-- How many captures come before `c` in the order of a pass over `r`. -/
def capturesBefore (F : Forest) (r c : Position) : Nat :=
  ((F.childOrder r).takeWhile (· != c)).countP F.isCapture

theorem idxOf_filter {F : Forest} {c : Position} (hc : F.isCapture c = true) (l : List Position) :
    c ∈ l → (l.filter F.isCapture).idxOf c = (l.takeWhile (· != c)).countP F.isCapture := by
  induction l with
  | nil => simp
  | cons r l ih =>
    intro h
    by_cases hr : r = c
    · subst hr
      simp [hc]
    · have ih := ih (by simpa [Ne.symm hr] using h)
      have hrc : (r == c) = false := beq_false_of_ne hr
      rw [List.filter_cons, List.takeWhile_cons_of_pos (by simp [hr]), List.countP_cons, ← ih]
      split <;> simp [*]

/-- What one pass gives to a capture. -/
theorem lookup_numbered_captures {F : Forest} {r c : Position} (hc : F.isCapture c = true)
    (n : UInt32) (h : F.Reaches r c) :
    (Numbering.numbered n (F.captures r)).lookup c =
      some (n + UInt32.ofNat (F.capturesBefore r c)) := by
  have hmem := (mem_childOrder (mem_positions_of_isCapture hc)).2 h
  have hcap : c ∈ F.captures r := List.mem_filter.2 ⟨hmem, hc⟩
  rw [Numbering.lookup_numbered, if_pos hcap, capturesBefore, ← idxOf_filter hc _ hmem]
  rfl

theorem lookup_numbered_captures_eq_none_iff {F : Forest} {r c : Position}
    (hc : F.isCapture c = true) (n : UInt32) :
    (Numbering.numbered n (F.captures r)).lookup c = none ↔ ¬ F.Reaches r c := by
  constructor
  · intro hn h
    rw [lookup_numbered_captures hc n h] at hn
    cases hn
  · intro h
    have hcap : c ∉ F.captures r := fun hm =>
      h ((mem_childOrder (mem_positions_of_isCapture hc)).1 (List.mem_filter.1 hm).1)
    rw [Numbering.lookup_numbered, if_neg hcap]

end Forest

namespace Session

/-! ## The last pass -/

/-- **The number of a capture.** At every point of a session a capture has no number exactly if no
pass so far has reached it from its target through children alone. Otherwise its number is the first
number of the last such pass plus the captures before it in the order of that pass, modulo 2^32. -/
theorem number?_eq_last_pass (F : Forest) (options : Options) (actions : List Action) (c : Position)
    (hc : F.isCapture c = true) :
    let S := (start F options).history actions
    let passes := (start F options).passes actions
    (S.number? c = none ↔ ∀ p ∈ passes, ¬ F.Reaches p.1 c) ∧
    ∀ before target first after, passes = before ++ (target, first) :: after →
      F.Reaches target c → (∀ p ∈ after, ¬ F.Reaches p.1 c) →
      ∃ n, S.number? c = some n ∧ n.toNat = (first.toNat + F.capturesBefore target c) % 2 ^ 32 := by
  have hnumbers : ((start F options).history actions).number? c =
      (((start F options).passes actions).reverse.flatMap
        fun p => Numbering.numbered p.2 (F.captures p.1)).lookup c := by
    rw [number?, numbers_history]
    simp [start]
  intro S passes
  refine ⟨?_, fun before target first after hsplit hreach hafter => ?_⟩
  · rw [hnumbers, List.lookup_flatMap_eq_none_iff]
    simp only [List.mem_reverse, Forest.lookup_numbered_captures_eq_none_iff hc]
    rfl
  · have hlater := (List.lookup_flatMap_eq_none_iff
      (fun p : Position × UInt32 => Numbering.numbered p.2 (F.captures p.1)) c after.reverse).2
        fun p hp => (Forest.lookup_numbered_captures_eq_none_iff hc p.2).2
          (hafter p (List.mem_reverse.1 hp))
    refine ⟨first + UInt32.ofNat (F.capturesBefore target c), ?_, ?_⟩
    · rw [hnumbers, show (start F options).passes actions = before ++ (target, first) :: after from hsplit,
        List.reverse_append, List.reverse_cons, List.flatMap_append, List.flatMap_append,
        List.lookup_append, List.lookup_append, hlater, Option.none_or, List.flatMap_singleton,
        Forest.lookup_numbered_captures hc first hreach, Option.some_or]
    · simp [UInt32.toNat_add]

/-- A pass over the whole tree from ten on is followed by one over its capture, from the last number there
is on, and by one over a token. The capture and the named one in it were reached by the first two; they
have the numbers of the second, in which zero follows the last number. A capture that serves as a
delimiter has none. -/
theorem number?_sample_last_pass :
    let actions : List Action := [.command (.number ⟨0, []⟩ 10),
      .command (.setOptions none (some 4294967295)), .question fun S => S.options.verbose,
      .command (.finish ⟨0, [.child 0]⟩), .command (.number ⟨0, [.child 1]⟩ 3)]
    let S := (start Forest.sample {}).history actions
    let outer : Position := ⟨0, [.child 0]⟩
    let c : Position := ⟨0, [.child 0, .child 1]⟩
    let delimiter : Position := ⟨0, [.child 0, .type]⟩
    Forest.sample.isCapture c = true ∧ Forest.sample.isCapture delimiter = true ∧
    (start Forest.sample {}).passes actions =
      [(⟨0, []⟩, 10), (outer, 4294967295), (⟨0, [.child 1]⟩, 3)] ∧
    Forest.sample.Reaches ⟨0, []⟩ c ∧ Forest.sample.Reaches outer c ∧
    (∃ n, S.number? c = some n ∧
      n.toNat = (UInt32.toNat 4294967295 + Forest.sample.capturesBefore outer c) % 2 ^ 32) ∧
    S.number? c = some 0 ∧ S.number? outer = some 4294967295 ∧ S.number? delimiter = none := by
  intro actions S outer c delimiter
  have hc : Forest.sample.isCapture c = true := by decide
  have hd : Forest.sample.isCapture delimiter = true := by decide
  have hpasses : (start Forest.sample {}).passes actions =
      [(⟨0, []⟩, 10), (outer, 4294967295), (⟨0, [.child 1]⟩, 3)] := by decide
  have hreach : ∀ r ∈ [(⟨0, []⟩ : Position), outer], Forest.sample.Reaches r c := by
    intro r hr
    apply (Forest.mem_childOrder (by decide)).1
    fin_cases hr <;> decide
  have hunreached : ∀ r ∈ [(⟨0, []⟩ : Position), outer, ⟨0, [.child 1]⟩],
      ¬ Forest.sample.Reaches r delimiter := by
    intro r hr h
    have hmem := (Forest.mem_childOrder (by decide)).2 h
    fin_cases hr <;> exact absurd hmem (by decide)
  have hlater : ¬ Forest.sample.Reaches ⟨0, [.child 1]⟩ c := fun h =>
    absurd ((Forest.mem_childOrder (by decide)).2 h) (by decide)
  refine ⟨hc, hd, hpasses, hreach _ (by simp), hreach _ (by simp), ?_, by decide, by decide, ?_⟩
  · exact (number?_eq_last_pass Forest.sample {} actions c hc).2 [(⟨0, []⟩, 10)] _ _ [(⟨0, [.child 1]⟩, 3)]
      hpasses (hreach _ (by simp)) (by simpa using hlater)
  · refine (number?_eq_last_pass Forest.sample {} actions delimiter hd).1.2 ?_
    rw [hpasses]
    simpa using hunreached

end Session

end PatternTree
