import Mathlib
import PatternTree.Proofs.Numbering.Document
import PatternTree.Proofs.Search.Trace
import PatternTree.Proofs.Store.Climb
import PatternTree.Proofs.Store.Reading
import PatternTree.Store.Session

/-!
# What commands leave as it was

Commands work on the cells of a store, and all they write is numbers. A store without its numbers is its
`bare` store. No question but the one for a number looks at numbers: each has the same answer in the bare
store (`view_bare`). And no command changes the bare store (`bare_foldl_writeAt`, `perform_agrees`), so all these
answers are the same after any commands as before (`run_keeps_views`).

The numbers themselves are those of a session that only keeps a record of them: a pass over the cells writes what
`Numbering.pass` assigns, one number after the other (`mark_eq`).
-/

namespace PatternTree

/-- The cell without its number. -/
def Cell.bare (c : Cell) : Cell := { c with number := none }

namespace Store

/-! ## Without numbers -/

/-- The store without its numbers. -/
def bare (s : Store) : Store := { s with cells := s.cells.map (Option.map Cell.bare) }

@[simp]
theorem cell?_bare (s : Store) (h : Handle) : s.bare.cell? h = (s.cell? h).map Cell.bare := by
  simp only [cell?, bare, List.getElem?_map]
  cases s.cells[h]? <;> rfl

@[simp]
theorem roots_bare (s : Store) : s.bare.roots = s.roots := rfl

theorem bare_set (s : Store) (h : Handle) (c : Option Cell) :
    (s.set h c).bare = s.bare.set h (c.map Cell.bare) := by
  simp [bare, set, List.map_set]

/-- A number makes no difference to the bare store. -/
@[simp]
theorem bare_setNumber (s : Store) (h : Handle) (n : UInt32) : (s.setNumber h n).bare = s.bare := by
  unfold setNumber
  split
  · rename_i c hc
    have hget : s.bare.cells[h]? = some (some c.bare) := by
      have : s.cells[h]? = some (some c) := Option.join_eq_some_iff.1 hc
      simp [bare, this]
    obtain ⟨hlt, hcell⟩ := List.getElem?_eq_some_iff.1 hget
    have hsame : s.bare.cells.set h (some c.bare) = s.bare.cells := by
      rw [← hcell, List.set_getElem_self]
    rw [bare_set]
    exact congrArg (fun cells => { s.bare with cells }) hsame
  · rfl

theorem number?_setNumber {s : Store} {h : Handle} (ha : s.alive h = true) (n : UInt32) (x : Handle) :
    (s.setNumber h n).number? x = if x = h then some n else s.number? x := by
  obtain ⟨c, hc⟩ := alive_iff.1 ha
  simp only [setNumber, hc, number?, cell?_set (lt_of_cell? hc)]
  split <;> rfl

/-! ## Questions do not look at numbers -/

@[simp]
theorem parent?_bare (s : Store) : s.bare.parent? = s.parent? := by
  funext h
  rw [parent?, parent?, cell?_bare]
  cases s.cell? h <;> rfl

@[simp]
theorem elements_bare (s : Store) : s.bare.elements = s.elements := by
  funext h
  rw [elements, elements, cell?_bare]
  cases s.cell? h <;> rfl

@[simp]
theorem isNode_bare (s : Store) : s.bare.isNode = s.isNode := by
  funext h
  rw [isNode, isNode, cell?_bare]
  cases s.cell? h <;> rfl

@[simp]
theorem part?_bare (s : Store) : s.bare.part? = s.part? := by
  funext h slot
  rw [part?, part?, cell?_bare]
  cases s.cell? h <;> rfl

@[simp]
theorem descend?_bare (s : Store) (h : Handle) (path : Path) :
    s.bare.descend? h path = s.descend? h path := by
  induction path generalizing h with
  | nil => rfl
  | cons slot path ih => simp [descend?, ih]

@[simp]
theorem handle?_bare (s : Store) : s.bare.handle? = s.handle? := by
  funext r
  simp [handle?]

@[simp]
theorem element?_bare (s : Store) : s.bare.element? = s.element? := by
  funext h
  induction h using Nat.strong_induction_on with
  | h h ih =>
    have hparts : (fun p => if _ : p < h then s.bare.element? p else none) =
        fun p => if _ : p < h then s.element? p else none := by
      funext p
      by_cases hp : p < h
      · simp only [hp, dite_true, ih p hp]
      · simp only [hp, dite_false]
    rw [element?, hparts, cell?_bare]
    conv_rhs => rw [element?]
    cases s.cell? h <;> rfl

@[simp]
theorem forest_bare (s : Store) : s.bare.forest = s.forest := by
  simp [forest]

/-- The way up is the same, cell by cell. -/
theorem climb_bare {α : Type} (last : Handle → α) (early : Handle → Option α) (s : Store) (h : Handle) :
    s.bare.climb last early h = s.climb last early h := by
  have hbare : ∀ {s : Store} {h : Handle} {c : Cell}, s.cell? h = some c → s.bare.cell? h = some c.bare :=
    fun hc => by simp [hc]
  fun_induction climb last early s h with
  | case1 s h hnone =>
    rw [climb]
    split
    · rfl
    · rename_i c hc
      simp [hnone] at hc
  | case2 s h c hc hp => rw [climb_of_cell? (hbare hc), show c.bare.parent = none from hp]
  | case3 s h c hc p hp a ha =>
    rw [climb_of_cell? (hbare hc), show c.bare.parent = some p from hp]
    simp only [ha]
  | case4 s h c hc p hp hnone ih =>
    rw [climb_of_cell? (hbare hc), show c.bare.parent = some p from hp]
    simp only [hnone]
    rw [← ih, bare_set]
    rfl

@[simp]
theorem top_bare (s : Store) : s.bare.top = s.top := by
  funext h
  exact climb_bare ..

@[simp]
theorem contains_bare (s : Store) : s.bare.contains = s.contains := by
  funext n other
  cases other with
  | none => rfl
  | some h => exact climb_bare ..

@[simp]
theorem ancestorOf_bare (s : Store) : s.bare.ancestorOf = s.ancestorOf := by
  funext n other
  cases other <;> simp [ancestorOf]

/-- All answers are those of the bare store. -/
theorem view_bare (s : Store) (F : Forest) (r : Position) : s.bare.view F r = s.view F r := by
  simp [view]

section

variable {s t : Store} (h : t.bare = s.bare)

include h

theorem handle?_congr : t.handle? = s.handle? := by rw [← handle?_bare t, h, handle?_bare]

theorem element?_congr : t.element? = s.element? := by rw [← element?_bare t, h, element?_bare]

theorem forest_congr : t.forest = s.forest := by rw [← forest_bare t, h, forest_bare]

theorem view_congr (F : Forest) (r : Position) : t.view F r = s.view F r := by
  rw [← view_bare t, h, view_bare]

theorem Settled.congr (hs : s.Settled) : t.Settled := by
  refine ⟨fun r => ?_, fun hr hq => ?_⟩
  · rw [handle?_congr h, element?_congr h, forest_congr h]
    exact hs.read r
  · rw [handle?_congr h] at hr hq
    exact hs.injective hr hq

end

/-! ## Numbers at positions -/

namespace Settled

variable {s : Store} (hs : s.Settled)

include hs

/-- Where a position leads to a cell, the forest has what is read from it. -/
theorem exists_get? {r : Position} {h : Handle} (hr : s.handle? r = some h) :
    ∃ e, s.forest.get? r = some e ∧ s.element? h = some e := by
  have hread := hs.read r
  rw [hr] at hread
  obtain ⟨e, he, hh⟩ := Option.map_eq_some_iff.1 hread.symm
  exact ⟨e, he, hh.symm⟩

theorem isSome_handle? (r : Position) : (s.handle? r).isSome = (s.forest.get? r).isSome := by
  simpa using congrArg Option.isSome (hs.read r)

theorem alive {r : Position} {h : Handle} (hr : s.handle? r = some h) : s.alive h = true := by
  obtain ⟨e, -, he⟩ := hs.exists_get? hr
  obtain ⟨c, hc, -⟩ := element?_eq_some_iff.1 he
  exact alive_iff.2 ⟨c, hc⟩

end Settled

/-- Writes a number into the cell at a position. -/
def writeAt (s : Store) (w : Position × UInt32) : Store :=
  match s.handle? w.1 with
  | some h => s.setNumber h w.2
  | none => s

@[simp]
theorem bare_writeAt (s : Store) (w : Position × UInt32) : (s.writeAt w).bare = s.bare := by
  unfold writeAt
  split
  · exact bare_setNumber ..
  · rfl

@[simp]
theorem bare_foldl_writeAt (s : Store) (ws : List (Position × UInt32)) :
    (ws.foldl writeAt s).bare = s.bare := by
  induction ws generalizing s with
  | nil => rfl
  | cons w ws ih => rw [List.foldl_cons, ih, bare_writeAt]

theorem numberAt?_writeAt {s : Store} (hs : s.Settled) {w : Position × UInt32}
    (hw : (s.handle? w.1).isSome = true) (r : Position) :
    (s.writeAt w).numberAt? r = if r = w.1 then some w.2 else s.numberAt? r := by
  obtain ⟨h, hh⟩ := Option.isSome_iff_exists.1 hw
  have hnumber := number?_setNumber (hs.alive hh) w.2
  have hwrite : s.writeAt w = s.setNumber h w.2 := by simp [writeAt, hh]
  rw [hwrite, numberAt?, handle?_congr (bare_setNumber s h w.2)]
  by_cases hr : r = w.1
  · subst hr
    simp [hh, hnumber]
  · rw [if_neg hr, numberAt?]
    cases hx : s.handle? r with
    | none => rfl
    | some x =>
      -- another position leads to another cell
      have hne : x ≠ h := fun he => hr (hs.injective hx (he ▸ hh))
      simp [hnumber, hne]

/-- Of numbers for different positions, each stays where it is written. -/
theorem numberAt?_foldl_writeAt {s : Store} (hs : s.Settled) {ws : List (Position × UInt32)}
    (hws : ∀ w ∈ ws, (s.handle? w.1).isSome = true) (hnodup : (ws.map (·.1)).Nodup) (r : Position) :
    (ws.foldl writeAt s).numberAt? r = (ws.lookup r).or (s.numberAt? r) := by
  induction ws generalizing s with
  | nil => rfl
  | cons w ws ih =>
    obtain ⟨q, n⟩ := w
    obtain ⟨hnot, hnodup⟩ := List.nodup_cons.1 hnodup
    have hbare := bare_writeAt s (q, n)
    have hrest : ∀ v ∈ ws, ((s.writeAt (q, n)).handle? v.1).isSome = true := by
      intro v hv
      rw [handle?_congr hbare]
      exact hws v (List.mem_cons_of_mem _ hv)
    rw [List.foldl_cons, ih (hs.congr hbare) hrest hnodup, numberAt?_writeAt hs (hws _ List.mem_cons_self)]
    by_cases hr : r = q
    · subst hr
      have hlater : ws.lookup r = none := by
        rw [List.lookup_eq_none_iff]
        intro v hv
        have : r ≠ v.1 := fun he => hnot (List.mem_map.2 ⟨v, hv, he.symm⟩)
        simpa using this
      simp [hlater]
    · have hhead : (r == q) = false := beq_false_of_ne hr
      simp [List.lookup_cons, hhead, hr]

/-! ## A pass over the cells -/

/-- What a marking comes to when a pass is written down. -/
def Marking.after (m : Marking) (p : Pass) : Marking :=
  ⟨p.assigned.foldl writeAt m.store, p.next, m.messages ++ p.messages⟩

/-- If each of the children is numbered as in a pass, all of them are. -/
theorem foldlM_mark (options : Options) {r : Position} {h : Handle} {cs : List Handle} {es : List Element}
    {i : Nat} {m : Marking}
    (hparts : List.Forall₂ (fun p d => p < h ∧ m.store.element? p = some d) cs es)
    (hslots : ∀ j, m.store.handle? (r.push (.child (i + j))) = cs[j]?)
    (hmark : ∀ d ∈ es, ∀ {q : Position} {x : Handle} {m : Marking}, m.store.handle? q = some x →
      m.store.element? x = some d → mark options x m = .ok (m.after (Numbering.pass options d q m.next))) :
    cs.foldlM (fun m p => if _ : p < h then mark options p m else .error (.younger p)) m =
      .ok (m.after (Numbering.passParts r
        ((Element.childParts i es).map fun p => (p.1, p.2, Numbering.pass options p.2)) m.next)) := by
  induction cs generalizing es i m with
  | nil =>
    cases hparts
    simp [Element.childParts, Numbering.passParts, Marking.after, pure, Except.pure]
  | cons p cs ih =>
    cases hparts with
    | @cons _ d _ es hp hrest =>
      have hfirst := hmark d List.mem_cons_self (hslots 0) hp.2
      have hbare : (m.after (Numbering.pass options d (r.push (.child (i + 0))) m.next)).store.bare =
          m.store.bare := bare_foldl_writeAt ..
      -- the cells of the other children are read as before
      have htail := ih (i := i + 1) (m := m.after (Numbering.pass options d (r.push (.child (i + 0))) m.next))
        (by rwa [element?_congr hbare])
        (fun j => by
          rw [handle?_congr hbare, Nat.add_assoc, Nat.add_comm 1]
          exact hslots (j + 1))
        (fun d hd => hmark d (List.mem_cons_of_mem _ hd))
      rw [List.foldlM_cons, dif_pos hp.1, hfirst]
      refine htail.trans ?_
      simp [Element.childParts, Numbering.passParts, Marking.after]

/-- The pass over a cell writes what the pass over the element assigns. -/
theorem mark_eq (options : Options) {e : Element} {r : Position} {h : Handle} {m : Marking}
    (hr : m.store.handle? r = some h) (he : m.store.element? h = some e) :
    mark options h m = .ok (m.after (Numbering.pass options e r m.next)) := by
  induction e using Element.induction_parts generalizing r h m with
  | h e ih =>
    obtain ⟨c, hc, hfits⟩ := element?_eq_some_iff.1 he
    have hslots : ∀ j, m.store.handle? (r.push (.child (0 + j))) = c.shape.children[j]? := by
      intro j
      rw [handle?_push, hr, Option.bind_some, part?, hc, Option.bind_some, Nat.zero_add]
      rfl
    have hmark : ∀ d ∈ e.children, ∀ {q : Position} {x : Handle} {m : Marking},
        m.store.handle? q = some x → m.store.element? x = some d →
        mark options x m = .ok (m.after (Numbering.pass options d q m.next)) := by
      intro d hd q x m hq hx
      obtain ⟨j, hj⟩ := List.mem_iff_getElem?.1 hd
      exact ih (.child j, d) (Element.mem_parts.2 hj) hq hx
    rw [mark, Numbering.pass_eq, Element.filter_parts, Numbering.passNode, ← hfits.captureForm?]
    simp only [hc]
    cases c.shape.captureForm? with
    | none => exact foldlM_mark options hfits.children hslots hmark
    | some form =>
      have hbare : (m.give options h form).store.bare = m.store.bare := bare_setNumber ..
      have hbelow := foldlM_mark options (m := m.give options h form)
        (by rw [element?_congr hbare]; exact hfits.children)
        (by rw [handle?_congr hbare]; exact hslots) hmark
      refine hbelow.trans ?_
      simp [Marking.after, Marking.give, writeAt, hr]

/-! ## Requests write no numbers -/

theorem Made.number? {s t : Store} {q : Request (Option Handle)} {result : Option Handle}
    (hm : Made s q t result) (hs : ∀ x, s.number? x = none) (x : Handle) : t.number? x = none := by
  have hx := hs x
  unfold Store.number? at hx ⊢
  cases hm with
  | granted hshape hadds =>
    rw [hadds x]
    split
    · rfl
    · split
      · cases hc : s.cell? x <;> simp_all
      · exact hx
  | refused hshape hlinked hkept =>
    cases hc : t.cell? x with
    | none => rfl
    | some c => rwa [← hc, hkept x (alive_iff.2 ⟨c, hc⟩)]

theorem foldlM_perform_number? {s t : Store} {requests : List (Request (Option Nat))} (hs : Sound s)
    (hnone : ∀ x, s.number? x = none) (hrun : requests.foldlM perform s = .ok t) (x : Handle) :
    t.number? x = none := by
  induction requests generalizing s with
  | nil =>
    cases hrun
    exact hnone x
  | cons q requests ih =>
    obtain ⟨u, result, hu, hres, hm⟩ := make_made (hs.ready q)
    rw [List.foldlM_cons, show s.perform q = .ok (u.keep result) from hu] at hrun
    exact ih (hm.sound (hs.ready q) hres) (hm.number? hnone) hrun

end Store

namespace Session

theorem forest_run (S : Session) (commands : List Command) : (S.run commands).forest = S.forest := by
  induction commands generalizing S with
  | nil => rfl
  | cons c commands ih => exact (ih _).trans (S.forest_act (.command c))

/-- A command leaves the numbers that its pass does not reach. -/
theorem number?_perform_of_not_reaches {S : Session} {c : Command} {r : Position}
    (h : ∀ target first, c.pass? S.options = some (target, first) → ¬ S.forest.Reaches target r) :
    (S.perform c).2.2.number? r = S.number? r := by
  have hnumbers := S.numbers_act_command c
  rw [act] at hnumbers
  rw [number?, hnumbers, List.lookup_append]
  cases hp : c.pass? S.options with
  | none => rfl
  | some p =>
    have hnot : r ∉ S.forest.captures p.1 := fun hm => h p.1 p.2 hp (Forest.mem_captures.1 hm).2
    simp [Numbering.lookup_numbered, hnot, number?]

end Session

/-! ## Sessions -/

namespace StoredSession

open Store

/-- The session in store has the forest and the options of the session, and its cells have the numbers that
the session has recorded. -/
structure Agrees (L : StoredSession) (S : Session) : Prop where
  settled : L.store.Settled
  forest : L.store.forest = S.forest
  options : L.options = S.options
  number : ∀ r, L.number? r = S.number? r

variable {L : StoredSession} {S : Session}

theorem Agrees.pass (h : Agrees L S) (r : Position) (n : UInt32) :
    L.pass r n = .ok (Marking.after ⟨L.store, n, []⟩ (S.pass r n)) := by
  unfold StoredSession.pass Session.pass
  rw [← h.forest, ← h.options]
  cases hr : L.store.handle? r with
  | none =>
    have hnone : L.store.forest.get? r = none := by simpa [hr] using (h.settled.isSome_handle? r).symm
    rw [hnone]
    rfl
  | some x =>
    obtain ⟨e, he, hx⟩ := h.settled.exists_get? hr
    rw [he]
    exact mark_eq L.options hr hx

/-- After the same pass the sessions agree again. -/
theorem Agrees.after (h : Agrees L S) (r : Position) (n : UInt32) :
    Agrees { L with store := (S.pass r n).assigned.foldl writeAt L.store } (S.record (S.pass r n)) := by
  have hbare := bare_foldl_writeAt L.store (S.pass r n).assigned
  refine ⟨h.settled.congr hbare, (forest_congr hbare).trans h.forest, h.options, fun q => ?_⟩
  have hassigned := S.assigned_pass r n
  have hkeys : (S.pass r n).assigned.map (·.1) = S.forest.captures r := by
    rw [hassigned, Numbering.map_fst_numbered]
  have hhandles : ∀ w ∈ (S.pass r n).assigned, (L.store.handle? w.1).isSome = true := by
    intro w hw
    have hcapture : w.1 ∈ S.forest.captures r := hkeys ▸ List.mem_map_of_mem hw
    obtain ⟨e, he⟩ := Forest.mem_positions.1
      (Forest.mem_positions_of_isCapture (Forest.mem_captures.1 hcapture).1)
    rw [h.settled.isSome_handle?, h.forest, he, Option.isSome_some]
  have hnumber := h.number q
  rw [number?, Session.number?] at hnumber
  rw [number?, numberAt?_foldl_writeAt h.settled hhandles (hkeys ▸ S.forest.nodup_captures r), hnumber,
    Session.number?, Session.record, List.lookup_append]

/-- A command is carried out alike by sessions that agree, and it writes nothing but numbers. -/
theorem Agrees.perform (h : Agrees L S) (c : Command) :
    ∃ L', L.perform c = .ok ((S.perform c).1, (S.perform c).2.1, L') ∧ Agrees L' (S.perform c).2.2 ∧
      L'.store.bare = L.store.bare := by
  have hfailures : ∀ r, L.unnumbered.failures r = S.failures r := fun r => by
    simp [unnumbered, Session.start, Session.failures, h.forest]
  cases c with
  | setOptions verbose firstCapture =>
    exact ⟨{ L with options := _ }, rfl,
      ⟨h.settled, h.forest, by simp [Session.perform, h.options], h.number⟩, rfl⟩
  | countFailures target =>
    exact ⟨L, by simp only [StoredSession.perform, Session.perform, hfailures], h, rfl⟩
  | number target start =>
    refine ⟨_, ?_, h.after target start, bare_foldl_writeAt ..⟩
    simp only [StoredSession.perform, h.pass, Session.perform]
    rfl
  | finish target =>
    refine ⟨_, ?_, h.after target S.options.firstCapture, bare_foldl_writeAt ..⟩
    have hcontent : ∀ ws : List (Position × UInt32),
        (unnumbered { L with store := ws.foldl writeAt L.store }).content target = S.content target := fun ws => by
      simp [unnumbered, Session.start, Session.content, forest_congr (bare_foldl_writeAt L.store ws),
        h.forest]
    simp only [StoredSession.perform, h.options, h.pass, Session.perform, hfailures]
    simp [bind, Except.bind, pure, Except.pure, Marking.after, ← h.options, hcontent]

theorem Agrees.run (h : Agrees L S) (commands : List Command) :
    ∃ L', L.run commands = .ok L' ∧ Agrees L' (S.run commands) ∧ L'.store.bare = L.store.bare := by
  induction commands generalizing L S with
  | nil => exact ⟨L, rfl, h, rfl⟩
  | cons c commands ih =>
    obtain ⟨L₁, hc, h₁, hbare₁⟩ := h.perform c
    obtain ⟨L₂, hrun, h₂, hbare₂⟩ := ih h₁
    refine ⟨L₂, ?_, h₂, hbare₂.trans hbare₁⟩
    rw [StoredSession.run, List.foldlM_cons, hc]
    exact hrun

/-- A session on what requests have made begins without numbers. -/
theorem start_agrees (requests : List (Request (Option Nat))) (options : Options) :
    ∃ L, start requests options = .ok L ∧
      Agrees L (.start ⟨(Request.elements requests).filterMap id⟩ options) := by
  obtain ⟨s, hrun, hsettled, hforest⟩ := run_reads requests
  have hnone := foldlM_perform_number? empty_sound (fun _ => rfl) hrun
  refine ⟨⟨s, options⟩, by rw [start, hrun]; rfl, hsettled, hforest, rfl, fun r => ?_⟩
  rw [number?, numberAt?, Session.number?]
  cases s.handle? r with
  | none => rfl
  | some h => exact hnone h

theorem Agrees.isSome_view (h : Agrees L S) (r : Position) :
    (L.view r).isSome = true ↔ r ∈ S.forest.positions := by
  rw [Forest.mem_positions, ← Option.isSome_iff_exists, ← h.forest, ← h.settled.isSome_handle?]
  unfold view Store.view
  cases hr : L.store.handle? r with
  | none => simp
  | some x =>
    obtain ⟨e, -, hx⟩ := h.settled.exists_get? hr
    simp [hx]

/-- **What commands leave as it was.** On what any requests have made, commands never crash. After any commands
each element has a view, and it keeps it through any further commands: kind, content, versions, texts and
names, links, parts, indices, paths and siblings, and what contains what. Both searches give the same results for
every selector, although commands may have changed the options. The numbers are those that a record of all passes
tells. Counting failures changes none, and a pass changes none of an element that is not reached from its target
through children. -/
theorem run_keeps_views (requests : List (Request (Option Nat))) (options : Options)
    (earlier later : List Command) :
    let F : Forest := ⟨(Request.elements requests).filterMap id⟩
    ∃ L M, (start requests options >>= fun L => L.run earlier) = .ok L ∧ L.run later = .ok M ∧
      (∀ r, (L.view r).isSome = true ↔ r ∈ F.positions) ∧
      (∀ r, M.view r = L.view r) ∧
      (∀ (σ : Type) (r : Position) (want : Selector σ) (s : σ),
        (M.find r want s).result = (L.find r want s).result ∧
        (M.findFirst r want s).result = (L.findFirst r want s).result) ∧
      (∀ r, M.number? r = ((Session.start F options).run (earlier ++ later)).number? r) ∧
      (∀ target, ∃ reply messages N, L.perform (.countFailures target) = .ok (reply, messages, N) ∧
        ∀ r, N.number? r = L.number? r) ∧
      ∀ c target first, c.pass? L.options = some (target, first) →
        ∃ reply messages N, L.perform c = .ok (reply, messages, N) ∧
          ∀ r, ¬ F.Reaches target r → N.number? r = L.number? r := by
  intro F
  obtain ⟨L₀, hstart, h₀⟩ := start_agrees requests options
  obtain ⟨L, hearlier, h, -⟩ := h₀.run earlier
  obtain ⟨M, hlater, hM, hbare⟩ := h.run later
  have hforest : ((Session.start F options).run earlier).forest = F := Session.forest_run ..
  have hview : ∀ r, M.view r = L.view r := fun r => by
    rw [view, view, forest_congr hbare, view_congr hbare]
  refine ⟨L, M, by rw [hstart]; exact hearlier, hlater, fun r => ?_, hview, fun σ r want s => ?_, fun r => ?_,
    fun target => ?_, fun c target first hc => ?_⟩
  · rw [h.isSome_view, hforest]
  · unfold find findFirst
    rw [forest_congr hbare]
    exact ⟨(Forest.find_alike _ M.options L.options r want s).result,
      (Forest.findFirst_eq _ M.options L.options r want s).2⟩
  · rw [hM.number, Session.run, Session.run, Session.run, List.foldl_append]
  · obtain ⟨N, hN, hagrees, -⟩ := h.perform (.countFailures target)
    refine ⟨_, _, N, hN, fun r => ?_⟩
    rw [hagrees.number, h.number]
    exact Session.number?_perform_of_not_reaches nofun
  · obtain ⟨N, hN, hagrees, -⟩ := h.perform c
    refine ⟨_, _, N, hN, fun r hr => ?_⟩
    rw [hagrees.number, h.number]
    refine Session.number?_perform_of_not_reaches fun T n hpass => ?_
    rw [← h.options, hc] at hpass
    obtain ⟨rfl, rfl⟩ := Prod.mk.inj (Option.some.inj hpass)
    rwa [hforest]

/-- A capture that starts with another capture, in a node. -/
def nestedRequests : List (Request (Option Nat)) :=
  [.group .capture none none [] none, .token (.token .literal) "a" none none,
    .group (.named "n") (some 0) none [some 1] none, .node [some 2]]

/-- The start of the capture has been numbered by a pass of its own. Finishing the tree numbers the capture itself
and leaves the start with its number. -/
theorem nested_keeps_views :
    let outer : Position := ⟨0, [.child 0]⟩
    let inner : Position := ⟨0, [.child 0, .start]⟩
    ∃ L N reply messages, (start nestedRequests {} >>= fun L => L.run [.number inner 7]) = .ok L ∧
      L.number? inner = some 7 ∧ L.number? outer = none ∧
      L.perform (.finish ⟨0, []⟩) = .ok (reply, messages, N) ∧ N.number? inner = L.number? inner ∧
      L.run [.finish ⟨0, []⟩] = .ok N ∧ N.number? outer = some 1 ∧
      ∀ r, N.view r = L.view r := by
  intro outer inner
  let F : Forest := ⟨(Request.elements nestedRequests).filterMap id⟩
  have hnot : ¬ F.Reaches ⟨0, []⟩ inner := fun h =>
    absurd ((Forest.mem_childOrder (by decide +kernel)).2 h) (by decide +kernel)
  obtain ⟨L, L', hL, hL', -, -, -, hbefore, -⟩ := run_keeps_views nestedRequests {} [.number inner 7] []
  obtain ⟨L₁, N, hL₁, hN, -, hview, -, hafter, -, hpass⟩ :=
    run_keeps_views nestedRequests {} [.number inner 7] [.finish ⟨0, []⟩]
  obtain rfl : L = L₁ := Except.ok.inj (hL.symm.trans hL₁)
  obtain rfl : L = L' := Except.ok.inj hL'
  obtain ⟨reply, messages, N', hN', hkeeps⟩ := hpass (.finish ⟨0, []⟩) ⟨0, []⟩ L.options.firstCapture rfl
  obtain rfl : N' = N := by
    have : L.run [.finish ⟨0, []⟩] = .ok N' := by
      rw [run, List.foldlM_cons, hN']
      rfl
    exact Except.ok.inj (this.symm.trans hN)
  refine ⟨L, N', reply, messages, hL, ?_, ?_, hN', hkeeps inner hnot, hN, ?_, hview⟩
  · rw [hbefore]
    decide +kernel
  · rw [hbefore]
    decide +kernel
  · rw [hafter]
    decide +kernel

end StoredSession

end PatternTree
