import Mathlib
import PatternTree.Proofs.Tree.Siblings

/-!
# Significant siblings

The nearest significant sibling is found by going along the children from the element's own place, in one of
two directions, until there is a significant one or the row ends. The significant children under their indices
are found by walks of another kind, from either end. The two agree: where `k` significant children come
before a child, the significant sibling before it is the one under `k - 1`, and the one after it is under `k`,
or under `k + 1` if the child is significant itself (`significantSiblings_exact`).

Both ways are compared with the children split at the element: what comes before it, and what
comes after it.
-/

namespace PatternTree

namespace Forest

theorem significant_push {F : Forest} {r : Position} {e : Element} (he : F.get? r = some e) (slot : Slot) :
    F.significant (r.push slot) = (e.part? slot).any Element.significant := by
  rw [significant, get?_push, he]
  rfl

/-! ## Along the row -/

section Row

variable {F : Forest} {r : Position} {e : Element} (he : F.get? r = some e)
  (h : (F.children r).length < 2 ^ 31)

include he h

/-- Beyond the ends of the row the way ends. -/
theorem significantFrom?_end (direction : Direction) {place : Int32}
    (hplace : place.toInt < 0 ∨ (F.children r).length ≤ place.toInt) :
    e.significantFrom? direction place = none := by
  rw [length_children he] at h hplace
  have hrow : ¬ (0 ≤ place ∧ place < Int32.ofNat e.children.length) := by
    rw [Int32.le_iff_toInt_le, Int32.lt_iff_toInt_lt, Int32.toInt_zero, Int32.toInt_ofNat_of_lt h]
    omega
  rw [Element.significantFrom?, if_neg hrow]

/-- One step along the row: a significant child is what is looked for, and otherwise it goes on at the
place beside it. -/
theorem significantFrom?_step (direction : Direction) {place : Int32} {i : Nat} {q : Position}
    (hq : (F.children r)[i]? = some q) (hplace : place.toInt = i) :
    (e.significantFrom? direction place).map r.push =
        (if F.significant q then some q
        else (e.significantFrom? direction (place + direction.offset)).map r.push) ∧
      (place + direction.offset).toInt = i + direction.offset.toInt := by
  have hi := (List.getElem?_eq_some_iff.1 hq).1
  have hrow : 0 ≤ place ∧ place < Int32.ofNat e.children.length := by
    rw [length_children he] at h hi
    rw [Int32.le_iff_toInt_le, Int32.lt_iff_toInt_lt, Int32.toInt_zero, Int32.toInt_ofNat_of_lt h]
    omega
  have hstep : (e.childSlot? place).map r.push = some q := by
    have hchild := step?_child h place
    rw [hplace, entryAt?_natCast, hq, step?, he] at hchild
    exact hchild
  obtain ⟨slot, hslot, rfl⟩ := Option.map_eq_some_iff.1 hstep
  refine ⟨?_, by rw [direction.toInt_add_offset hrow, hplace]⟩
  rw [Element.significantFrom?, if_pos hrow, hslot, Option.bind_some, significant_push he]
  split <;> rfl

/-- Forwards, from the place after `before`. -/
theorem significantFrom?_forward {before after : List Position} (hs : F.children r = before ++ after)
    {place : Int32} (hplace : place.toInt = before.length) :
    (e.significantFrom? .forward place).map r.push = (after.filter F.significant).head? := by
  induction after generalizing before place with
  | nil =>
    have hend : e.significantFrom? .forward place = none := by
      refine significantFrom?_end he h .forward (Or.inr ?_)
      rw [hplace, hs, List.append_nil]
    rw [hend]
    rfl
  | cons q after ih =>
    have hq : (F.children r)[before.length]? = some q := by simp [hs]
    obtain ⟨hstep, hnext⟩ := significantFrom?_step he h .forward hq hplace
    rw [hstep, List.filter_cons]
    split
    · rfl
    · have hs' : F.children r = (before ++ [q]) ++ after := by simp [hs]
      refine ih hs' ?_
      rw [hnext, List.length_append, List.length_singleton]
      rfl

/-- Backwards, from the last place of `before`. -/
theorem significantFrom?_backward {before after : List Position} (hs : F.children r = before ++ after)
    {place : Int32} (hplace : place.toInt = before.length - 1) :
    (e.significantFrom? .backward place).map r.push = (before.filter F.significant).getLast? := by
  induction before using List.reverseRecOn generalizing after place with
  | nil =>
    have hend : e.significantFrom? .backward place = none := by
      refine significantFrom?_end he h .backward (Or.inl ?_)
      rw [hplace]
      decide
    rw [hend]
    rfl
  | append_singleton before q ih =>
    have hq : (F.children r)[before.length]? = some q := by simp [hs]
    have hlast : place.toInt = before.length := by
      rw [hplace, List.length_append, List.length_singleton]
      omega
    obtain ⟨hstep, hnext⟩ := significantFrom?_step he h .backward hq hlast
    rw [hstep, List.filter_append, List.filter_cons]
    split
    · simp
    · rw [List.filter_nil, List.append_nil]
      have hs' : F.children r = before ++ q :: after := by simp [hs]
      refine ih hs' ?_
      rw [hnext]
      rfl

end Row

/-! ## From the element's own place -/

theorem significantSibling?_root {F : Forest} {q : Position} (hroot : q.parent? = none)
    (direction : Direction) : F.significantSibling? q direction = none := by
  simp [significantSibling?, hroot]

theorem significantSibling?_delimiter {F : Forest} {r : Position} {slot : Slot}
    (hq : r.push slot ∈ F.positions) (hslot : slot.isChild = false) (direction : Direction) :
    F.significantSibling? (r.push slot) direction = none := by
  have hmethod : slot.step.method ≠ .child := by
    rcases Slot.eq_delimiter hslot with rfl | rfl | rfl <;> decide
  simp [significantSibling?, index?_eq hq, Position.index?_push, hmethod]

/-- A child begins at the place beside its own. -/
theorem significantSibling?_child {F : Forest} {r q : Position} {i : Nat}
    (h : (F.children r).length < 2 ^ 31) (hq : (F.children r)[i]? = some q) (direction : Direction) :
    ∃ e place, F.get? r = some e ∧ place.toInt = i + direction.offset.toInt ∧
      F.significantSibling? q direction = (e.significantFrom? direction place).map r.push := by
  obtain ⟨rfl, hqF⟩ := getElem?_children.1 hq
  obtain ⟨e, he, -⟩ := push_mem_positions.1 hqF
  have hi := (List.getElem?_eq_some_iff.1 hq).1
  have hplace : (Int32.ofNat i).toInt = i := Int32.toInt_ofNat_of_lt (by omega)
  refine ⟨e, Int32.ofNat i + direction.offset, he, (significantFrom?_step he h direction hq hplace).2, ?_⟩
  simp [significantSibling?, index?_eq hqF, Position.index?_push, Slot.step, he]

section Split

variable {F : Forest} {r q : Position} {before after : List Position}
  (h : (F.children r).length < 2 ^ 31) (hs : F.children r = before ++ q :: after)

include h hs

theorem nextSignificant?_split : F.nextSignificant? q = (after.filter F.significant).head? := by
  have hq : (F.children r)[before.length]? = some q := by simp [hs]
  obtain ⟨e, place, he, hplace, hsibling⟩ := significantSibling?_child h hq .forward
  have hs' : F.children r = (before ++ [q]) ++ after := by simp [hs]
  rw [nextSignificant?, hsibling, significantFrom?_forward he h hs']
  rw [hplace, List.length_append, List.length_singleton]
  rfl

theorem previousSignificant?_split :
    F.previousSignificant? q = (before.filter F.significant).getLast? := by
  have hq : (F.children r)[before.length]? = some q := by simp [hs]
  obtain ⟨e, place, he, hplace, hsibling⟩ := significantSibling?_child h hq .backward
  rw [previousSignificant?, hsibling, significantFrom?_backward he h hs]
  rw [hplace]
  rfl

end Split

/-! ## Under their indices -/

/-- The significant children, split at a child. -/
theorem significantChildren_split {F : Forest} {r q : Position} {before after : List Position}
    (hs : F.children r = before ++ q :: after) :
    F.significantChildren r = before.filter F.significant ++
      ((if F.significant q then [q] else []) ++ after.filter F.significant) := by
  rw [significantChildren_eq, hs, List.filter_append, List.filter_cons]
  split <;> rfl

/-- Where a significant child stands among the significant ones, as many of them come before it. -/
theorem exists_split {F : Forest} {r q : Position} {j : Nat}
    (hj : (F.significantChildren r)[j]? = some q) :
    ∃ before after, F.children r = before ++ q :: after ∧ F.significant q = true ∧
      before.countP F.significant = j := by
  rw [significantChildren_eq] at hj
  obtain ⟨hlt, hget⟩ := List.getElem?_eq_some_iff.1 hj
  have hfilter := List.take_append_drop j ((F.children r).filter F.significant)
  rw [List.drop_eq_getElem_cons hlt, hget] at hfilter
  obtain ⟨front, back, hs, hfront, hback⟩ := List.filter_eq_append_iff.1 hfilter.symm
  obtain ⟨skipped, after, rfl, hskipped, hq, -⟩ := List.filter_eq_cons_iff.1 hback
  refine ⟨front ++ skipped, after, by rw [hs, List.append_assoc], hq, ?_⟩
  rw [List.countP_eq_length_filter, List.filter_append, List.filter_eq_nil_iff.2 hskipped,
    List.append_nil, hfront, List.length_take]
  exact Nat.min_eq_left (Nat.le_of_lt hlt)

theorem significantAt_ofNat {F : Forest} {r : Position} (h : (F.children r).length < 2 ^ 31) {k : Nat}
    (hk : k ≤ (F.children r).length) :
    F.significantAt r (Int32.ofNat k) = .ok (F.significantChildren r)[k]? := by
  rw [significantAt_eq h, Int32.toInt_ofNat_of_lt (by omega), entryAt?_natCast]

/-- The significant sibling after a child is the one under the number of significant children up to it. -/
theorem nextSignificant?_eq_getElem? {F : Forest} {r q : Position} {before after : List Position}
    (h : (F.children r).length < 2 ^ 31) (hs : F.children r = before ++ q :: after) :
    F.nextSignificant? q =
      (F.significantChildren r)[if F.significant q then before.countP F.significant + 1
        else before.countP F.significant]? := by
  rw [nextSignificant?_split h hs, significantChildren_split hs, List.head?_eq_getElem?,
    List.countP_eq_length_filter]
  split
  · rw [List.getElem?_append_right (Nat.le_add_right _ 1), Nat.add_sub_cancel_left]
    rfl
  · rw [List.getElem?_append_right (Nat.le_refl _), Nat.sub_self]
    rfl

/-- The significant sibling before a child is the last of the significant children before it. -/
theorem previousSignificant?_eq_getElem? {F : Forest} {r q : Position} {before after : List Position}
    (h : (F.children r).length < 2 ^ 31) (hs : F.children r = before ++ q :: after)
    (hk : 1 ≤ before.countP F.significant) :
    F.previousSignificant? q = (F.significantChildren r)[before.countP F.significant - 1]? := by
  rw [List.countP_eq_length_filter] at hk ⊢
  rw [previousSignificant?_split h hs, significantChildren_split hs, List.getLast?_eq_getElem?,
    List.getElem?_append_left (by omega)]

/-- To go on to the next significant child and to come back leads to the same child. -/
theorem previousSignificant?_nextSignificant? {F : Forest} {r q f : Position}
    (h : (F.children r).length < 2 ^ 31) (hq : q ∈ F.children r) (hsig : F.significant q = true)
    (hf : F.nextSignificant? q = some f) : F.previousSignificant? f = some q := by
  obtain ⟨before, after, hs⟩ := List.append_of_mem hq
  rw [nextSignificant?_split h hs] at hf
  obtain ⟨rest, hrest⟩ := List.head?_eq_some_iff.1 hf
  -- between the two there is nothing significant
  obtain ⟨skipped, after', rfl, hskipped, -, -⟩ := List.filter_eq_cons_iff.1 hrest
  have hs' : F.children r = (before ++ q :: skipped) ++ f :: after' := by simp [hs]
  rw [previousSignificant?_split h hs', List.filter_append, List.filter_cons_of_pos hsig,
    List.filter_eq_nil_iff.2 hskipped, List.getLast?_concat]

/-- **Significant siblings are neighbours among the significant children.** Let `k` significant children of a
node with fewer than 2^31 children come before a child. The next significant sibling of the child is the
significant child under `k`, or under `k + 1` if it is significant itself, and the previous one is
under `k - 1`, if `k` is not 0. So to go from the first significant child to the next
significant sibling and so on gives all the significant children in their order, and the way back from the next one
leads to where it began. Delimiters and roots have no significant siblings. -/
theorem significantSiblings_exact (F : Forest) :
    (∀ r, (F.children r).length < 2 ^ 31 →
      (∀ before q after, F.children r = before ++ q :: after →
        let k := before.countP F.significant
        F.significantAt r (Int32.ofNat (if F.significant q then k + 1 else k)) =
          .ok (F.nextSignificant? q) ∧
        (1 ≤ k → F.significantAt r (Int32.ofNat (k - 1)) = .ok (F.previousSignificant? q)) ∧
        (k = 0 → F.previousSignificant? q = none)) ∧
      (∃ first, F.significantAt r 0 = .ok first ∧
        Enumerates F.nextSignificant? first (F.significantChildren r)) ∧
      ∀ q ∈ F.children r, F.significant q = true → ∀ f, F.nextSignificant? q = some f →
        F.previousSignificant? f = some q) ∧
    (∀ r, ∀ q ∈ F.elements r, q ∉ F.children r →
      F.nextSignificant? q = none ∧ F.previousSignificant? q = none) ∧
    ∀ q, q.parent? = none → F.nextSignificant? q = none ∧ F.previousSignificant? q = none := by
  refine ⟨fun r h => ⟨?_, ⟨(F.significantChildren r)[0]?, ?_, ?_⟩, ?_⟩, fun r q hq hc => ?_,
    fun q hroot => ?_⟩
  · intro before q after hs k
    have hlength : k + 1 ≤ (F.children r).length := by
      have hle := before.countP_le_length (p := F.significant)
      rw [hs, List.length_append, List.length_cons]
      omega
    refine ⟨?_, fun hpos => ?_, fun hzero => ?_⟩
    · rw [nextSignificant?_eq_getElem? h hs, significantAt_ofNat h (by split <;> omega)]
    · rw [previousSignificant?_eq_getElem? h hs hpos, significantAt_ofNat h (by omega)]
    · have hnone : before.filter F.significant = [] := by
        rwa [← List.length_eq_zero_iff, ← List.countP_eq_length_filter]
      rw [previousSignificant?_split h hs, hnone]
      rfl
  · exact significantAt_ofNat h (Nat.zero_le _)
  · refine .of_getElem? fun j q hj => ?_
    obtain ⟨before, after, hs, hsig, rfl⟩ := exists_split hj
    rw [nextSignificant?_eq_getElem? h hs, if_pos hsig]
  · exact fun q hq hsig f hf => previousSignificant?_nextSignificant? h hq hsig hf
  · obtain ⟨slot, rfl, hslot, hqF⟩ := delimiter_of_not_mem_children hq hc
    exact ⟨significantSibling?_delimiter hqF hslot .forward,
      significantSibling?_delimiter hqF hslot .backward⟩
  · exact ⟨significantSibling?_root hroot .forward, significantSibling?_root hroot .backward⟩

/-- From the comment, which is not significant itself, the literal is before and the group after it, which has
index 1 as one significant child comes before the comment. The blank inside the group has no significant
siblings, and neither has the start of the group. -/
theorem significantSiblings_spaced_exact :
    let r : Position := ⟨0, []⟩
    let literal := r.push (.child 1)
    let group := r.push (.child 3)
    (spaced.children r).length < 2 ^ 31 ∧ spaced.significant (r.push (.child 2)) = false ∧
    spaced.significantAt r 1 = .ok (some group) ∧
    spaced.nextSignificant? (r.push (.child 2)) = some group ∧
    spaced.previousSignificant? (r.push (.child 2)) = some literal ∧
    spaced.nextSignificant? literal = some group ∧ spaced.previousSignificant? group = some literal ∧
    spaced.nextSignificant? (group.push (.child 0)) = none ∧
    spaced.nextSignificant? (group.push .start) = none := by
  intro r literal group
  have hlen : (spaced.children r).length < 2 ^ 31 := by decide
  obtain ⟨hrow, hdelimiter, -⟩ := significantSiblings_exact spaced
  obtain ⟨hindex, -, hback⟩ := hrow r hlen
  have hgroup : spaced.significantAt r 1 = .ok (some group) := by decide
  have hliteral : spaced.significantAt r 0 = .ok (some literal) := by decide
  obtain ⟨hnext, hprevious, -⟩ :=
    hindex [r.push (.child 0), literal] (r.push (.child 2)) [group, r.push (.child 4)] (by decide)
  obtain ⟨hafter, -⟩ :=
    hindex [r.push (.child 0)] literal [r.push (.child 2), group, r.push (.child 4)] (by decide)
  have hafter : spaced.nextSignificant? literal = some group := Except.ok.inj (hafter.symm.trans hgroup)
  obtain ⟨hinside, -⟩ := hrow group (by decide)
  obtain ⟨hblank, -⟩ := hinside [] (group.push (.child 0)) [] (by decide)
  have hnone : spaced.significantAt group 0 = .ok none := by decide
  exact ⟨hlen, by decide, hgroup, Except.ok.inj (hnext.symm.trans hgroup),
    Except.ok.inj ((hprevious (by decide)).symm.trans hliteral), hafter,
    hback literal (by decide) (by decide) group hafter, Except.ok.inj (hblank.symm.trans hnone),
    (hdelimiter group (group.push .start) (by decide) (by decide)).1⟩

end Forest

end PatternTree
