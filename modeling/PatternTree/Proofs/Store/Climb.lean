import PatternTree.Store.Basic

/-!
# Going up to the end

The loops that go from parent to parent have no bound. `Climbs` says what they do, move by move, and
counts the moves: it holds of an answer just if the loop ends with it. `climb` sets cells aside on
the way to be sure to stop, and still gives exactly the answers of the loop, in every store
(`climb_eq_some_iff`): a way that ends never comes back to a cell, since it would have to be as long
as a part of itself.
-/

namespace PatternTree.Store

variable {α : Type} {last : Handle → α} {early : Handle → Option α}

/-- The loop that starts at `h` ends after that many moves with an answer. -/
inductive Climbs (last : Handle → α) (early : Handle → Option α) (s : Store) :
    Nat → Handle → α → Prop where
  | last {h : Handle} {c : Cell} (hc : s.cell? h = some c) (hp : c.parent = none) :
      Climbs last early s 0 h (last h)
  | early {h p : Handle} {c : Cell} {a : α} (hc : s.cell? h = some c) (hp : c.parent = some p)
      (ha : early p = some a) : Climbs last early s 0 h a
  | up {k : Nat} {h p : Handle} {c : Cell} {a : α} (hc : s.cell? h = some c)
      (hp : c.parent = some p) (hnone : early p = none) (hrest : Climbs last early s k p a) :
      Climbs last early s (k + 1) h a

/-- The loop is determined by where it starts. -/
theorem Climbs.length_eq {s : Store} {j k : Nat} {h : Handle} {a b : α}
    (hj : Climbs last early s j h a) (hk : Climbs last early s k h b) : j = k := by
  induction hj generalizing k with
  | last hc hp => cases hk <;> simp_all
  | early hc hp ha => cases hk <;> simp_all
  | up hc hp hnone _ ih =>
    cases hk with
    | last hc' hp' => simp_all
    | early hc' hp' ha' => simp_all
    | up hc' hp' _ hrest =>
      obtain rfl := Option.some.inj (hc.symm.trans hc')
      obtain rfl := Option.some.inj (hp.symm.trans hp')
      rw [ih hrest]

/-- Cells that are not met make no difference. -/
theorem Climbs.mono {s t : Store} (h : ∀ x c, t.cell? x = some c → s.cell? x = some c) {k : Nat}
    {x : Handle} {a : α} (ht : Climbs last early t k x a) : Climbs last early s k x a := by
  induction ht with
  | last hc hp => exact .last (h _ _ hc) hp
  | early hc hp ha => exact .early (h _ _ hc) hp ha
  | up hc hp hnone _ ih => exact .up (h _ _ hc) hp hnone ih

theorem climb_of_cell? {s : Store} {h : Handle} {c : Cell} (hc : s.cell? h = some c) :
    s.climb last early h =
      match c.parent with
      | none => some (last h)
      | some p =>
        match early p with
        | some a => some a
        | none => (s.set h none).climb last early p := by
  rw [climb]
  split
  case h_1 hnone => rw [hc] at hnone; cases hnone
  case h_2 c' hc' =>
    obtain rfl := Option.some.inj (hc.symm.trans hc')
    rfl

theorem cell?_of_set_none {s : Store} {h x : Handle} {c d : Cell} (hd : s.cell? h = some d)
    (hc : (s.set h none).cell? x = some c) : s.cell? x = some c := by
  rw [cell?_set (lt_of_cell? hd)] at hc
  split at hc
  · cases hc
  · exact hc

theorem exists_climbs {s : Store} {h : Handle} {a : α} (ha : s.climb last early h = some a) :
    ∃ k, Climbs last early s k h a := by
  fun_induction climb last early s h with
  | case1 => cases ha
  | case2 s h c hc hp => exact ⟨0, Option.some.inj ha ▸ .last hc hp⟩
  | case3 s h c hc p hp b hb => exact ⟨0, .early hc hp (hb.trans ha)⟩
  | case4 s h c hc p hp hnone ih =>
    obtain ⟨k, hk⟩ := ih ha
    exact ⟨k + 1, .up hc hp hnone (hk.mono fun _ _ hx => cell?_of_set_none hc hx)⟩

/-- What has been set aside is met by no loop that is still to end. -/
theorem climb_of_climbs {s t : Store} {k : Nat} {h : Handle} {a : α}
    (hk : Climbs last early s k h a)
    (hsame : ∀ j ≤ k, ∀ x b, Climbs last early s j x b → t.cell? x = s.cell? x) :
    t.climb last early h = some a := by
  induction hk generalizing t with
  | last hc hp =>
    rw [climb_of_cell? ((hsame _ (Nat.le_refl _) _ _ (.last hc hp)).trans hc), hp]
  | early hc hp ha =>
    rw [climb_of_cell? ((hsame _ (Nat.le_refl _) _ _ (.early hc hp ha)).trans hc), hp]
    simp only [ha]
  | @up k h p c a hc hp hnone hrest ih =>
    have hclimbs := Climbs.up hc hp hnone hrest
    have htc : t.cell? h = some c := (hsame _ (Nat.le_refl _) _ _ hclimbs).trans hc
    rw [climb_of_cell? htc, hp]
    simp only [hnone]
    refine ih fun j hj x b hx => ?_
    -- from `h` itself there is one move more to go
    have hne : x ≠ h := by
      rintro rfl
      have := hclimbs.length_eq hx
      omega
    rw [cell?_set (lt_of_cell? htc), if_neg hne]
    exact hsame j (Nat.le_succ_of_le hj) x b hx

/-- **The answer is that of the loop**, and there is none just if the loop has no end. -/
theorem climb_eq_some_iff {s : Store} {h : Handle} {a : α} :
    s.climb last early h = some a ↔ ∃ k, Climbs last early s k h a := by
  constructor
  · exact exists_climbs
  · rintro ⟨k, hk⟩
    exact climb_of_climbs hk fun _ _ _ _ _ => rfl

/-! ## One move -/

theorem exists_cell {s : Store} {h p : Handle} (hp : s.parent? h = some p) :
    ∃ c, s.cell? h = some c ∧ c.parent = some p :=
  Option.bind_eq_some_iff.1 hp

theorem climb_root {s : Store} {h : Handle} (ha : s.alive h = true) (hp : s.parent? h = none) :
    s.climb last early h = some (last h) := by
  obtain ⟨c, hc⟩ := Option.isSome_iff_exists.1 ha
  have hparent : c.parent = none := by
    rwa [parent?, hc] at hp
  rw [climb_of_cell? hc, hparent]

theorem climb_early {s : Store} {h p : Handle} (hp : s.parent? h = some p) {a : α}
    (ha : early p = some a) : s.climb last early h = some a := by
  obtain ⟨c, hc, hparent⟩ := exists_cell hp
  exact climb_eq_some_iff.2 ⟨0, .early hc hparent ha⟩

/-- With nothing to answer at the parent, the loop goes on there. -/
theorem climb_up {s : Store} {h p : Handle} (hp : s.parent? h = some p) (hnone : early p = none) :
    s.climb last early h = s.climb last early p := by
  obtain ⟨c, hc, hparent⟩ := exists_cell hp
  ext a
  rw [climb_eq_some_iff, climb_eq_some_iff]
  constructor
  · rintro ⟨k, hk⟩
    cases hk with
    | last hc' hp' => simp_all
    | early hc' hp' ha' => simp_all
    | @up k _ _ _ _ hc' hp' _ hrest =>
      obtain rfl := Option.some.inj (hc.symm.trans hc')
      obtain rfl := Option.some.inj (hparent.symm.trans hp')
      exact ⟨k, hrest⟩
  · rintro ⟨k, hk⟩
    exact ⟨k + 1, .up hc hparent hnone hk⟩

end PatternTree.Store
