import Mathlib.Data.List.Basic
import Mathlib.Data.List.Nodup
import Mathlib.Data.List.Perm.Basic
import Mathlib.Logic.Relation
import PatternTree.Store.Make

/-!
# Links in store

The links up and the names of the parts are written at different moments: a cell is added with all its
parts, then the parts are linked one by one, and a refused request clears cells while their holders
are gone already. What holds in between is `Linked`: everything that is alive either is held by one node,
which it is linked to, or is on a list of loose elements. The loose ones are the results that the maker
has, the parts of the request at work, and the cells that are about to be cleared.

A request only moves elements on and off that list (`clear_linked`, `Linked.adds`), and once it is
done the loose ones are the maker's results: that is `Sound`.
-/

namespace PatternTree

namespace Shape

theorem adopted_perm (shape : Shape) : shape.adopted.Perm shape.elements := by
  unfold adopted elements
  refine List.Perm.append_right _ ?_
  rw [List.append_assoc]
  exact List.perm_append_comm

end Shape

namespace Store

/-! ## Cells, links and parts -/

theorem alive_iff {s : Store} {h : Handle} : s.alive h = true ↔ ∃ c, s.cell? h = some c := by
  rw [alive, Option.isSome_iff_exists]

theorem elements_of_cell? {s : Store} {h : Handle} {c : Cell} (hc : s.cell? h = some c) :
    s.elements h = c.shape.elements := by
  simp [elements, hc]

theorem alive_of_parent? {s : Store} {h n : Handle} (hp : s.parent? h = some n) :
    s.alive h = true := by
  obtain ⟨c, hc, -⟩ := Option.bind_eq_some_iff.1 hp
  exact alive_iff.2 ⟨c, hc⟩

theorem alive_of_mem_elements {s : Store} {n p : Handle} (h : p ∈ s.elements n) :
    s.alive n = true := by
  unfold elements at h
  split at h
  · rename_i c hc
    exact alive_iff.2 ⟨c, hc⟩
  · cases h

/-- The links of a store are in step with its parts, except for the loose elements: they are held by
no node, whatever their own links say. -/
structure Linked (s : Store) (loose : List Handle) : Prop where
  loose_alive : ∀ h ∈ loose, s.alive h = true
  loose_nodup : loose.Nodup
  parent : ∀ n, ∀ p ∈ s.elements n, s.parent? p = some n
  not_loose : ∀ n, ∀ p ∈ s.elements n, p ∉ loose
  nodup : ∀ n, (s.elements n).Nodup
  held : ∀ p, s.alive p = true → p ∉ loose → ∃ n, p ∈ s.elements n
  older : ∀ n, ∀ p ∈ s.elements n, p < n

/-- The links of a store between two requests: the loose elements are the maker's, and they are
linked to nobody. -/
structure Sound (s : Store) : Prop where
  linked : Linked s s.roots
  free : ∀ r ∈ s.roots, s.parent? r = none

namespace Linked

variable {s t : Store} {loose loose' : List Handle}

theorem perm (h : Linked s loose) (hp : loose.Perm loose') : Linked s loose' where
  loose_alive x hx := h.loose_alive x (hp.mem_iff.2 hx)
  loose_nodup := hp.nodup_iff.1 h.loose_nodup
  parent := h.parent
  not_loose n p hn hl := h.not_loose n p hn (hp.mem_iff.2 hl)
  nodup := h.nodup
  held p ha hl := h.held p ha fun hm => hl (hp.mem_iff.1 hm)
  older := h.older

/-- Only the cells matter. -/
theorem of_cell? (h : Linked s loose) (hc : ∀ x, t.cell? x = s.cell? x) : Linked t loose := by
  have halive : t.alive = s.alive := funext fun x => by simp [alive, hc]
  have helements : t.elements = s.elements := funext fun x => by simp [elements, hc]
  have hparent : t.parent? = s.parent? := funext fun x => by simp [parent?, hc]
  obtain ⟨h1, h2, h3, h4, h5, h6, h7⟩ := h
  rw [← halive] at h1 h6
  rw [← helements] at h3 h4 h5 h6 h7
  rw [← hparent] at h3
  exact ⟨h1, h2, h3, h4, h5, h6, h7⟩

theorem lt_length (h : Linked s loose) {n p : Handle} (hp : p ∈ s.elements n) :
    p < n ∧ n < s.cells.length := by
  obtain ⟨c, hc⟩ := alive_iff.1 (alive_of_mem_elements hp)
  exact ⟨h.older n p hp, lt_of_cell? hc⟩

/-! ## Clearing -/

/-- When a loose cell is cleared, its parts are loose instead. -/
theorem clear_one {h : Handle} {c : Cell} (hl : Linked s (h :: loose)) (hc : s.cell? h = some c) :
    Linked (s.set h none) (c.shape.elements ++ loose) := by
  have hparts := elements_of_cell? hc
  have hcell := cell?_set (lt_of_cell? hc) none
  have halive : ∀ x, (s.set h none).alive x = true ↔ x ≠ h ∧ s.alive x = true := by
    intro x
    by_cases hx : x = h <;> simp [alive, hcell, hx]
  have helements : ∀ n p, p ∈ (s.set h none).elements n ↔ n ≠ h ∧ p ∈ s.elements n := by
    intro n p
    by_cases hn : n = h <;> simp [elements, hcell, hn]
  have hne : ∀ n, ∀ p ∈ s.elements n, p ≠ h := by
    rintro n p hp rfl
    exact hl.not_loose n p hp List.mem_cons_self
  obtain ⟨hnot, hnodup⟩ := List.nodup_cons.1 hl.loose_nodup
  rw [← hparts]
  refine ⟨?_, ?_, ?_, ?_, ?_, ?_, ?_⟩
  · intro x hx
    rw [halive]
    rcases List.mem_append.1 hx with hx | hx
    · exact ⟨hne h x hx, alive_of_parent? (hl.parent h x hx)⟩
    · exact ⟨fun he => hnot (he ▸ hx), hl.loose_alive x (List.mem_cons_of_mem _ hx)⟩
  · refine List.nodup_append'.2 ⟨hl.nodup h, hnodup, fun x hx hx' => ?_⟩
    exact hl.not_loose h x hx (List.mem_cons_of_mem _ hx')
  · intro n p hp
    obtain ⟨-, hp⟩ := (helements n p).1 hp
    rw [parent?, hcell, if_neg (hne n p hp)]
    exact hl.parent n p hp
  · intro n p hp hx
    obtain ⟨hn, hp⟩ := (helements n p).1 hp
    rcases List.mem_append.1 hx with hx | hx
    · -- a part of `h` is linked to `h` and cannot be a part of `n` as well
      have := (hl.parent h p hx).symm.trans (hl.parent n p hp)
      exact hn (Option.some.inj this).symm
    · exact hl.not_loose n p hp (List.mem_cons_of_mem _ hx)
  · intro n
    by_cases hn : n = h
    · simp [elements, hcell, hn]
    · have : (s.set h none).elements n = s.elements n := by simp [elements, hcell, hn]
      rw [this]
      exact hl.nodup n
  · intro p hp hx
    obtain ⟨hph, hp⟩ := (halive p).1 hp
    rw [List.mem_append, not_or] at hx
    obtain ⟨n, hn⟩ := hl.held p hp (by simp [hph, hx.2])
    exact ⟨n, (helements n p).2 ⟨fun he => hx.1 (he ▸ hn), hn⟩⟩
  · intro n p hp
    exact hl.older n p ((helements n p).1 hp).2

end Linked

/-- Clearing loose cells meets no cell that is gone. The other loose cells stay loose, and what is still
there is as it was. -/
theorem clear_linked {s : Store} {parts rest : List Handle} (h : Linked s (parts ++ rest)) :
    ∃ t, s.clear parts = .ok t ∧ Linked t rest ∧ t.results = s.results ∧
      ∀ x, t.alive x = true → t.cell? x = s.cell? x := by
  fun_induction clear s parts with
  | case1 s => exact ⟨s, rfl, h, rfl, fun x _ => rfl⟩
  | case2 s x hs hx =>
    have := h.loose_alive x (by simp)
    simp [alive, hx] at this
  | case3 s x hs c hx ih =>
    rw [List.cons_append] at h
    obtain ⟨t, ht, hl, hres, hcell⟩ := ih (by rw [List.append_assoc]; exact h.clear_one hx)
    refine ⟨t, ht, hl, hres, fun y hy => ?_⟩
    have hty := hcell y hy
    rw [cell?_set (lt_of_cell? hx)] at hty
    by_cases hyx : y = x
    · rw [if_pos hyx] at hty
      simp [alive, hty] at hy
    · rwa [if_neg hyx] at hty

/-! ## Adding -/

/-- The store `t` is `s` with a new cell, to which its parts are linked. -/
def Adds (s : Store) (shape : Shape) (t : Store) : Prop :=
  ∀ x, t.cell? x =
    if x = s.cells.length then some ⟨shape, none, none⟩
    else if x ∈ shape.elements then
      (s.cell? x).map fun c => { c with parent := some s.cells.length }
    else s.cell? x

/-- Linking elements that nobody holds never fails. -/
theorem foldlM_adopt {s : Store} {n : Handle} {hs : List Handle} (hnodup : hs.Nodup)
    (hfree : ∀ x ∈ hs, s.alive x = true ∧ s.parent? x = none) :
    ∃ t, hs.foldlM (adopt n) s = .ok t ∧ t.results = s.results ∧
      ∀ x, t.cell? x =
        if x ∈ hs then (s.cell? x).map fun c => { c with parent := some n } else s.cell? x := by
  induction hs generalizing s with
  | nil => exact ⟨s, rfl, rfl, fun x => by simp⟩
  | cons h hs ih =>
    obtain ⟨hnot, hnodup⟩ := List.nodup_cons.1 hnodup
    obtain ⟨halive, hparent⟩ := hfree h List.mem_cons_self
    obtain ⟨c, hc⟩ := alive_iff.1 halive
    have hcp : c.parent = none := by simpa [parent?, hc] using hparent
    have hadopt : adopt n s h = .ok (s.set h (some { c with parent := some n })) := by
      simp [adopt, hc, hcp]
    have hcell := cell?_set (lt_of_cell? hc) (some { c with parent := some n })
    obtain ⟨t, ht, hres, htcell⟩ := ih hnodup (s := s.set h (some { c with parent := some n })) (by
      intro x hx
      have hxh : x ≠ h := fun he => hnot (he ▸ hx)
      have := hfree x (List.mem_cons_of_mem _ hx)
      simpa [alive, parent?, hcell, hxh] using this)
    refine ⟨t, ?_, hres, fun x => ?_⟩
    · rw [List.foldlM_cons, hadopt]
      exact ht
    · rw [htcell, hcell]
      by_cases hx : x = h
      · subst hx
        simp [hnot, hc]
      · simp [hx]

namespace Adds

variable {s t : Store} {shape : Shape} (ht : Adds s shape t)

include ht

theorem cell?_new : t.cell? s.cells.length = some ⟨shape, none, none⟩ := by
  rw [ht, if_pos rfl]

theorem cell?_part {x : Handle} {c : Cell} (hc : s.cell? x = some c) (hx : x ∈ shape.elements) :
    t.cell? x = some { c with parent := some s.cells.length } := by
  rw [ht, if_neg (Nat.ne_of_lt (lt_of_cell? hc)), if_pos hx, hc]
  rfl

theorem cell?_other {x : Handle} (hx : x ≠ s.cells.length) (hm : x ∉ shape.elements) :
    t.cell? x = s.cell? x := by
  rw [ht, if_neg hx, if_neg hm]

/-- What was there keeps its shape. -/
theorem cell?_old {x : Handle} {c : Cell} (hc : s.cell? x = some c) :
    ∃ c', t.cell? x = some c' ∧ c'.shape = c.shape := by
  by_cases hm : x ∈ shape.elements
  · exact ⟨_, ht.cell?_part hc hm, rfl⟩
  · exact ⟨c, by rw [ht.cell?_other (Nat.ne_of_lt (lt_of_cell? hc)) hm, hc], rfl⟩

theorem alive_iff {x : Handle} : t.alive x = true ↔ x = s.cells.length ∨ s.alive x = true := by
  by_cases hx : x = s.cells.length
  · subst hx
    simp [alive, ht.cell?_new]
  · by_cases hm : x ∈ shape.elements <;> simp [alive, ht x, hx, hm]

theorem elements_new : t.elements s.cells.length = shape.elements :=
  elements_of_cell? ht.cell?_new

theorem elements_old {n : Handle} (hn : n ≠ s.cells.length) : t.elements n = s.elements n := by
  cases hc : s.cell? n with
  | none =>
    have hc' : t.cell? n = none := by
      rw [ht, if_neg hn, hc]
      split <;> rfl
    simp [elements, hc, hc']
  | some c =>
    obtain ⟨c', hc', hshape⟩ := ht.cell?_old hc
    rw [elements_of_cell? hc', elements_of_cell? hc, hshape]

end Adds

theorem ne_length_of_alive {s : Store} {x : Handle} (hx : s.alive x = true) :
    x ≠ s.cells.length := by
  obtain ⟨c, hc⟩ := alive_iff.1 hx
  exact Nat.ne_of_lt (lt_of_cell? hc)

/-- A new cell is loose, and its parts are no longer. -/
theorem Linked.adds {s t : Store} {shape : Shape} {rest : List Handle}
    (h : Linked s (shape.elements ++ rest)) (ht : Adds s shape t) :
    Linked t (s.cells.length :: rest) := by
  obtain ⟨hparts, hrest, hdisjoint⟩ := List.nodup_append'.1 h.loose_nodup
  have hpart : ∀ x ∈ shape.elements, s.alive x = true := fun x hx =>
    h.loose_alive x (List.mem_append_left _ hx)
  -- what is held in `s` was not loose there
  have hheld : ∀ n, ∀ p ∈ s.elements n, s.alive p = true ∧ p ∉ shape.elements ∧ p ∉ rest := by
    intro n p hp
    have := h.not_loose n p hp
    rw [List.mem_append, not_or] at this
    exact ⟨alive_of_parent? (h.parent n p hp), this⟩
  -- a holder in `t` is the new cell, or it is one in `s`
  have hcases : ∀ n, ∀ p ∈ t.elements n,
      n = s.cells.length ∧ p ∈ shape.elements ∨ n ≠ s.cells.length ∧ p ∈ s.elements n := by
    intro n p hp
    by_cases hn : n = s.cells.length
    · subst hn
      rw [ht.elements_new] at hp
      exact Or.inl ⟨rfl, hp⟩
    · rw [ht.elements_old hn] at hp
      exact Or.inr ⟨hn, hp⟩
  refine ⟨?_, ?_, ?_, ?_, ?_, ?_, ?_⟩
  · intro x hx
    rw [ht.alive_iff]
    rcases List.mem_cons.1 hx with hx | hx
    · exact Or.inl hx
    · exact Or.inr (h.loose_alive x (List.mem_append_right _ hx))
  · refine List.nodup_cons.2 ⟨fun hm => ?_, hrest⟩
    exact ne_length_of_alive (h.loose_alive _ (List.mem_append_right _ hm)) rfl
  · intro n p hp
    rcases hcases n p hp with ⟨rfl, hm⟩ | ⟨-, hm⟩
    · obtain ⟨c, hc⟩ := alive_iff.1 (hpart p hm)
      simp [parent?, ht.cell?_part hc hm]
    · obtain ⟨hpa, hps, -⟩ := hheld n p hm
      rw [parent?, ht.cell?_other (ne_length_of_alive hpa) hps]
      exact h.parent n p hm
  · intro n p hp hl
    rcases hcases n p hp with ⟨rfl, hm⟩ | ⟨-, hm⟩
    · rcases List.mem_cons.1 hl with hl | hl
      · exact ne_length_of_alive (hpart p hm) hl
      · exact hdisjoint hm hl
    · obtain ⟨hpa, -, hpr⟩ := hheld n p hm
      rcases List.mem_cons.1 hl with hl | hl
      · exact ne_length_of_alive hpa hl
      · exact hpr hl
  · intro n
    by_cases hn : n = s.cells.length
    · rw [hn, ht.elements_new]
      exact hparts
    · rw [ht.elements_old hn]
      exact h.nodup n
  · intro p hp hl
    rw [List.mem_cons, not_or] at hl
    have hpa := (ht.alive_iff.1 hp).resolve_left hl.1
    by_cases hm : p ∈ shape.elements
    · exact ⟨s.cells.length, by rw [ht.elements_new]; exact hm⟩
    · obtain ⟨n, hn⟩ := h.held p hpa (by simp [hm, hl.2])
      refine ⟨n, ?_⟩
      rw [ht.elements_old (ne_length_of_alive (alive_of_mem_elements hn))]
      exact hn
  · intro n p hp
    rcases hcases n p hp with ⟨rfl, hm⟩ | ⟨-, hm⟩
    · obtain ⟨c, hc⟩ := alive_iff.1 (hpart p hm)
      exact lt_of_cell? hc
    · exact h.older n p hm

/-- To construct a node from loose elements that are linked to nobody never fails. -/
theorem construct_adds {s : Store} {shape : Shape} {rest : List Handle}
    (h : Linked s (shape.elements ++ rest)) (hfree : ∀ x ∈ shape.elements, s.parent? x = none)
    (hkind : shape.kind.isNode = true) :
    ∃ t, s.construct shape = .ok (t.keep (some s.cells.length)) ∧ t.results = s.results ∧
      Adds s shape t := by
  have hperm := shape.adopted_perm
  have hpart : ∀ x ∈ shape.adopted, s.alive x = true ∧ s.parent? x = none := fun x hx =>
    have hx := hperm.mem_iff.1 hx
    ⟨h.loose_alive x (List.mem_append_left _ hx), hfree x hx⟩
  have hnodup := hperm.nodup_iff.2 (List.nodup_append'.1 h.loose_nodup).1
  obtain ⟨t, ht, hres, hcell⟩ := foldlM_adopt (n := s.cells.length) (s := s.add shape) hnodup (by
    intro x hx
    have hne := ne_length_of_alive (hpart x hx).1
    simpa [alive, parent?, cell?_add, hne] using hpart x hx)
  refine ⟨t, ?_, hres, fun x => ?_⟩
  · rw [construct, if_pos hkind]
    simp only [ht]
    rfl
  · rw [hcell, cell?_add]
    by_cases hx : x = s.cells.length
    · have hnot : x ∉ shape.adopted := fun hm => ne_length_of_alive (hpart x hm).1 hx
      rw [if_neg hnot, if_pos hx, if_pos hx]
    · simp [hx, hperm.mem_iff]

end Store

end PatternTree
