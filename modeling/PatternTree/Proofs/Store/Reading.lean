import PatternTree.Proofs.Store.Makers
import PatternTree.Store.Read

/-!
# What is read from a store

A cell is read as an element just if its shape fits the element and its parts are older and are read as the
element's parts (`element?_eq_some_iff`). In a store with sound links every part is older than its holder, so what
a cell shows is what is read from it (`Shows.element?`), and the forest that is read from the roots is the forest
that the same requests make without a store (`run_reads`).
-/

namespace PatternTree

/-! ## Shapes -/

namespace Shape

theorem element?_eq_some_iff {part : Handle → Option Element} {shape : Shape} {e : Element} :
    shape.element? part = some e ↔ shape.Fits (fun p d => part p = some d) e := by
  constructor
  · intro h
    cases shape with
    | token t =>
      obtain rfl := Option.some.inj h
      exact ⟨rfl, fun slot => by cases slot <;> exact .none⟩
    | node cs =>
      obtain ⟨es, hes, rfl⟩ := Option.map_eq_some_iff.1 h
      refine ⟨rfl, fun slot => ?_⟩
      cases slot with
      | child i => exact (List.mapM_eq_some_iff.1 hes).rel_getElem? i
      | start => exact .none
      | type => exact .none
      | finish => exact .none
    | group form start type cs finish =>
      obtain ⟨start', hstart, h⟩ := Option.bind_eq_some_iff.1 h
      obtain ⟨type', htype, h⟩ := Option.bind_eq_some_iff.1 h
      obtain ⟨es, hes, h⟩ := Option.bind_eq_some_iff.1 h
      obtain ⟨finish', hfinish, h⟩ := Option.bind_eq_some_iff.1 h
      obtain rfl := Option.some.inj h
      refine ⟨rfl, fun slot => ?_⟩
      cases slot with
      | start => exact Option.mapM_eq_some_iff.1 hstart
      | type => exact Option.mapM_eq_some_iff.1 htype
      | child i => exact (List.mapM_eq_some_iff.1 hes).rel_getElem? i
      | finish => exact Option.mapM_eq_some_iff.1 hfinish
  · rintro ⟨hlabel, hpart⟩
    -- the label leaves one form of element for each form of shape
    cases shape with
    | token t =>
      cases e with
      | token t' =>
        cases hlabel
        rfl
      | _ => cases hlabel
    | node cs =>
      cases e with
      | node es =>
        have hes := List.mapM_eq_some_iff.2 (List.forall₂_of_getElem? fun i => hpart (.child i))
        exact congrArg (Option.map Element.node) hes
      | _ => cases hlabel
    | group form start type cs finish =>
      cases e with
      | group form' start' type' es finish' =>
        cases hlabel
        have hstart : start.mapM part = some start' := Option.mapM_eq_some_iff.2 (hpart .start)
        have htype : type.mapM part = some type' := Option.mapM_eq_some_iff.2 (hpart .type)
        have hes : cs.mapM part = some es :=
          List.mapM_eq_some_iff.2 (List.forall₂_of_getElem? fun i => hpart (.child i))
        have hfinish : finish.mapM part = some finish' := Option.mapM_eq_some_iff.2 (hpart .finish)
        simp [element?, hstart, htype, hes, hfinish]
      | _ => cases hlabel

/-- The children of a shape are related to those of an element that it fits. -/
theorem Fits.children {R : Handle → Element → Prop} {shape : Shape} {e : Element} (h : shape.Fits R e) :
    List.Forall₂ R shape.children e.children :=
  List.forall₂_of_getElem? fun i => h.part (.child i)

theorem Fits.captureForm? {R : Handle → Element → Prop} {shape : Shape} {e : Element}
    (h : shape.Fits R e) : shape.captureForm? = e.captureForm? := by
  have hlabel := h.label
  cases shape <;> cases e <;> cases hlabel <;> rfl

end Shape

/-! ## Cells -/

namespace Store

variable {s : Store} {F : Forest}

theorem element?_eq_some_iff {h : Handle} {e : Element} :
    s.element? h = some e ↔
      ∃ c, s.cell? h = some c ∧ c.shape.Fits (fun p d => p < h ∧ s.element? p = some d) e := by
  have hpart : ∀ p d, (if _ : p < h then s.element? p else none) = some d ↔
      p < h ∧ s.element? p = some d := by
    intro p d
    by_cases hp : p < h <;> simp [hp]
  rw [element?, Option.bind_eq_some_iff]
  simp only [Shape.element?_eq_some_iff, hpart]

/-- What a cell shows, the cells of its parts show of its parts. -/
theorem Shows.fits (hs : Sound s) {h : Handle} {c : Cell} {e : Element} (hc : s.cell? h = some c)
    (hshows : s.Shows h e) : c.shape.Fits s.Shows e := by
  refine ⟨by simpa [descend?, label?, hc, Element.get?] using hshows [], fun slot => ?_⟩
  have hbelow : ∀ path, ((c.shape.part? slot).bind fun p => s.descend? p path).bind s.label? =
      ((e.part? slot).bind fun d => d.get? path).map Element.label := fun path => by
    simpa [descend?, part?, hc, Element.get?_cons] using hshows (slot :: path)
  cases hp : c.shape.part? slot with
  | none =>
    cases hd : e.part? slot with
    | none => exact .none
    | some d => simpa [hp, hd, Element.get?] using hbelow []
  | some p =>
    cases hd : e.part? slot with
    | none =>
      have hmem : p ∈ s.elements h := mem_elements.2 ⟨slot, by simp [part?, hc, hp]⟩
      obtain ⟨d, hd'⟩ := alive_iff.1 (alive_of_parent? (hs.linked.parent h p hmem))
      simpa [hp, hd, descend?, label?, hd'] using hbelow []
    | some d => exact .some fun path => by simpa [hp, hd] using hbelow path

/-- What a cell shows is what is read from it. -/
theorem Shows.element? (hs : Sound s) {h : Handle} {e : Element} (hshows : s.Shows h e) :
    s.element? h = some e := by
  induction e using Element.induction_parts generalizing h with
  | h e ih =>
    obtain ⟨c, hc⟩ := alive_iff.1 hshows.alive
    have hfits := hshows.fits hs hc
    refine element?_eq_some_iff.2 ⟨c, hc, hfits.label, fun slot => ?_⟩
    have hpart := hfits.part slot
    cases hp : c.shape.part? slot with
    | none =>
      rw [hp] at hpart
      generalize e.part? slot = d at hpart ⊢
      cases hpart with
      | none => exact .none
    | some p =>
      have hmem : p ∈ s.elements h := mem_elements.2 ⟨slot, by simp [part?, hc, hp]⟩
      rw [hp] at hpart
      cases hd : e.part? slot with
      | none => rw [hd] at hpart; cases hpart
      | some d =>
        rw [hd] at hpart
        cases hpart with
        | some hpd => exact .some ⟨hs.linked.older h p hmem, ih _ (Element.mem_parts.2 hd) hpd⟩

/-! ## The forest in store -/

/-- What is read at a position is what the forest has there. -/
theorem Mirrors.element? (hm : s.Mirrors F) (hs : Sound s) (r : Position) :
    (s.handle? r).map s.element? = (F.get? r).map some := by
  have hsome := hm.isSome hs r
  cases hr : s.handle? r with
  | none =>
    have hnone : F.get? r = none := by simpa [hr] using hsome.symm
    rw [hnone]
    rfl
  | some h =>
    rw [hr] at hsome
    obtain ⟨e, he⟩ := Option.isSome_iff_exists.1 hsome.symm
    have hshows : s.Shows h e := fun path => by
      simpa [handle?_extend, Forest.get?_extend, hr, he] using hm (r.extend path)
    rw [he, Option.map_some, Option.map_some, hshows.element? hs]

theorem Mirrors.forest_eq (hm : s.Mirrors F) (hs : Sound s) : s.forest = F := by
  have hmap : s.roots.map s.element? = F.trees.map some := by
    refine List.ext_getElem? fun i => ?_
    have := hm.element? hs ⟨i, []⟩
    rw [handle?_root] at this
    simpa [Forest.get?, Element.get?] using this
  have htrees : s.roots.filterMap s.element? = F.trees := by
    calc s.roots.filterMap s.element?
        = (s.roots.map s.element?).filterMap id := by rw [List.filterMap_map]; rfl
      _ = F.trees := by rw [hmap, List.filterMap_map]; simp
  rw [forest, htrees]

/-- A store as requests leave it: at every position the forest has what is read there, and no two
positions lead to the same cell. -/
structure Settled (s : Store) : Prop where
  read : ∀ r, (s.handle? r).map s.element? = (s.forest.get? r).map some
  injective : ∀ {r q h}, s.handle? r = some h → s.handle? q = some h → r = q

theorem run_reads (requests : List (Request (Option Nat))) :
    ∃ s, run requests = .ok s ∧ s.Settled ∧ s.forest = ⟨(Request.elements requests).filterMap id⟩ := by
  obtain ⟨s, hrun, hs, hshows⟩ := run_shows requests
  have hm := hshows.mirrors
  refine ⟨s, hrun, ⟨fun r => ?_, fun hr hq => hs.handle?_injective hr hq⟩, hm.forest_eq hs⟩
  rw [hm.forest_eq hs]
  exact hm.element? hs r

end Store

end PatternTree
