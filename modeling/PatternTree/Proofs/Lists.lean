import Mathlib.Data.List.Forall2

/-!
# Lists and options, entry by entry

A computation that goes through a list and may fail at each entry gives a list just if it gives something at
every entry (`mapM_eq_some_iff`), and related lists are those with related entries at every index
(`Forall₂.rel_getElem?`, `forall₂_of_getElem?`). Nothing here knows of trees.
-/

namespace Option

variable {α β : Type}

theorem Rel.imp_of_eq_some {R S : α → β → Prop} {a : Option α} {b : Option β} (h : Rel R a b)
    (himp : ∀ x y, a = Option.some x → R x y → S x y) : Rel S a b := by
  cases h with
  | none => exact .none
  | some h => exact .some (himp _ _ rfl h)

theorem mapM_eq_some_iff {f : α → Option β} {a : Option α} {b : Option β} :
    a.mapM f = some b ↔ Rel (fun x y => f x = some y) a b := by
  cases a with
  | none => cases b <;> simp
  | some x =>
    have hmap : (some x).mapM f = (f x).map some := rfl
    rw [hmap]
    cases b <;> cases hx : f x <;> simp [hx]

end Option

namespace List

variable {α β : Type}

/-! ## Computations that may fail -/

theorem mapM_eq_some_iff {f : α → Option β} {as : List α} {bs : List β} :
    as.mapM f = some bs ↔ Forall₂ (fun a b => f a = some b) as bs := by
  induction as generalizing bs with
  | nil => cases bs <;> simp
  | cons a as ih =>
    cases bs with
    | nil =>
      rw [mapM_cons]
      cases f a <;> cases as.mapM f <;> simp
    | cons b bs =>
      rw [forall₂_cons, ← ih, mapM_cons]
      cases f a <;> cases as.mapM f <;> simp

theorem mapM_id_eq_some_iff {l : List (Option α)} {as : List α} :
    l.mapM id = some as ↔ l = as.map some := by
  rw [mapM_eq_some_iff, ← forall₂_eq_eq_eq, forall₂_map_right_iff]
  rfl

theorem mapM_id_eq_none_iff {l : List (Option α)} : l.mapM id = none ↔ none ∈ l := by
  induction l with
  | nil => simp
  | cons a l ih =>
    cases a with
    | none => simp
    | some a =>
      rw [mapM_cons, mem_cons, ← ih]
      cases l.mapM id <;> simp

/-! ## Related lists -/

theorem Forall₂.mapM_id {R : α → β → Prop} {as : List (Option α)} {bs : List (Option β)}
    (h : Forall₂ (Option.Rel R) as bs) : Option.Rel (Forall₂ R) (as.mapM id) (bs.mapM id) := by
  induction h with
  | nil => exact .some .nil
  | @cons a b as bs hab _ ih =>
    rw [mapM_cons, mapM_cons]
    cases hab with
    | none => exact .none
    | some hab =>
      generalize as.mapM id = as' at ih ⊢
      generalize bs.mapM id = bs' at ih ⊢
      cases ih with
      | none => exact .none
      | some h => exact .some (.cons hab h)

theorem Forall₂.rel_getElem? {R : α → β → Prop} {as : List α} {bs : List β} (h : Forall₂ R as bs)
    (i : Nat) : Option.Rel R as[i]? bs[i]? := by
  induction h generalizing i with
  | nil => exact .none
  | cons hab _ ih =>
    cases i with
    | zero => exact .some hab
    | succ i => exact ih i

theorem forall₂_of_getElem? {R : α → β → Prop} {as : List α} {bs : List β}
    (h : ∀ i : Nat, Option.Rel R as[i]? bs[i]?) : Forall₂ R as bs := by
  induction as generalizing bs with
  | nil =>
    cases bs with
    | nil => exact .nil
    | cons b bs => cases h 0
  | cons a as ih =>
    cases bs with
    | nil => cases h 0
    | cons b bs =>
      cases h 0 with
      | some hab => exact .cons hab (ih fun i => h (i + 1))

/-! ## Tables -/

theorem lookup_flatMap_eq_none_iff {γ : Type} [BEq β] (f : α → List (β × γ)) (b : β) (l : List α) :
    (l.flatMap f).lookup b = none ↔ ∀ a ∈ l, (f a).lookup b = none := by
  induction l with
  | nil => simp
  | cons a l ih => rw [flatMap_cons, lookup_append, Option.or_eq_none_iff, ih, forall_mem_cons]

end List
