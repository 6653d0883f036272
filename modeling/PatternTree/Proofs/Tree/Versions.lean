import Mathlib.Order.Bounds.Defs
import PatternTree.Proofs.Tree.Tokens

/-!
# The versions that know a node

A node looks at its parts only: it takes the greatest of their `introduced` and the least of their
`removed`, and starts from the oldest supported version at every level. Both are found here in terms
of the tokens below it, delimiters included. The form that goes through the levels is an
equivalence: a bound holds for the node exactly when it holds for every token (`introduced_le_iff`,
`lt_removed_iff`). From it follow the range of versions, and the greatest and the least element.
-/

namespace PatternTree

/-! ## Folds that choose -/

section Choose

variable {α : Type} {choose : α → α → α}

/-- A fold that takes one of two values at each step gives one of the values it is given. -/
theorem foldl_mem (h : ∀ a b, choose a b = a ∨ choose a b = b) (as : List α) (a : α) :
    as.foldl choose a ∈ a :: as := by
  induction as generalizing a with
  | nil => exact List.mem_singleton.2 rfl
  | cons b as ih =>
    rw [List.foldl_cons]
    rcases List.mem_cons.1 (ih (choose a b)) with hfold | hfold
    · rw [hfold]
      rcases h a b with hab | hab <;> simp [hab]
    · exact List.mem_cons_of_mem _ (List.mem_cons_of_mem _ hfold)

/-- A bound that holds of the chosen value just if it holds of both holds of the result just if it
holds of all. -/
theorem foldl_iff {P : α → Prop} (h : ∀ a b, P (choose a b) ↔ P a ∧ P b) (as : List α) (a : α) :
    P (as.foldl choose a) ↔ P a ∧ ∀ b ∈ as, P b := by
  induction as generalizing a with
  | nil => simp
  | cons b as ih => rw [List.foldl_cons, ih, h, List.forall_mem_cons, and_assoc]

end Choose

theorem Version.max_le_iff (a b v : Version) : max a b ≤ v ↔ a ≤ v ∧ b ≤ v := by
  change (if a ≤ b then b else a) ≤ v ↔ _
  split <;> rename_i h <;> simp only [le_iff_toNat] at * <;> omega

theorem Version.max_eq_or (a b : Version) : max a b = a ∨ max a b = b := by
  change (if a ≤ b then b else a) = a ∨ (if a ≤ b then b else a) = b
  split <;> simp

namespace Element

/-- A version is before the earlier removal if it is before both. -/
theorem lt_earlier_iff (v : Version) (a b : Option Version) :
    (∀ w ∈ earlier a b, v < w) ↔ (∀ w ∈ a, v < w) ∧ ∀ w ∈ b, v < w := by
  cases a with
  | none => simp [earlier]
  | some x =>
    cases b with
    | none => simp [earlier]
    | some y =>
      by_cases h : y < x <;> simp only [earlier, h, if_true, if_false, Option.mem_def,
        Option.some.injEq, forall_eq'] <;> simp only [Version.lt_iff_toNat] at * <;> omega

theorem earlier_eq_or (a b : Option Version) : earlier a b = a ∨ earlier a b = b := by
  cases a with
  | none => exact Or.inr rfl
  | some x =>
    cases b with
    | none => exact Or.inl rfl
    | some y =>
      by_cases h : y < x
      · exact Or.inr (if_pos h)
      · exact Or.inl (if_neg h)

/-! ## Bounds -/

theorem introduced_of_isNode {e : Element} (h : e.isNode = true) :
    e.introduced = (e.parts.map fun p => p.2.introduced).foldl max Version.minimum :=
  (introduced_eq e).trans (match_of_isNode _ _ e h)

theorem removed_of_isNode {e : Element} (h : e.isNode = true) :
    e.removed = (e.parts.map fun p => p.2.removed).foldl earlier none :=
  (removed_eq e).trans (match_of_isNode _ _ e h)

/-- A version is late enough for an element if it is for all its tokens, and for a node if it is
supported at all. -/
theorem introduced_le_iff (e : Element) (v : Version) :
    e.introduced ≤ v ↔
      (e.isNode = true → Version.minimum ≤ v) ∧ ∀ t ∈ e.tokens, t.introduced ≤ v := by
  induction e using induction_node with
  | token t => simp [introduced_eq, tokens_token, isNode]
  | node e hnode ih =>
    rw [introduced_of_isNode hnode, foldl_iff (P := (· ≤ v)) fun a b => Version.max_le_iff a b v,
      List.forall_mem_map]
    constructor
    · rintro ⟨hmin, hparts⟩
      refine ⟨fun _ => hmin, fun t ht => ?_⟩
      obtain ⟨p, hp, ht⟩ := (mem_tokens_of_isNode hnode).1 ht
      exact ((ih p hp).1 (hparts p hp)).2 t ht
    · rintro ⟨hmin, htokens⟩
      refine ⟨hmin hnode, fun p hp => (ih p hp).2 ⟨fun _ => hmin hnode, fun t ht => ?_⟩⟩
      exact htokens t ((mem_tokens_of_isNode hnode).2 ⟨p, hp, ht⟩)

/-- A version is early enough for an element if it is for all its tokens. -/
theorem lt_removed_iff (e : Element) (v : Version) :
    (∀ w ∈ e.removed, v < w) ↔ ∀ t ∈ e.tokens, ∀ w ∈ t.removed, v < w := by
  induction e using induction_node with
  | token t => simp [removed_eq, tokens_token]
  | node e hnode ih =>
    rw [removed_of_isNode hnode, foldl_iff (P := fun o => ∀ w ∈ o, v < w) (lt_earlier_iff v),
      List.forall_mem_map]
    constructor
    · rintro ⟨-, hparts⟩ t ht
      obtain ⟨p, hp, ht⟩ := (mem_tokens_of_isNode hnode).1 ht
      exact (ih p hp).1 (hparts p hp) t ht
    · intro htokens
      refine ⟨by simp, fun p hp => (ih p hp).2 fun t ht => ?_⟩
      exact htokens t ((mem_tokens_of_isNode hnode).2 ⟨p, hp, ht⟩)

/-! ## The bounds are attained -/

theorem introduced_mem (e : Element) :
    e.introduced = Version.minimum ∨ ∃ t ∈ e.tokens, t.introduced = e.introduced := by
  induction e using induction_node with
  | token t => exact Or.inr ⟨t, by simp [tokens_token], by simp [introduced_eq]⟩
  | node e hnode ih =>
    have hmem := foldl_mem Version.max_eq_or (e.parts.map fun p => p.2.introduced) Version.minimum
    rw [← introduced_of_isNode hnode, List.mem_cons, List.mem_map] at hmem
    rcases hmem with hmin | ⟨p, hp, heq⟩
    · exact Or.inl hmin
    · rw [← heq]
      refine (ih p hp).imp_right ?_
      rintro ⟨t, ht, h⟩
      exact ⟨t, (mem_tokens_of_isNode hnode).2 ⟨p, hp, ht⟩, h⟩

theorem removed_mem {e : Element} {w : Version} (h : e.removed = some w) :
    ∃ t ∈ e.tokens, t.removed = some w := by
  induction e using induction_node with
  | token t => exact ⟨t, by simp [tokens_token], by simpa [removed_eq] using h⟩
  | node e hnode ih =>
    have hmem := foldl_mem earlier_eq_or (e.parts.map fun p => p.2.removed) none
    rw [← removed_of_isNode hnode, h, List.mem_cons, List.mem_map] at hmem
    rcases hmem with hnone | ⟨p, hp, heq⟩
    · cases hnone
    · obtain ⟨t, ht, htw⟩ := ih p hp heq
      exact ⟨t, (mem_tokens_of_isNode hnode).2 ⟨p, hp, ht⟩, htw⟩

/-- An element is removed no later than any of its tokens. -/
theorem exists_removed_le {e : Element} {t : Token} (ht : t ∈ e.tokens) {u : Version}
    (hu : t.removed = some u) : ∃ w, e.removed = some w ∧ w ≤ u := by
  by_contra hlater
  have hlt : ∀ w ∈ e.removed, u < w := fun w hw => by
    have hle : ¬ w ≤ u := fun hle => hlater ⟨w, hw, hle⟩
    rw [Version.le_iff_toNat] at hle
    exact Version.lt_iff_toNat.2 (Nat.lt_of_not_le hle)
  have hself := (e.lt_removed_iff u).1 hlt t ht u hu
  exact Nat.lt_irrefl _ (Version.lt_iff_toNat.1 hself)

theorem removed_eq_none_iff (e : Element) :
    e.removed = none ↔ ∀ t ∈ e.tokens, t.removed = none := by
  constructor
  · intro h t ht
    by_contra hsome
    obtain ⟨u, hu⟩ := Option.ne_none_iff_exists'.1 hsome
    obtain ⟨w, hw, -⟩ := exists_removed_le ht hu
    rw [h] at hw
    cases hw
  · intro h
    by_contra hsome
    obtain ⟨w, hw⟩ := Option.ne_none_iff_exists'.1 hsome
    obtain ⟨t, ht, htw⟩ := removed_mem hw
    rw [h t ht] at htw
    cases htw

theorem isLeast_removed {e : Element} {w : Version} (h : e.removed = some w) :
    IsLeast {u | ∃ t ∈ e.tokens, t.removed = some u} w := by
  refine ⟨removed_mem h, ?_⟩
  rintro u ⟨t, ht, hu⟩
  obtain ⟨x, hx, hle⟩ := exists_removed_le ht hu
  obtain rfl := Option.some.inj (h.symm.trans hx)
  exact hle

theorem removed_eq_some_iff (e : Element) (w : Version) :
    e.removed = some w ↔ IsLeast {u | ∃ t ∈ e.tokens, t.removed = some u} w := by
  refine ⟨isLeast_removed, fun hw => ?_⟩
  obtain ⟨t, ht, htw⟩ := hw.1
  obtain ⟨x, hx, hle⟩ := exists_removed_le ht htw
  have hge := hw.2 (removed_mem hx)
  rw [Version.le_iff_toNat] at hle hge
  rw [hx, Version.eq_iff_toNat.2 (Nat.le_antisymm hle hge)]

theorem isGreatest_introduced {e : Element} (h : e.isNode = true) :
    IsGreatest {v | v = Version.minimum ∨ ∃ t ∈ e.tokens, t.introduced = v} e.introduced := by
  have hle := (e.introduced_le_iff e.introduced).1 (Version.le_iff_toNat.2 (Nat.le_refl _))
  refine ⟨e.introduced_mem, ?_⟩
  rintro v (rfl | ⟨t, ht, rfl⟩)
  · exact hle.1 h
  · exact hle.2 t ht

end Element

namespace Forest

/-- **The versions that know a node** are the supported ones that know each of its tokens: it is
introduced with the last of them and removed with the first that is removed, if one is. -/
theorem versions_eq_tokens {F : Forest} {r : Position} {e : Element} (he : F.get? r = some e)
    (hnode : e.isNode = true) :
    (∀ q, q ∈ F.tokens r ↔ r.contains (some q) = true ∧ ∃ t, F.get? q = some (.token t)) ∧
    ∃ ts : List Token, (F.tokens r).map F.get? = ts.map (fun t => some (.token t)) ∧
      (∀ v, (e.introduced ≤ v ∧ ∀ w ∈ e.removed, v < w) ↔
        Version.minimum ≤ v ∧ ∀ t ∈ ts, t.introduced ≤ v ∧ ∀ w ∈ t.removed, v < w) ∧
      IsGreatest {v | v = Version.minimum ∨ ∃ t ∈ ts, t.introduced = v} e.introduced ∧
      (∀ w, e.removed = some w ↔ IsLeast {u | ∃ t ∈ ts, t.removed = some u} w) ∧
      (e.removed = none ↔ ∀ t ∈ ts, t.removed = none) := by
  refine ⟨fun q => mem_tokens he hnode, e.tokens, get?_tokens he, fun v => ?_,
    Element.isGreatest_introduced hnode, e.removed_eq_some_iff, e.removed_eq_none_iff⟩
  rw [e.introduced_le_iff, e.lt_removed_iff]
  constructor
  · rintro ⟨⟨hmin, hin⟩, hout⟩
    exact ⟨hmin hnode, fun t ht => ⟨hin t ht, hout t ht⟩⟩
  · rintro ⟨hmin, h⟩
    exact ⟨⟨fun _ => hmin, fun t ht => (h t ht).1⟩, fun t ht => (h t ht).2⟩

/-- A group with a literal of version 5.010 as its start, which is removed with 5.020, and a child
that is a node with an older and a newer literal. -/
def versionSample : Forest :=
  let literal (introduced : UInt64) (removed : Option Version) : Element :=
    .token ⟨.literal, "a", ⟨introduced⟩, removed⟩
  ⟨[.group .plain (some (literal 5010000 (some ⟨5020000⟩))) none
      [.node [literal 5000000 none, literal 5012000 (some ⟨5030000⟩)]] none]⟩

theorem versions_eq_tokens_sample :
    ∃ e, versionSample.get? ⟨0, []⟩ = some e ∧ e.isNode = true ∧ e.introduced = ⟨5012000⟩ ∧
      e.removed = some ⟨5020000⟩ ∧
      ∃ ts : List Token, ts.length = 3 ∧
        IsGreatest {v | v = Version.minimum ∨ ∃ t ∈ ts, t.introduced = v} e.introduced ∧
        IsLeast {u | ∃ t ∈ ts, t.removed = some u} ⟨5020000⟩ := by
  have he : versionSample.get? ⟨0, []⟩ = some versionSample.trees[0] := rfl
  obtain ⟨-, ts, hts, -, hmax, hmin, -⟩ := versions_eq_tokens he rfl
  have hlength := congrArg List.length hts
  rw [List.length_map, List.length_map] at hlength
  have hremoved : versionSample.trees[0].removed = some ⟨5020000⟩ := by decide
  exact ⟨_, he, rfl, by decide, hremoved, ts, hlength.symm.trans (by decide), hmax,
    (hmin _).1 hremoved⟩

end Forest

end PatternTree
