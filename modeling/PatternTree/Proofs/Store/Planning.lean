import Mathlib
import PatternTree.Proofs.Store.Frame
import PatternTree.Proofs.Tree.Building
import PatternTree.Store.Plan

/-!
# Plans make what is built

The requests of a plan leave one result, the element that is built from the blueprint, and nothing at the
numbers before it, since every part has been handed over by then (`plan_leaves`). So the forest that a
plan makes is the forest that is built (`elements_planAll`), and a session in store that starts on a plan
agrees with the session on what is built (`start_plan_agrees`).
-/

namespace PatternTree

namespace Request

/-- The results after one request more. -/
def step (results : List (Option Element)) (q : Request (Option Nat)) : List (Option Element) :=
  (q.handOver results).2 ++ [(q.handOver results).1.element?]

/-! ## What a plan leaves -/

/-- The results from number `n` on, where the one with number `k` is all there is; without a number there are
none. -/
inductive Leaves (n : Nat) : Option Nat → Option Element → List (Option Element) → Prop where
  | absent : Leaves n none none []
  | made (k : Nat) (e : Option Element) :
      Leaves n (some (n + k)) e (List.replicate k none ++ [e])

/-- Results in a row as several plans leave them. -/
inductive LeavesAll : Nat → List (Option Nat) → List (Option Element) → List (Option Element) → Prop where
  | nil (n : Nat) : LeavesAll n [] [] []
  | cons {n : Nat} {k : Option Nat} {e : Option Element} {rs : List (Option Element)}
      {ks : List (Option Nat)} {es rest : List (Option Element)} (h : Leaves n k e rs)
      (hrest : LeavesAll (n + rs.length) ks es rest) : LeavesAll n (k :: ks) (e :: es) (rs ++ rest)

/-- Handing over what a plan leaves leaves nothing. -/
theorem Leaves.take {n : Nat} {k : Option Nat} {e : Option Element} {rs : List (Option Element)}
    (h : Leaves n k e rs) (before : List (Option Element)) (hn : before.length = n)
    (after : List (Option Element)) :
    take (before ++ (rs ++ after)) k = (e, before ++ (List.replicate rs.length none ++ after)) := by
  subst hn
  cases h with
  | absent => rfl
  | made k e =>
    have hget : (before ++ (List.replicate k none ++ [e] ++ after))[before.length + k]? = some e := by
      rw [List.getElem?_append_right (by omega), List.append_assoc,
        List.getElem?_append_right (by simp)]
      simp
    have hset : (before ++ (List.replicate k none ++ [e] ++ after)).set (before.length + k) none =
        before ++ (List.replicate k none ++ [none] ++ after) := by
      rw [List.set_append_right _ _ (by omega), List.append_assoc, List.set_append_right _ _ (by simp)]
      simp
    rw [Request.take, hget, hset, List.length_append, List.length_replicate, List.length_singleton,
      List.replicate_succ']
    rfl

theorem LeavesAll.takeAll {n : Nat} {ks : List (Option Nat)} {es rs : List (Option Element)}
    (h : LeavesAll n ks es rs) (before : List (Option Element)) (hn : before.length = n)
    (after : List (Option Element)) :
    takeAll (before ++ (rs ++ after)) ks = (es, before ++ (List.replicate rs.length none ++ after)) := by
  induction h generalizing before with
  | nil n => rfl
  | @cons n k e rs ks es rest h _ ih =>
    have htail := ih (before ++ List.replicate rs.length none) (by simp [hn])
    rw [List.append_assoc] at htail
    rw [Request.takeAll, List.append_assoc, h.take before hn]
    simp only [htail, List.append_assoc, List.length_append, List.replicate_add]

theorem Leaves.filterMap {n : Nat} {k : Option Nat} {e : Option Element} {rs : List (Option Element)}
    (h : Leaves n k e rs) : rs.filterMap id = e.toList := by
  cases h with
  | absent => rfl
  | made k e => cases e <;> simp [List.filterMap_append]

theorem LeavesAll.filterMap {n : Nat} {ks : List (Option Nat)} {es rs : List (Option Element)}
    (h : LeavesAll n ks es rs) : rs.filterMap id = es.filterMap id := by
  induction h with
  | nil n => rfl
  | @cons n k e rs ks es rest h _ ih =>
    rw [List.filterMap_append, h.filterMap, ih]
    cases e <;> rfl

end Request

namespace Blueprint

open Request

/-- The requests leave `rs` after any `n` results, and nothing else is changed. -/
def Adds (n : Nat) (qs : List (Request (Option Nat))) (rs : List (Option Element)) : Prop :=
  rs.length = qs.length ∧ ∀ results, results.length = n → qs.foldl step results = results ++ rs

theorem Adds.append {n : Nat} {qs qs' : List (Request (Option Nat))} {rs rs' : List (Option Element)}
    (h : Adds n qs rs) (h' : Adds (n + qs.length) qs' rs') : Adds n (qs ++ qs') (rs ++ rs') := by
  refine ⟨by simp [h.1, h'.1], fun results hn => ?_⟩
  rw [List.foldl_append, h.2 results hn, h'.2 _ (by simp [hn, h.1]), List.append_assoc]

/-- The last request of a plan finds the parts and leaves nothing of them. -/
theorem Adds.hand_over {n : Nat} {qs : List (Request (Option Nat))} {rs : List (Option Element)}
    (h : Adds n qs rs) {q : Request (Option Nat)} {e : Option Element}
    (hq : ∀ results, results.length = n → step (results ++ rs) q =
      results ++ (List.replicate rs.length none ++ [e])) :
    ∃ rs', Adds n (qs ++ [q]) rs' ∧ Leaves n (some (n + qs.length)) e rs' := by
  refine ⟨List.replicate rs.length none ++ [e], ⟨by simp [h.1], fun results hn => ?_⟩, ?_⟩
  · rw [List.foldl_append, h.2 results hn]
    exact hq results hn
  · rw [← h.1]
    exact .made _ _

/-- A plan after `n` requests that leaves the element and nothing else. -/
def Planned (n : Nat) (p : List (Request (Option Nat)) × Option Nat) (e : Option Element) : Prop :=
  ∃ rs, Adds n p.1 rs ∧ Leaves n p.2 e rs

/-- Plans in a row after `n` requests that leave the elements and nothing else. -/
def PlannedAll (n : Nat) (p : List (Request (Option Nat)) × List (Option Nat))
    (es : List (Option Element)) : Prop :=
  ∃ rs, Adds n p.1 rs ∧ LeavesAll n p.2 es rs

theorem PlannedAll.node {n : Nat} {p : List (Request (Option Nat)) × List (Option Nat)}
    {es : List (Option Element)} (h : PlannedAll n p es) :
    Planned n (p.1 ++ [.node p.2], some (n + p.1.length)) (Element.makeNode? es) := by
  obtain ⟨rs, hadds, hleaves⟩ := h
  refine hadds.hand_over fun results hn => ?_
  have htake := hleaves.takeAll results hn []
  simp only [List.append_nil] at htake
  simp only [step, handOver, htake, element?, List.append_assoc]

theorem Planned.group (heading : Heading) {n : Nat} {p₁ p₂ p₄ : List (Request (Option Nat)) × Option Nat}
    {p₃ : List (Request (Option Nat)) × List (Option Nat)} {start type finish : Option Element}
    {es : List (Option Element)} (h₁ : Planned n p₁ start) (h₂ : Planned (n + p₁.1.length) p₂ type)
    (h₃ : PlannedAll (n + p₁.1.length + p₂.1.length) p₃ es)
    (h₄ : Planned (n + p₁.1.length + p₂.1.length + p₃.1.length) p₄ finish) :
    Planned n (p₁.1 ++ p₂.1 ++ p₃.1 ++ p₄.1 ++ [.group heading p₁.2 p₂.2 p₃.2 p₄.2],
      some (n + (p₁.1 ++ p₂.1 ++ p₃.1 ++ p₄.1).length)) (Element.makeGroup? heading start type es finish) := by
  obtain ⟨rs₁, hadds₁, hleaves₁⟩ := h₁
  obtain ⟨rs₂, hadds₂, hleaves₂⟩ := h₂
  obtain ⟨rs₃, hadds₃, hleaves₃⟩ := h₃
  obtain ⟨rs₄, hadds₄, hleaves₄⟩ := h₄
  have hadds₁₂ := hadds₁.append hadds₂
  have hadds₁₂₃ := hadds₁₂.append (by rwa [List.length_append, ← Nat.add_assoc])
  have hadds := hadds₁₂₃.append (by
    rwa [List.length_append, List.length_append, ← Nat.add_assoc, ← Nat.add_assoc])
  refine hadds.hand_over fun results hn => ?_
  -- each part is handed over where the ones before it have left nothing
  have htake₁ := hleaves₁.take results hn (rs₂ ++ (rs₃ ++ rs₄))
  have htake₂ := hleaves₂.take (results ++ List.replicate rs₁.length none)
    (by simp [hn, hadds₁.1]) (rs₃ ++ rs₄)
  have htake₃ := hleaves₃.takeAll
    (results ++ (List.replicate rs₁.length none ++ List.replicate rs₂.length none))
    (by simp [hn, hadds₁.1, hadds₂.1, Nat.add_assoc]) rs₄
  have htake₄ := hleaves₄.take
    (results ++ (List.replicate rs₁.length none ++ (List.replicate rs₂.length none ++
      List.replicate rs₃.length none)))
    (by simp [hn, hadds₁.1, hadds₂.1, hadds₃.1, Nat.add_assoc]) []
  simp only [List.append_assoc, List.append_nil] at htake₂ htake₃ htake₄
  simp only [step, handOver, List.append_assoc, htake₁, htake₂, htake₃, htake₄, element?,
    List.length_append, List.replicate_add]

theorem planAll_leaves {bs : List (Blueprint Version)} (h : ∀ b ∈ bs, ∀ n, Planned n (plan n b) b.build)
    (n : Nat) : PlannedAll n (planAll n bs) (bs.map build) := by
  induction bs generalizing n with
  | nil =>
    rw [planAll]
    exact ⟨[], ⟨rfl, fun results _ => by simp⟩, .nil n⟩
  | cons b bs ih =>
    obtain ⟨rs, hadds, hleaves⟩ := h b List.mem_cons_self n
    obtain ⟨rest, hadds', hleaves'⟩ :=
      ih (fun c hc => h c (List.mem_cons_of_mem _ hc)) (n + (plan n b).1.length)
    rw [planAll, List.map_cons]
    exact ⟨rs ++ rest, hadds.append hadds', .cons hleaves (by rwa [hadds.1])⟩

/-- A plan leaves what is built. -/
theorem plan_leaves (b : Blueprint Version) (n : Nat) : Planned n (plan n b) b.build := by
  induction b using induction_parts generalizing n with
  | h b ihchildren ihdelimiters =>
    cases b with
    | absent =>
      rw [plan, build]
      exact ⟨[], ⟨rfl, fun results _ => by simp⟩, .absent⟩
    | token kind content introduced removed =>
      rw [plan, build]
      exact ⟨[Element.makeToken? kind content introduced removed], ⟨rfl, fun results _ => rfl⟩, .made 0 _⟩
    | node children =>
      rw [plan, build, buildAll_eq_map]
      exact (planAll_leaves ihchildren n).node
    | group heading start type children finish =>
      rw [plan, build, buildAll_eq_map]
      exact .group heading (ihdelimiters start (by simp [delimiters]) n)
        (ihdelimiters type (by simp [delimiters]) _) (planAll_leaves ihchildren _)
        (ihdelimiters finish (by simp [delimiters]) _)

/-- The forest that a plan makes is the forest that is built. -/
theorem elements_planAll (bs : List (Blueprint Version)) :
    (Request.elements (planAll 0 bs).1).filterMap id = (buildAll bs).filterMap id := by
  obtain ⟨rs, hadds, hleaves⟩ := planAll_leaves (fun b _ n => plan_leaves b n) 0
  have helements : Request.elements (planAll 0 bs).1 = rs := hadds.2 [] rfl
  rw [helements, hleaves.filterMap, buildAll_eq_map]

end Blueprint

namespace StoredSession

/-- A session in store that starts on the plan of blueprints agrees with the session on the forest that is built
from them, and goes on to agree with it through all commands. -/
theorem start_plan_agrees (bs : List (Blueprint Version)) (options : Options) (commands : List Command) :
    ∃ L, (start (Blueprint.planAll 0 bs).1 options >>= fun L => L.run commands) = .ok L ∧
      Agrees L ((Session.start ⟨(Blueprint.buildAll bs).filterMap id⟩ options).run commands) := by
  obtain ⟨L₀, hstart, h₀⟩ := start_agrees (Blueprint.planAll 0 bs).1 options
  rw [Blueprint.elements_planAll] at h₀
  obtain ⟨L, hrun, h, -⟩ := h₀.run commands
  exact ⟨L, by rw [hstart]; exact hrun, h⟩

end StoredSession

end PatternTree
