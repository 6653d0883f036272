import Mathlib
import PatternTree.Proofs.Tree.Order

/-!
# Lists in document order

Several functions go through a tree and list some of its elements, each by a recursion of its own. What
they give is part of the preorder, with something left out. Such a list is known by its members
(`eq_filter_of_sublist`), so two of them are compared without a look at the recursions.

What is at or below an element stands together in the preorder of everything above it
(`infix_preorder`), and so it does in each of these lists. The tokens are the first example
(`tokens_eq_filter`), and the content of an element is spelled by them (`content_eq_join`).
-/

namespace PatternTree

namespace Element

theorem isa_anyToken_iff {e : Element} : e.kind.isa .anyToken = true ↔ ∃ t, e = token t := by
  cases e with
  | token t => exact ⟨fun _ => ⟨t, rfl⟩, fun _ => rfl⟩
  | node children => simp [kind, Kind.isa, Kind.isaWithin, Kind.parent]
  | group form start type children finish =>
    cases form <;> simp [kind, Form.kind, Kind.isa, Kind.isaWithin, Kind.parent]

/-- An element that is not a token is a node by its kind, too. -/
theorem isNode_kind_of_not_token {e : Element} (h : ∀ t, e ≠ token t) : e.kind.isNode = true := by
  cases e with
  | token t => exact absurd rfl (h t)
  | node children => rfl
  | group form start type children finish => cases form <;> rfl

theorem content_of_isNode {e : Element} (h : e.isNode = true) :
    e.content = String.join (e.parts.map fun p => p.2.content) :=
  (content_eq e).trans (match_of_isNode _ _ e h)

/-- The content of an element is the contents of its tokens in a row. -/
theorem content_eq_join (e : Element) : e.content = String.join (e.tokens.map (·.content)) := by
  induction e using induction_node with
  | token t => simp [content_eq, tokens_token]
  | node e hnode ih =>
    rw [content_of_isNode hnode, tokens_of_isNode hnode]
    generalize e.parts = parts at ih
    induction parts with
    | nil => rfl
    | cons p parts ihparts =>
      obtain ⟨hp, hparts⟩ := List.forall_mem_cons.1 ih
      rw [List.map_cons, String.join_cons, List.flatMap_cons, List.map_append, String.join_append, hp,
        ihparts hparts]

end Element

namespace Forest

/-- Whether an element of that kind stands at the position. -/
def isa (F : Forest) (kind : Kind) (q : Position) : Bool := (F.get? q).any fun d => d.kind.isa kind

theorem isa_of_get? {F : Forest} {q : Position} {d : Element} (hd : F.get? q = some d) (kind : Kind) :
    F.isa kind q = d.kind.isa kind := by
  rw [isa, hd, Option.any_some]

theorem isa_anyToken_eq_false {F : Forest} {r : Position} {e : Element} (he : F.get? r = some e)
    (hnode : e.isNode = true) : F.isa .anyToken r = false := by
  rw [isa_of_get? he, Bool.eq_false_iff]
  intro h
  obtain ⟨t, rfl⟩ := Element.isa_anyToken_iff.1 h
  cases hnode

/-- The content of the element at a position. -/
def content (F : Forest) (r : Position) : String := ((F.get? r).map Element.content).getD ""

theorem content_of_get? {F : Forest} {r : Position} {e : Element} (he : F.get? r = some e) :
    F.content r = e.content := by
  rw [content, he, Option.map_some, Option.getD_some]

/-! ## Members -/

/-- What is listed in document order is known by its members. -/
theorem eq_filter_of_sublist {F : Forest} {r : Position} {qs : List Position} {P : Position → Bool}
    (hqs : qs.Sublist (F.preorder r)) (hP : ∀ q ∈ F.preorder r, q ∈ qs ↔ P q = true) :
    qs = (F.preorder r).filter P := by
  have hnodup := F.nodup_preorder r
  generalize F.preorder r = all at *
  induction hqs with
  | slnil => rfl
  | @cons qs all q hqs ih =>
    obtain ⟨hq, hnodup⟩ := List.nodup_cons.1 hnodup
    obtain ⟨hPq, hP⟩ := List.forall_mem_cons.1 hP
    have hleft : ¬ P q = true := fun h => hq (hqs.subset (hPq.2 h))
    rw [List.filter_cons_of_neg hleft]
    exact ih hP hnodup
  | @cons_cons qs all q hqs ih =>
    obtain ⟨hq, hnodup⟩ := List.nodup_cons.1 hnodup
    obtain ⟨hPq, hP⟩ := List.forall_mem_cons.1 hP
    rw [List.filter_cons_of_pos (hPq.1 List.mem_cons_self), ← ih ?_ hnodup]
    intro x hx
    have hne : x ≠ q := by
      rintro rfl
      exact hq hx
    rw [← hP x hx, List.mem_cons, or_iff_right hne]

/-! ## Blocks -/

/-- What is at or below an element is a block of what is at or below any element above it. -/
theorem infix_preorder {F : Forest} {r m : Position} (hm : m ∈ F.positions)
    (h : r.ancestorOf (some m) = true) : F.preorder m <:+: F.preorder r := by
  induction m using Position.push_induction with
  | root tree =>
    obtain rfl : ⟨tree, []⟩ = r := by simpa [Position.ancestorOf] using h
    exact List.infix_rfl
  | push n slot ih =>
    rcases Position.ancestorOf_iff_eq_or.1 h with rfl | h
    · exact List.infix_rfl
    · rw [Position.contains_push] at h
      have hn := mem_positions_of_ancestorOf hm (Position.ancestorOf_push n slot)
      refine List.IsInfix.trans ?_ (ih hn h)
      have hpart : n.push slot ∈ F.elements n := mem_elements_iff.2 ⟨hm, Position.parent?_push n slot⟩
      rw [preorder_eq hn]
      exact (List.infix_flatMap_of_mem hpart F.preorder).trans (List.suffix_cons _ _).isInfix

/-! ## Tokens -/

/-- The tokens of an element are what is of a token's kind at or below it. -/
theorem tokens_eq_filter (F : Forest) (r : Position) :
    F.tokens r = (F.preorder r).filter (F.isa .anyToken) := by
  refine eq_filter_of_sublist (F.tokens_sublist r) fun q hq => ?_
  obtain ⟨hqF, hanc⟩ := mem_preorder.1 hq
  obtain ⟨d, hd⟩ := mem_positions.1 hqF
  obtain ⟨e, he⟩ := mem_positions.1 (mem_positions_of_ancestorOf hqF hanc)
  obtain ⟨path, rfl⟩ := Position.ancestorOf_iff.1 hanc
  have hpath : e.get? path = some d := by rwa [get?_extend, he, Option.bind_some] at hd
  rw [tokens_eq he, List.mem_map_of_injective fun _ _ => Position.extend_injective,
    Element.mem_tokenPaths, isa_of_get? hd, Element.isa_anyToken_iff, hpath]
  simp only [Option.some.injEq]

/-- What is asked of the tokens of an element can be asked of their list. -/
theorem map_tokens {F : Forest} {r : Position} {e : Element} (he : F.get? r = some e) {β : Type}
    (f : Option Element → β) :
    ((F.tokens r).map fun q => f (F.get? q)) = e.tokens.map fun t => f (some (.token t)) := by
  have hget := congrArg (List.map f) (get?_tokens he)
  rwa [List.map_map, List.map_map] at hget

/-- The content is spelled by the tokens. -/
theorem content_eq_tokens (F : Forest) (r : Position) :
    F.content r = String.join ((F.tokens r).map F.content) := by
  cases he : F.get? r with
  | none => simp [content, tokens, he]
  | some e =>
    have htokens : (F.tokens r).map F.content = e.tokens.map (·.content) :=
      map_tokens he fun d => (d.map Element.content).getD ""
    rw [content_of_get? he, Element.content_eq_join, htokens]

end Forest

end PatternTree
