import Mathlib
import PatternTree.Proofs.Search.Results

/-!
# Tokens as a search

The tokens of a node can be had in two ways, by flattening the node or by a search for the kind that all
tokens share, and its content can be put together from its parts or from its tokens. The ways agree, and
what an element contributes to each of the two stands together in one piece (`find_token_eq_tokens`).
-/

namespace PatternTree.Forest

/-- **Tokens as a search.** The tokens of a node are what a search for tokens gives, in the same order, and
their contents in a row are the content of the node. Everything else below the node is a node. Whatever
the node contains has its tokens side by side among those of the node, and its content stands between the
contents of the tokens before them and after them. -/
theorem find_token_eq_tokens {σ : Type} (F : Forest) (options : Options) (r : Position) {e : Element}
    (he : F.get? r = some e) (hnode : e.isNode = true) (s : σ) :
    (F.find options r (.code Kind.anyToken.code) s).result = some (F.tokens r) ∧
    F.content r = String.join ((F.tokens r).map F.content) ∧
    (∀ q ∈ F.positions, r.contains (some q) = true → q ∉ F.tokens r →
      ∃ d, F.get? q = some d ∧ d.kind.isNode = true) ∧
    ∀ m ∈ F.positions, r.contains (some m) = true →
      ∃ pre post, F.tokens r = pre ++ F.tokens m ++ post ∧
        F.content r =
          String.join (pre.map F.content) ++ F.content m ++ String.join (post.map F.content) := by
  have hr : r ∈ F.positions := mem_positions.2 ⟨e, he⟩
  refine ⟨?_, F.content_eq_tokens r, fun q hq hrq hnot => ?_, fun m hm hrm => ?_⟩
  · rw [find_kind_of_not_isa hr options rfl (isa_anyToken_eq_false he hnode), tokens_eq_filter]
  · obtain ⟨d, hd⟩ := mem_positions.1 hq
    refine ⟨d, hd, Element.isNode_kind_of_not_token ?_⟩
    rintro t rfl
    exact hnot ((mem_tokens he hnode).2 ⟨hrq, t, hd⟩)
  · have hblock := (infix_preorder hm (Position.ancestorOf_of_contains hrm)).filter (F.isa .anyToken)
    rw [← tokens_eq_filter, ← tokens_eq_filter] at hblock
    obtain ⟨pre, post, hsplit⟩ := hblock
    refine ⟨pre, post, hsplit.symm, ?_⟩
    rw [content_eq_tokens F r, ← hsplit, List.map_append, List.map_append, String.join_append,
      String.join_append, ← content_eq_tokens F m]

/-- The token of a named capture stands between those around it, two before and two after, the finish of the
outer capture among them. -/
theorem find_sample_token_eq_tokens :
    let r : Position := ⟨0, []⟩
    let m : Position := ⟨0, [.child 0, .child 1]⟩
    ∃ e, sample.get? r = some e ∧ e.isNode = true ∧ m ∈ sample.positions ∧
      r.contains (some m) = true ∧ (sample.tokens r).length = 5 ∧ sample.content r = "(ab)c" ∧
      (sample.find {} r (.code 2) ()).result = some (sample.tokens r) ∧
      ∃ pre post, sample.tokens r = pre ++ sample.tokens m ++ post ∧
        "(ab)c" = String.join (pre.map sample.content) ++ "b" ++ String.join (post.map sample.content) := by
  intro r m
  have he : sample.get? r = some sample.trees[0] := rfl
  have hm : m ∈ sample.positions := by decide
  have hrm : r.contains (some m) = true := by decide
  have hcontent : sample.content r = "(ab)c" := by decide +kernel
  obtain ⟨hfind, -, -, hblock⟩ := find_token_eq_tokens sample {} r he rfl ()
  obtain ⟨pre, post, htokens, hsplit⟩ := hblock m hm hrm
  have hinner : sample.content m = "b" := by decide +kernel
  rw [hcontent, hinner] at hsplit
  exact ⟨_, he, rfl, hm, hrm, by decide, hcontent, hfind, pre, post, htokens, hsplit⟩

end PatternTree.Forest
