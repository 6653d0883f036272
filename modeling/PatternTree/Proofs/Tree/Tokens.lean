import Mathlib.Data.List.Basic
import PatternTree.Proofs.Tree.Positions

/-!
# Tokens of a tree

The tokens below an element are listed by their paths, in the order of the text. They are all the
tokens that stand anywhere below it, delimiters included (`mem_tokenPaths`, `mem_tokens`), and those
of a node are the tokens of its parts, one part after the other (`tokens_of_isNode`).
-/

namespace PatternTree

namespace Element

theorem tokenPaths_of_isNode {e : Element} (h : e.isNode = true) :
    e.tokenPaths = e.parts.flatMap fun p => p.2.tokenPaths.map (p.1 :: ·) :=
  (tokenPaths_eq e).trans (match_of_isNode _ _ e h)

/-- The paths of the tokens are those at whose end a token stands. -/
theorem mem_tokenPaths {e : Element} {path : Path} :
    path ∈ e.tokenPaths ↔ ∃ t, e.get? path = some (token t) := by
  induction e using induction_node generalizing path with
  | token t =>
    rw [tokenPaths_eq]
    cases path with
    | nil => simp [get?_nil]
    | cons slot path => cases slot <;> simp [get?_cons, part?, start?, type?, children, finish?]
  | node e hnode ih =>
    rw [tokenPaths_of_isNode hnode, List.mem_flatMap]
    constructor
    · rintro ⟨⟨slot, d⟩, hd, hpath⟩
      obtain ⟨path, hp, rfl⟩ := List.mem_map.1 hpath
      obtain ⟨t, ht⟩ := (ih _ hd).1 hp
      exact ⟨t, by rw [get?_cons, mem_parts.1 hd, Option.bind_some, ht]⟩
    · rintro ⟨t, ht⟩
      cases path with
      | nil =>
        obtain rfl := Option.some.inj ht
        cases hnode
      | cons slot path =>
        obtain ⟨d, hd, ht⟩ := Option.bind_eq_some_iff.1 ht
        have hmem := mem_parts.2 hd
        exact ⟨(slot, d), hmem, List.mem_map.2 ⟨path, (ih _ hmem).2 ⟨t, ht⟩, rfl⟩⟩

/-- The tokens in the order of the text. -/
def tokens (e : Element) : List Token :=
  e.tokenPaths.filterMap fun path => (e.get? path).bind token?

theorem tokens_token (t : Token) : (token t).tokens = [t] := by
  simp [tokens, tokenPaths_eq, get?_nil, token?]

/-- The tokens of a node are those of its parts, one part after the other. -/
theorem tokens_of_isNode {e : Element} (h : e.isNode = true) :
    e.tokens = e.parts.flatMap fun p => p.2.tokens := by
  rw [tokens, tokenPaths_of_isNode h, List.filterMap_flatMap]
  refine List.flatMap_congr fun p hp => ?_
  rw [List.filterMap_map, tokens]
  refine List.filterMap_congr fun path _ => ?_
  rw [Function.comp_apply, get?_cons, mem_parts.1 hp, Option.bind_some]

theorem mem_tokens_of_isNode {e : Element} (h : e.isNode = true) {t : Token} :
    t ∈ e.tokens ↔ ∃ p ∈ e.parts, t ∈ p.2.tokens := by
  rw [tokens_of_isNode h, List.mem_flatMap]

end Element

namespace Forest

theorem tokens_eq {F : Forest} {r : Position} {e : Element} (he : F.get? r = some e) :
    F.tokens r = e.tokenPaths.map r.extend := by
  rw [tokens, he]
  rfl

/-- The tokens of a node are all the tokens that it contains, however deep. -/
theorem mem_tokens {F : Forest} {r : Position} {e : Element} (he : F.get? r = some e)
    (hnode : e.isNode = true) {q : Position} :
    q ∈ F.tokens r ↔ r.contains (some q) = true ∧ ∃ t, F.get? q = some (.token t) := by
  rw [tokens_eq he, List.mem_map, Position.contains_iff]
  constructor
  · rintro ⟨path, hpath, rfl⟩
    obtain ⟨t, ht⟩ := Element.mem_tokenPaths.1 hpath
    refine ⟨?_, t, by rw [get?_extend, he, Option.bind_some, ht]⟩
    cases path with
    | nil =>
      obtain rfl := Option.some.inj ht
      cases hnode
    | cons slot path => exact ⟨slot, path, r.extend_cons slot path⟩
  · rintro ⟨⟨slot, path, rfl⟩, t, ht⟩
    rw [← Position.extend_cons, get?_extend, he, Option.bind_some] at ht
    exact ⟨slot :: path, Element.mem_tokenPaths.2 ⟨t, ht⟩, r.extend_cons slot path⟩

theorem get?_tokens {F : Forest} {r : Position} {e : Element} (he : F.get? r = some e) :
    (F.tokens r).map F.get? = e.tokens.map fun t => some (.token t) := by
  rw [tokens_eq he, List.map_map, Element.tokens, List.map_filterMap, ← List.filterMap_eq_map]
  refine List.filterMap_congr fun path hpath => ?_
  obtain ⟨t, ht⟩ := Element.mem_tokenPaths.1 hpath
  simp [get?_extend, he, ht, Element.token?]

end Forest

end PatternTree
