import PatternTree.Blueprint
import PatternTree.Store.Make

/-!
# From blueprints to requests

A blueprint asks for an element and all its parts at once, a maker of trees gives one request at a time. The plan
of a blueprint is a row of requests, first those for the parts and last the one that hands the parts over.
-/

namespace PatternTree.Blueprint

mutual

/-- The requests that make what is asked for, after `n` other requests, and the number of the last one; for
nothing there is none. -/
def plan (n : Nat) : Blueprint Version → List (Request (Option Nat)) × Option Nat
  | absent => ([], none)
  | token kind content introduced removed => ([.token kind content introduced removed], some n)
  | node children =>
    let (qs, children) := planAll n children
    (qs ++ [.node children], some (n + qs.length))
  | group heading start type children finish =>
    let (qs₁, start) := plan n start
    let (qs₂, type) := plan (n + qs₁.length) type
    let (qs₃, children) := planAll (n + qs₁.length + qs₂.length) children
    let (qs₄, finish) := plan (n + qs₁.length + qs₂.length + qs₃.length) finish
    let qs := qs₁ ++ qs₂ ++ qs₃ ++ qs₄
    (qs ++ [.group heading start type children finish], some (n + qs.length))

/-- The plans of blueprints in a row, one after the other. -/
def planAll (n : Nat) : List (Blueprint Version) → List (Request (Option Nat)) × List (Option Nat)
  | [] => ([], [])
  | b :: bs =>
    let (qs, k) := plan n b
    let (qs', ks) := planAll (n + qs.length) bs
    (qs ++ qs', k :: ks)

end

end PatternTree.Blueprint
