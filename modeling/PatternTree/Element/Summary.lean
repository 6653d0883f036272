import PatternTree.Element.Basic

/-!
# Summaries of an element

What the text below an element says about the element as a whole: its content, the versions that
know all of it, its tokens, the paths of everything below it and the number of its failures. Each
is one `fold`, and delimiters count like any other part.
-/

namespace PatternTree.Element

/-- The text of the pattern that the element stands for. -/
def content : Element → String :=
  fold fun e subs =>
    match e with
    | token t => t.content
    | _ => String.join (subs.map (·.2.2))

/-- The first version that knows everything in the element. -/
def introduced : Element → Version :=
  fold fun e subs =>
    match e with
    | token t => t.introduced
    | _ => (subs.map (·.2.2)).foldl max Version.minimum

/-- The earlier of two removals, where either may be missing. -/
def earlier : Option Version → Option Version → Option Version
  | none, v => v
  | some u, none => some u
  | some u, some v => if v < u then some v else some u

/-- The first version that no longer knows something in the element, if there is one. -/
def removed : Element → Option Version :=
  fold fun e subs =>
    match e with
    | token t => t.removed
    | _ => (subs.map (·.2.2)).foldl earlier none

/-- How many tokens could not be recognised, modulo 2^32. -/
def failures : Element → UInt32 :=
  fold fun e subs =>
    match e with
    | token t => if t.kind = .unknown then 1 else 0
    | _ => (subs.map (·.2.2)).foldl (· + ·) 0

/-- The paths of the tokens, in the order of the text. -/
def tokenPaths : Element → List Path :=
  fold fun e subs =>
    match e with
    | token _ => [[]]
    | _ => subs.flatMap fun p => p.2.2.map (p.1 :: ·)

/-- The paths of the element itself and of everything below it: first the element, then each of
its parts with what is below it. -/
def paths : Element → List Path :=
  fold fun _ subs => [] :: subs.flatMap fun p => p.2.2.map (p.1 :: ·)

/-! ## Equations -/

theorem content_eq (e : Element) :
    e.content =
      match e with
      | token t => t.content
      | e => String.join (e.parts.map fun p => p.2.content) := by
  rw [content, fold_eq]
  cases e <;> simp [Function.comp_def]

theorem introduced_eq (e : Element) :
    e.introduced =
      match e with
      | token t => t.introduced
      | e => (e.parts.map fun p => p.2.introduced).foldl max Version.minimum := by
  rw [introduced, fold_eq]
  cases e <;> simp [Function.comp_def]

theorem removed_eq (e : Element) :
    e.removed =
      match e with
      | token t => t.removed
      | e => (e.parts.map fun p => p.2.removed).foldl earlier none := by
  rw [removed, fold_eq]
  cases e <;> simp [Function.comp_def]

theorem failures_eq (e : Element) :
    e.failures =
      match e with
      | token t => if t.kind = .unknown then 1 else 0
      | e => (e.parts.map fun p => p.2.failures).foldl (· + ·) 0 := by
  rw [failures, fold_eq]
  cases e <;> simp [Function.comp_def]

theorem tokenPaths_eq (e : Element) :
    e.tokenPaths =
      match e with
      | token _ => [[]]
      | e => e.parts.flatMap fun p => p.2.tokenPaths.map (p.1 :: ·) := by
  rw [tokenPaths, fold_eq]
  cases e <;> simp [List.flatMap_map]

theorem paths_eq (e : Element) :
    e.paths = [] :: e.parts.flatMap fun p => p.2.paths.map (p.1 :: ·) := by
  rw [paths, fold_eq]
  simp [List.flatMap_map]

end PatternTree.Element
