import PatternTree.Path
import PatternTree.Token

/-!
# Elements

A pattern's tree is made of elements: tokens at the leaves, plain nodes that hold children, and
groups that besides children may have delimiters: a start, a type and a finish, each any element.

`parts` lists what an element holds, each with its slot, in the order of the text. `fold` is the
one recursion over elements; `fold_eq` says what it computes in terms of `parts`, and
`induction_parts` is the induction that goes with it. Nothing else recurses over elements.
-/

namespace PatternTree

/-- What kind of group it is. A capture remembers what its group matched, under its name if it has
one. -/
inductive Form where
  | plain
  | regexp
  | capture
  | named (name : String)
deriving DecidableEq, Repr

namespace Form

def kind : Form → Kind
  | plain => .group
  | regexp => .regexp
  | capture => .capture
  | named _ => .namedCapture

def isCapture : Form → Bool
  | capture => true
  | named _ => true
  | _ => false

/-- The name of a capture; one without a name has the empty name. -/
def captureName : Form → String
  | named name => name
  | _ => ""

end Form

/-- An element of a pattern's tree. -/
inductive Element where
  | token (t : Token)
  | node (children : List Element)
  | group (form : Form) (start type : Option Element) (children : List Element)
      (finish : Option Element)
deriving Repr

namespace Element

def kind : Element → Kind
  | token t => .token t.kind
  | node _ => .node
  | group form .. => form.kind

def isNode : Element → Bool
  | token _ => false
  | _ => true

def isGroup : Element → Bool
  | group .. => true
  | _ => false

def token? : Element → Option Token
  | token t => some t
  | _ => none

/-- The form of a capture, which tells its name. -/
def captureForm? : Element → Option Form
  | group form .. => if form.isCapture then some form else none
  | _ => none

def children : Element → List Element
  | token _ => []
  | node cs => cs
  | group _ _ _ cs _ => cs

def start? : Element → Option Element
  | group _ s _ _ _ => s
  | _ => none

def type? : Element → Option Element
  | group _ _ t _ _ => t
  | _ => none

def finish? : Element → Option Element
  | group _ _ _ _ f => f
  | _ => none

/-- Everything that is not a blank or a comment. -/
def significant : Element → Bool
  | token t => t.significant
  | _ => true

/-! ## Parts -/

/-- Children with their slots, counted from `i`. -/
def childParts (i : Nat) : List Element → List (Slot × Element)
  | [] => []
  | c :: cs => (.child i, c) :: childParts (i + 1) cs

def delimiterPart (slot : Slot) : Option Element → List (Slot × Element)
  | none => []
  | some d => [(slot, d)]

/-- What an element holds, in the order of the text: start, type, children, finish. -/
def parts (e : Element) : List (Slot × Element) :=
  delimiterPart .start e.start? ++ delimiterPart .type e.type? ++ childParts 0 e.children
    ++ delimiterPart .finish e.finish?

/-- What stands in a slot. -/
def part? (e : Element) : Slot → Option Element
  | .start => e.start?
  | .type => e.type?
  | .child i => e.children[i]?
  | .finish => e.finish?

/-- The element at the end of a path. -/
def get? (e : Element) : Path → Option Element
  | [] => some e
  | slot :: path => (e.part? slot).bind fun d => d.get? path

/-! ## Recursion -/

section Fold

variable {α : Type} (step : Element → List (Slot × Element × α) → α)

mutual

/-- Computes a value for an element from the values of its parts. -/
def fold : Element → α
  | token t => step (token t) []
  | node cs => step (node cs) (foldChildren 0 cs)
  | group form s t cs f =>
    step (group form s t cs f)
      (foldDelimiter .start s ++ foldDelimiter .type t ++ foldChildren 0 cs
        ++ foldDelimiter .finish f)

/-- The values of children, counted from `i`. -/
def foldChildren (i : Nat) : List Element → List (Slot × Element × α)
  | [] => []
  | c :: cs => (.child i, c, fold c) :: foldChildren (i + 1) cs

/-- The value of a delimiter, if there is one. -/
def foldDelimiter (slot : Slot) : Option Element → List (Slot × Element × α)
  | none => []
  | some d => [(slot, d, fold d)]

end

theorem foldChildren_eq (i : Nat) (cs : List Element) :
    foldChildren step i cs = (childParts i cs).map fun p => (p.1, p.2, fold step p.2) := by
  induction cs generalizing i with
  | nil => simp [foldChildren, childParts]
  | cons c cs ih => simp [foldChildren, childParts, ih]

theorem foldDelimiter_eq (slot : Slot) (d : Option Element) :
    foldDelimiter step slot d =
      (delimiterPart slot d).map fun p => (p.1, p.2, fold step p.2) := by
  cases d <;> simp [foldDelimiter, delimiterPart]

/-- **The recursion over elements**: the value of an element is `step` of the element and of its
parts with their values. -/
theorem fold_eq (e : Element) :
    fold step e = step e (e.parts.map fun p => (p.1, p.2, fold step p.2)) := by
  cases e <;>
    simp [fold, parts, foldChildren_eq, foldDelimiter_eq, start?, type?, finish?, children,
      childParts, delimiterPart]

end Fold

/-! ## Induction -/

theorem sizeOf_lt_of_mem_childParts {cs : List Element} {i : Nat} {p : Slot × Element}
    (h : p ∈ childParts i cs) : sizeOf p.2 < sizeOf cs := by
  induction cs generalizing i with
  | nil => simp [childParts] at h
  | cons c cs ih =>
    rw [childParts, List.mem_cons] at h
    rcases h with rfl | h
    · simp
      omega
    · have := ih h
      simp
      omega

theorem sizeOf_lt_of_mem_delimiterPart {slot : Slot} {d : Option Element} {p : Slot × Element}
    (h : p ∈ delimiterPart slot d) : sizeOf p.2 < sizeOf d := by
  cases d with
  | none => simp [delimiterPart] at h
  | some d =>
    rw [delimiterPart, List.mem_singleton] at h
    subst h
    simp

theorem sizeOf_lt_of_mem_parts {e : Element} {p : Slot × Element} (h : p ∈ e.parts) :
    sizeOf p.2 < sizeOf e := by
  cases e with
  | token t => simp [parts, start?, type?, finish?, children, childParts, delimiterPart] at h
  | node cs =>
    have h : p ∈ childParts 0 cs := by
      simpa [parts, start?, type?, finish?, children, delimiterPart] using h
    have := sizeOf_lt_of_mem_childParts h
    simp
    omega
  | group form s t cs f =>
    simp only [parts, start?, type?, finish?, children, List.mem_append] at h
    rcases h with ((h | h) | h) | h
    · have := sizeOf_lt_of_mem_delimiterPart h
      simp
      omega
    · have := sizeOf_lt_of_mem_delimiterPart h
      simp
      omega
    · have := sizeOf_lt_of_mem_childParts h
      simp
      omega
    · have := sizeOf_lt_of_mem_delimiterPart h
      simp
      omega

/-- **Induction over elements**: what holds of an element as soon as it holds of its parts holds of
every element. -/
theorem induction_parts {P : Element → Prop}
    (h : ∀ e : Element, (∀ p ∈ e.parts, P p.2) → P e) (e : Element) : P e :=
  h e fun p hp =>
    have := sizeOf_lt_of_mem_parts hp
    induction_parts h p.2
termination_by sizeOf e

end Element

end PatternTree
