import PatternTree.Search.Find
import PatternTree.Session
import PatternTree.Store.Make
import PatternTree.Store.Read

/-!
# Sessions in store

A session in store works on the cells themselves. A numbering pass goes from a cell to the cells of its
children and writes each number into the cell of its capture, over the number that is there. Everything else
that can be asked of an element is read from the cells whenever it is asked (`Store.view`), so nothing
but the way numbers are written keeps the answers as they were.
-/

namespace PatternTree

namespace Store

/-! ## Numbering -/

/-- Writes a number into a cell. -/
def setNumber (s : Store) (h : Handle) (n : UInt32) : Store :=
  match s.cell? h with
  | some c => s.set h (some { c with number := some n })
  | none => s

/-- The number of the capture at a position, if it has been given one. -/
def numberAt? (s : Store) (r : Position) : Option UInt32 := (s.handle? r).bind s.number?

/-- What a numbering pass has come to: the store, the next number, and the messages that were traced. -/
structure Marking where
  store : Store
  next : UInt32
  messages : List Message

/-- Gives the next number to a capture. -/
def Marking.give (m : Marking) (options : Options) (h : Handle) (form : Form) : Marking :=
  ⟨m.store.setNumber h m.next, m.next + 1,
    m.messages ++ options.log (.numbered m.next form.captureName)⟩

/-- The pass over a cell: a capture gets its number, and then it is the turn of the children. -/
def mark (options : Options) (h : Handle) (m : Marking) : Except Crash Marking :=
  match m.store.cell? h with
  | none => .error (.cleared h)
  | some c =>
    let m := match c.shape.captureForm? with
      | some form => m.give options h form
      | none => m
    c.shape.children.foldlM
      (fun m p => if _ : p < h then mark options p m else .error (.younger p)) m
termination_by h

/-! ## Questions -/

/-- What can be asked of an element, its number apart. -/
structure View where
  handle : Handle
  kind : Kind
  content : String
  significant : Bool
  introduced : Version
  removed : Option Version
  /-- The text of a token with its kind, for a token. -/
  text : Option String
  /-- The name, for a capture. -/
  name : Option String
  parent : Option Handle
  top : Option Handle
  elements : List Handle
  children : List Position
  significantChildren : List Position
  delimiter : Slot → Int32 → Option Position
  index : Option Step
  nav : List Step
  previousSibling : Option Position
  nextSibling : Option Position
  previousSignificant : Option Position
  nextSignificant : Option Position
  contains : Option Position → Option Bool
  ancestorOf : Option Position → Option Bool

/-- All answers about the element at a position, where `F` is the forest in store. -/
def view (s : Store) (F : Forest) (r : Position) : Option View := do
  let h ← s.handle? r
  let e ← s.element? h
  return {
    handle := h
    kind := e.kind
    content := e.content
    significant := e.significant
    introduced := e.introduced
    removed := e.removed
    text := e.token?.map Token.text
    name := e.captureForm?.map Form.captureName
    parent := s.parent? h
    top := s.top h
    elements := s.elements h
    children := F.children r
    significantChildren := F.significantChildren r
    delimiter := F.delimiter? r
    index := F.index? r
    nav := F.nav r
    previousSibling := F.previousSibling? r
    nextSibling := F.nextSibling? r
    previousSignificant := F.previousSignificant? r
    nextSignificant := F.nextSignificant? r
    contains := fun q => s.contains h (q.bind s.handle?)
    ancestorOf := fun q => s.ancestorOf h (q.bind s.handle?) }

end Store

/-! ## Commands -/

/-- A session that works on the cells of a store. -/
structure StoredSession where
  store : Store
  options : Options

namespace StoredSession

/-- A session on what requests in a row have made. -/
def start (requests : List (Request (Option Nat))) (options : Options) : Except Crash StoredSession :=
  return ⟨← Store.run requests, options⟩

/-- The session with the same forest and options that has given no numbers. -/
def unnumbered (L : StoredSession) : Session := .start L.store.forest L.options

/-- The number of the capture at a position, if it has been given one. -/
def number? (L : StoredSession) (r : Position) : Option UInt32 := L.store.numberAt? r

/-- The answers about the element at a position. -/
def view (L : StoredSession) (r : Position) : Option Store.View := L.store.view L.store.forest r

/-- The numbering pass over the element at a position. -/
def pass (L : StoredSession) (r : Position) (n : UInt32) : Except Crash Store.Marking :=
  match L.store.handle? r with
  | some h => Store.mark L.options h ⟨L.store, n, []⟩
  | none => .ok ⟨L.store, n, []⟩

/-- Carries out a command: the answer, the messages that were traced, and the session after it. -/
def perform (L : StoredSession) : Command → Except Crash (Reply × List Message × StoredSession)
  | .setOptions verbose firstCapture =>
    let options : Options :=
      ⟨verbose.getD L.options.verbose, firstCapture.getD L.options.firstCapture⟩
    .ok (.done, [], { L with options })
  | .countFailures target => .ok (.failures (L.unnumbered.failures target), [], L)
  | .number target start => do
    let m ← L.pass target start
    return (.next m.next, m.messages, { L with store := m.store })
  | .finish target => do
    let failures := L.unnumbered.failures target
    let m ← L.pass target L.options.firstCapture
    let L' : StoredSession := { L with store := m.store }
    let message := .finished (L'.unnumbered.content target) failures (m.next - L.options.firstCapture)
    return (.finished failures m.next, m.messages ++ L.options.log message, L')

/-- The session after commands in a row. -/
def run (L : StoredSession) (commands : List Command) : Except Crash StoredSession :=
  commands.foldlM (fun L c => do return (← L.perform c).2.2) L

/-- All matches below a position, in the forest in store. -/
def find {σ : Type} (L : StoredSession) (r : Position) (want : Selector σ) (s : σ) : Search.Found σ :=
  L.store.forest.find L.options r want s

/-- The first match below a position, in the forest in store. -/
def findFirst {σ : Type} (L : StoredSession) (r : Position) (want : Selector σ) (s : σ) :
    Search.First σ :=
  L.store.forest.findFirst L.options r want s

end StoredSession

end PatternTree
