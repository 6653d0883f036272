import PatternTree.Forest
import PatternTree.Numbering

/-!
# Sessions

A session holds a forest, the options, and the numbers that captures have been given. The forest
never changes; commands change options and numbers only. A number stays with its capture until a
later pass reaches the capture again.
-/

namespace PatternTree

structure Session where
  forest : Forest
  options : Options
  /-- The numbers given so far, the latest first. -/
  numbers : List (Position × UInt32)
deriving Repr

/-- What can be asked of a session that may change it. -/
inductive Command where
  /-- Sets the options that are given and leaves the others. -/
  | setOptions (verbose : Option Bool) (firstCapture : Option UInt32)
  /-- Counts the failures of an element. -/
  | countFailures (target : Position)
  /-- Numbers the captures of an element from the given number on. -/
  | number (target : Position) (start : UInt32)
  /-- Counts the failures of a tree and numbers its captures from the first number on. -/
  | finish (target : Position)
deriving DecidableEq, Repr

/-- The answer to a command. -/
inductive Reply where
  | done
  | failures (count : UInt32)
  | next (number : UInt32)
  | finished (failures next : UInt32)
deriving DecidableEq, Repr

namespace Session

/-- A session in which no capture has a number. -/
def start (forest : Forest) (options : Options) : Session := ⟨forest, options, []⟩

/-- The number of the capture at a position, if it has been given one. -/
def number? (S : Session) (r : Position) : Option UInt32 := S.numbers.lookup r

/-- The failures of the element at a position. -/
def failures (S : Session) (r : Position) : UInt32 :=
  match S.forest.get? r with
  | some e => e.failures
  | none => 0

/-- The numbering pass over the element at a position. -/
def pass (S : Session) (r : Position) (n : UInt32) : Pass :=
  match S.forest.get? r with
  | some e => Numbering.pass S.options e r n
  | none => ⟨[], n, []⟩

/-- The session after a pass. -/
def record (S : Session) (p : Pass) : Session := { S with numbers := p.assigned ++ S.numbers }

/-- The content of the element at a position. -/
def content (S : Session) (r : Position) : String :=
  match S.forest.get? r with
  | some e => e.content
  | none => ""

/-- Carries out a command: the answer, the messages that were traced, and the session after it. To
finish a tree, its failures are counted first; then its captures are numbered, each being told of
as it gets its number; at last the totals are told. The number of captures is found by subtraction. -/
def perform (S : Session) : Command → Reply × List Message × Session
  | .setOptions verbose firstCapture =>
    let options : Options :=
      ⟨verbose.getD S.options.verbose, firstCapture.getD S.options.firstCapture⟩
    (.done, [], { S with options })
  | .countFailures target => (.failures (S.failures target), [], S)
  | .number target start =>
    let p := S.pass target start
    (.next p.next, p.messages, S.record p)
  | .finish target =>
    let failures := S.failures target
    let p := S.pass target S.options.firstCapture
    let message := .finished (S.content target) failures (p.next - S.options.firstCapture)
    (.finished failures p.next, p.messages ++ S.options.log message, S.record p)

/-- The session after commands in a row. -/
def run (S : Session) (commands : List Command) : Session :=
  commands.foldl (fun S c => (S.perform c).2.2) S

end Session

end PatternTree
