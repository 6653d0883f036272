import PatternTree.Kind
import PatternTree.Text.Cut

/-!
# Trace messages

While the option `verbose` is on, numbering, finishing and faults during a search are traced. A
message is kept as what happened; its text joins words by blanks, and the line that is written is
that text up to its first NUL.
-/

namespace PatternTree

/-- Why a predicate gave no answer: with a description of the trouble, or without one. -/
inductive Fault where
  | described (message : String)
  | unknown
deriving DecidableEq, Repr

def Fault.text : Fault → String
  | described message => Text.cut message
  | unknown => "unknown exception"

/-- The two ways to search. -/
inductive SearchMode where
  | all
  | first
deriving DecidableEq, Repr

def SearchMode.name : SearchMode → String
  | all => "find"
  | first => "find_first"

/-- What can be traced. -/
inductive Message where
  /-- A capture got its number. -/
  | numbered (number : UInt32) (name : String)
  /-- A tree was finished. -/
  | finished (content : String) (failures captures : UInt32)
  /-- A predicate failed on an element of that kind and content. -/
  | faulted (mode : SearchMode) (kind : Kind) (content : String) (fault : Fault)
deriving DecidableEq, Repr

namespace Message

def text : Message → String
  | numbered number name => " ".intercalate ["capture", number.toNat.repr, name]
  | finished content failures captures =>
    " ".intercalate ["finish:", "\"" ++ content ++ "\"", "failures", failures.toNat.repr,
      "captures", captures.toNat.repr]
  | faulted mode kind content fault =>
    " ".intercalate [mode.name ++ ": predicate threw on", kind.name, "\"" ++ content ++ "\":",
      fault.text]

/-- The line that is written. -/
def line (m : Message) : String := Text.cut m.text ++ "\n"

/-- The lines of messages in a row. -/
def trace (ms : List Message) : String := String.join (ms.map line)

theorem text_numbered (number : UInt32) (name : String) :
    (numbered number name).text = "capture " ++ number.toNat.repr ++ " " ++ name := by
  rw [← String.toList_inj]
  simp [text]

theorem text_finished (content : String) (failures captures : UInt32) :
    (finished content failures captures).text = "finish: \"" ++ content ++ "\" failures " ++
      failures.toNat.repr ++ " captures " ++ captures.toNat.repr := by
  rw [← String.toList_inj]
  simp [text]

theorem text_faulted (mode : SearchMode) (kind : Kind) (content : String) (fault : Fault) :
    (faulted mode kind content fault).text =
      mode.name ++ ": predicate threw on " ++ kind.name ++ " \"" ++ content ++ "\": " ++ fault.text := by
  rw [← String.toList_inj]
  simp [text]

/-- Of each text that is traced the part before the first NUL is written, as a line of its own. -/
theorem trace_eq (ms : List Message) :
    trace ms = String.join ((ms.map text).map fun t => Text.cut t ++ "\n") := by
  rw [trace, List.map_map]
  rfl

end Message

/-- What can be set by the caller. -/
structure Options where
  /-- Whether messages are traced. -/
  verbose : Bool := false
  /-- The number of the first capture of a finished tree. -/
  firstCapture : UInt32 := 1
deriving DecidableEq, Repr

/-- What is traced of a message. -/
def Options.log (o : Options) (m : Message) : List Message := if o.verbose then [m] else []

end PatternTree
