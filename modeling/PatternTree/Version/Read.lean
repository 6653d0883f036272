import PatternTree.Text.Cut
import PatternTree.Version.Basic

/-!
# Reading versions

The written form is a whole part of at most 999, leading zeros allowed, and optionally a point and
one to six fraction digits. Both parts are read digit by digit into 64-bit words. The bound on the
whole part is checked after every digit and the fraction has only six places, so no step leaves
the range of a word.
-/

namespace PatternTree.Version

/-- Why a version cannot be read. -/
inductive ReadError where
  | malformed (text : String)
deriving DecidableEq, Repr

def ReadError.message : ReadError → String
  | .malformed text => Text.cut ("Invalid Perl version: \"" ++ text ++ "\"")

/-- The greatest whole part that is accepted. -/
def maxWhole : UInt64 := 999

def digitValue (c : Char) : UInt64 := UInt64.ofNat (c.toNat - '0'.toNat)

/-- Reads digits onto `whole` and gives the rest, which starts with no digit; refuses a value that
passes the greatest whole part. -/
def readWhole (whole : UInt64) : List Char → Option (UInt64 × List Char)
  | [] => some (whole, [])
  | c :: cs =>
    if c.isDigit then
      let next := whole * 10 + digitValue c
      if maxWhole < next then none else readWhole next cs
    else some (whole, c :: cs)

/-- Reads the digits of a fraction to the end of the text. `place` is the worth of the digit read
last, so a digit after the place of one millionth is refused. -/
def readFraction (place fraction : UInt64) : List Char → Option UInt64
  | [] => some fraction
  | c :: cs =>
    if c.isDigit && place != 1 then
      readFraction (place / 10) (fraction + digitValue c * (place / 10)) cs
    else none

/-- Reads a version from a list of characters, which must start with a digit. -/
def readChars (cs : List Char) : Option Version :=
  if cs.head?.any Char.isDigit then
    match readWhole 0 cs with
    | some (whole, []) => some (make whole 0)
    | some (whole, '.' :: c :: rest) => (readFraction scale 0 (c :: rest)).map (make whole)
    | _ => none
  else none

/-- The version that a text denotes. -/
def parse (s : String) : Except ReadError Version :=
  match readChars s.toList with
  | some v => .ok v
  | none => .error (.malformed s)

end PatternTree.Version
