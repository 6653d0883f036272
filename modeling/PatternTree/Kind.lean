/-!
# Kinds of elements

Every element has a kind, and the kinds form a tree under `element`. The kinds of tokens that can
occur are a type of their own, so that a token never carries an abstract kind.
-/

namespace PatternTree

/-- The kinds a token can have. -/
inductive TokenKind where
  | literal
  | whitespace
  | comment
  | operator
  | quantifier
  | assertion
  | backreference
  | delimiter
  | groupType
  | unknown
deriving DecidableEq, Repr

/-- All kinds: the abstract ones `element` and `anyToken`, those of tokens and those of nodes. -/
inductive Kind where
  | element
  | node
  | anyToken
  | token (k : TokenKind)
  | group
  | capture
  | namedCapture
  | regexp
deriving DecidableEq, Repr

namespace Kind

/-- All kinds in the order of their codes. -/
def all : List Kind :=
  [element, node, anyToken, token .literal, token .whitespace, token .comment, token .operator,
    token .quantifier, token .assertion, token .backreference, token .delimiter, token .groupType,
    token .unknown, group, capture, namedCapture, regexp]

/-- The kind of a code; there is none from 17 on. -/
def ofCode? (code : Nat) : Option Kind := all[code]?

def code (k : Kind) : Nat := all.idxOf k

/-! ## The hierarchy -/

/-- The kind above; the topmost one is above itself. -/
def parent : Kind → Kind
  | element => element
  | node => element
  | anyToken => element
  | token _ => anyToken
  | group => node
  | capture => group
  | namedCapture => capture
  | regexp => group

/-- Whether `base` is met within `n` steps upwards from `k`. -/
def isaWithin : Nat → Kind → Kind → Bool
  | 0, k, base => k == base
  | n + 1, k, base => k == base || isaWithin n k.parent base

/-- Whether `k` is `base` or stands below it. No kind is more than four steps below the top. -/
def isa (k base : Kind) : Bool := isaWithin 4 k base

/-- The same for a base given by its code; a code of no kind is above nothing. -/
def isaCode (k : Kind) (code : Nat) : Bool := (ofCode? code).any k.isa

/-- The kinds of tokens, without the abstract kind above them. -/
def isToken (k : Kind) : Bool := k.isa anyToken && k != anyToken

def isNode (k : Kind) : Bool := k.isa node

/-- The token kind that `k` stands for, if tokens can have it. -/
def tokenKind? : Kind → Option TokenKind
  | token k => some k
  | _ => none

/-! ## Names -/

def name : Kind → String
  | element => "Element"
  | node => "Node"
  | anyToken => "Token"
  | token .literal => "Token::Literal"
  | token .whitespace => "Token::Whitespace"
  | token .comment => "Token::Comment"
  | token .operator => "Token::Operator"
  | token .quantifier => "Token::Quantifier"
  | token .assertion => "Token::Assertion"
  | token .backreference => "Token::Backreference"
  | token .delimiter => "Token::Structure"
  | token .groupType => "Token::GroupType"
  | token .unknown => "Token::Unknown"
  | group => "Structure"
  | capture => "Structure::Capture"
  | namedCapture => "Structure::NamedCapture"
  | regexp => "Structure::Regexp"

/-- What may stand before the name of a kind, once. -/
def qualifier : String := "rx::"

/-- A name without the qualifier, if it starts with one. -/
def unqualified (name : String) : String :=
  if qualifier.toList.isPrefixOf name.toList then
    String.ofList (name.toList.drop qualifier.length)
  else name

/-- The kind of that name, qualified or not. -/
def ofName? (name : String) : Option Kind :=
  all.find? fun k => k.name == unqualified name

end Kind

end PatternTree
