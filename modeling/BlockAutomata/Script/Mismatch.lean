/-
  Why the tokens of a line are no rules.

  A mismatch is a cause together with the token at which it was found.  Most causes are
  expectations: something was bound to come next and another token stood there.
-/
import BlockAutomata.Script.Token

namespace BlockAutomata.Script

/-- What was bound to come next. -/
inductive Wanted where
  | condition
  | conditionBeforeArrow
  | effect
  | expression
  | target
  | constant
  | number
  | countTest
  /-- after the name of a channel, where a condition stands -/
  | comparison
  | constantAfterNot
  /-- the name of a channel, between a neighbour and what follows -/
  | nameAfterAt
  /-- after the name of a channel, where an effect stands -/
  | equalsAfterName
  | eventName
  | propertyName
  | equalsAfterProperty
  | propertyValue
  | commaOrBracket
  | closingBracket
  | endOfLine
  deriving DecidableEq, Repr

/-- How messages speak of what was wanted. -/
def Wanted.text : Wanted → String
  | condition => "condition"
  | conditionBeforeArrow => "condition before '->'"
  | effect => "result"
  | expression => "expression"
  | target => "neighborhood or offset"
  | constant => "constant"
  | number => "number"
  | countTest => "count predicate"
  | comparison => "'=', '!', '>' or '<' after state name"
  | constantAfterNot => "constant after '!'"
  | nameAfterAt => "state name after '@'"
  | equalsAfterName => "'=' after state name"
  | eventName => "event name after '$'"
  | propertyName => "property name"
  | equalsAfterProperty => "'=' after property name"
  | propertyValue => "property value"
  | commaOrBracket => "',' or ']'"
  | closingBracket => "']'"
  | endOfLine => "end of line"

/-- Why the tokens of a line are no rules. -/
inductive GrammarCause where
  | expected (what : Wanted)
  | noSuchBlock (name : String)
  | noSuchProperty (block property value : String)
  | noSuchNeighborhood (name : String)
  | severalCells (target : String)
  | strayCount
  deriving DecidableEq, Repr

/-- The wording of each cause. -/
def GrammarCause.message : GrammarCause → String
  | expected what => "expected " ++ what.text
  | noSuchBlock name => "unknown constant '" ++ name ++ "'"
  | noSuchProperty block property value =>
    "unknown property " ++ property ++ "=" ++ value ++ " for block '" ++ block ++ "'"
  | noSuchNeighborhood name => "unknown neighborhood '" ++ name ++ "'"
  | severalCells target =>
    "'" ++ target ++ "' addresses several cells where a single offset is required"
  | strayCount => "count predicate must precede a neighbor condition"

/-- A failure at a token. -/
structure Mismatch where
  cause : GrammarCause
  found : Token
  deriving DecidableEq, Repr

end BlockAutomata.Script
