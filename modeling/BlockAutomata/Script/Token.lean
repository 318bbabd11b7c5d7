/-
  Tokens of rule lines.

  A token has two written forms.  `text` is how error messages speak of it, and `spelling` is a
  spelling that reads back as the token itself; a line of such spellings, separated by blanks, is
  the canonical source of a list of tokens.
-/
import BlockAutomata.Coordinates

namespace BlockAutomata.Script

/-- A token of a rule line. -/
inductive Token where
  | comment
  | identifier (name : String)
  | constant (name : String)
  | number (value : Int64)
  | offset (value : Offset)
  | arrow
  | atSign
  | dollar
  | tilde
  | and
  | exclamation
  | comma
  | separator
  | leftBracket
  | rightBracket
  | colon
  | equals
  | plus
  | minus
  | star
  | slash
  | percent
  | greaterThan
  | lessThan
  /-- the end of the line -/
  | eof
  deriving DecidableEq, Repr, Inhabited

namespace Token

/-- Whether an operand may end with the token. -/
def endsOperand : Token → Bool
  | identifier _ | constant _ | number _ | offset _ | rightBracket => true
  | _ => false

/-- The spelling of a token that has only one. -/
def symbol? : Token → Option String
  | arrow => some "->"
  | atSign => some "@"
  | dollar => some "$"
  | tilde => some "~"
  | and => some "&"
  | exclamation => some "!"
  | comma => some ","
  | separator => some "|"
  | leftBracket => some "["
  | rightBracket => some "]"
  | colon => some ":"
  | equals => some "="
  | plus => some "+"
  | minus => some "-"
  | star => some "*"
  | slash => some "/"
  | percent => some "%"
  | greaterThan => some ">"
  | lessThan => some "<"
  | _ => none

/-- How messages speak of the token. -/
def text : Token → String
  | comment => "comment"
  | identifier name => "identifier '" ++ name ++ "'"
  | constant name => "constant '#" ++ name ++ "'"
  | number n => "number " ++ toString n.toInt
  | offset o => "offset " ++ o.text
  | eof => "end of line"
  | t => "'" ++ t.symbol?.getD "" ++ "'"

/-! ## Character classes -/

/-- Whether a name may begin with the character. -/
def startsName (c : Char) : Bool := c.isAlpha || c == '_'

/-- Whether a name may go on with the character. -/
def continuesName (c : Char) : Bool := c.isAlphanum || c == '_' || c == '\''

/-- Whether a constant that begins with `#` may go on with the character. -/
def continuesConstant (c : Char) : Bool := continuesName c || c == ':'

/-- Whether a constant can be written with `#` in front. -/
def fitsHash (name : String) : Bool :=
  match name.toList with
  | [] => false
  | c :: rest => startsName c && rest.all continuesConstant

/-- A spelling that reads as the token. -/
def spelling : Token → String
  | identifier name => name
  | constant name => if fitsHash name then "#" ++ name else "\"" ++ name ++ "\""
  | number n => toString n.toInt
  | offset o => o.text
  | t => t.symbol?.getD ""

/-- The canonical source of a list of tokens. -/
def spelledLine (tokens : List Token) : String := " ".intercalate (tokens.map spelling)

end Token

end BlockAutomata.Script
