/-
  Rules collected line by line.

  Lines are added to a draft one after the other.  The slot table is shared by all of them.  A line
  is all or nothing: when anything in it fails, none of its rules is added, but slots that it gave
  out before stay given out.  Every line counts, whether it is good, bad or empty.
-/
import BlockAutomata.Script.Grammar
import BlockAutomata.Script.Lexeme

namespace BlockAutomata.Script

/-- A failure to read the tokens of a line; lines are numbered from 1. -/
structure GrammarError where
  line : Nat
  cause : GrammarCause
  found : Token
  deriving DecidableEq, Repr

/-- The wording of the failure. -/
def GrammarError.message (e : GrammarError) : String :=
  "line " ++ toString e.line ++ ": " ++ e.cause.message ++ ", found " ++ e.found.text

/-- A failure to read a line of text. -/
inductive LineError where
  | spelling (line : Nat) (error : SpellingError)
  | grammar (error : GrammarError)
  deriving DecidableEq, Repr

namespace LineError

/-- The number of the line. -/
def line : LineError → Nat
  | spelling line _ => line
  | grammar e => e.line

/-- The wording of the failure. -/
def message : LineError → String
  | spelling line e => "line " ++ toString line ++ ": " ++ e.message
  | grammar e => e.message

end LineError

/-- What has been read so far. -/
structure Draft where
  rules : List Rule
  slots : SlotTable
  /-- the number of lines added, good or bad -/
  lines : Nat

namespace Draft

/-- Nothing has been read. -/
def empty : Draft := ⟨[], OrderedMap.empty, 0⟩

/-- Add the tokens of one line; the answer is the number of its rules. -/
def addTokens (palette : Palette) (d : Draft) (tokens : List Token) :
    Except GrammarError Nat × Draft :=
  let line := d.lines + 1
  match Rule.ofTokens palette d.slots tokens with
  | (.ok rules, slots) => (.ok rules.length, ⟨d.rules ++ rules, slots, line⟩)
  | (.error e, slots) => (.error ⟨line, e.cause, e.found⟩, ⟨d.rules, slots, line⟩)

/-- Add one line of text. -/
def addLine (palette : Palette) (d : Draft) (text : String) : Except LineError Nat × Draft :=
  match Token.ofLine text with
  | .error e => (.error (.spelling (d.lines + 1) e), { d with lines := d.lines + 1 })
  | .ok tokens =>
    let (result, d) := d.addTokens palette tokens
    (result.mapError .grammar, d)

/-- Add lines up to the first that fails. -/
def addLines (palette : Palette) (d : Draft) : List String → Except LineError Draft
  | [] => .ok d
  | l :: rest =>
    match d.addLine palette l with
    | (.error e, _) => .error e
    | (.ok _, d) => d.addLines palette rest

/-- Add all lines and collect the errors in order. -/
def addGoodLines (palette : Palette) (d : Draft) : List String → Draft × List LineError
  | [] => (d, [])
  | l :: rest =>
    match d.addLine palette l with
    | (.error e, d) =>
      let (d, errors) := d.addGoodLines palette rest
      (d, e :: errors)
    | (.ok _, d) => d.addGoodLines palette rest

end Draft

end BlockAutomata.Script
