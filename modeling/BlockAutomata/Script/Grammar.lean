/-
  From the tokens of a line to rules.

  1. **The grammar.**

         line       = nothing | rule ( "|" rule )*
         rule       = condition ( "&"? condition )* "->" effect ( ( "," | "&" )? effect )*
         condition  = test? target "@" condition
                    | state | "!" state
                    | name ( "=" | "!" | ">" | "<" ) sum
         test       = "[" number "]" | "[" ( "!" | ">" | "<" ) number "]"
         target     = neighbourhood name | offset
         effect     = state | name "=" sum | "~" target | "$" name ( "=" sum )?
         sum        = product ( ( "+" | "-" ) product )*
         product    = operand ( ( "*" | "/" | "%" ) operand )*
         operand    = target "@" name | number | state | name
         state      = block ( "[" name "=" value ( "," name "=" value )* "]" )?

  2. **State.**  A reader works on a cursor: the tokens that are left and the slot table.  Names get
     their slots as they are met, and keep them when the rule fails afterwards.  So a failure
     returns the cursor too.

  3. **Termination.**  Every loop takes at least one token in each round.  The loops carry the
     number of tokens that are left; when it is used up only the end of the line can follow, and the
     answer is the one that the end of the line gives.
-/
import BlockAutomata.Neighborhood
import BlockAutomata.Palette
import BlockAutomata.Script.Mismatch
import BlockAutomata.Script.Rule
import BlockAutomata.Script.Slots

namespace BlockAutomata.Script

/-- Where a reader stands: the tokens that are left and the slots given out so far. -/
structure Cursor where
  tokens : List Token
  slots : SlotTable

/-- A reader of tokens. -/
abbrev Reading (α : Type) := ExceptT Mismatch (StateM Cursor) α

namespace Reading

/-! ## The cursor -/

/-- The token at the given distance; past the last one the line has ended. -/
def lookahead (n : Nat) : Reading Token := do return (← get).tokens[n]?.getD .eof

/-- The next token. -/
def next : Reading Token := lookahead 0

/-- Number of tokens that are left. -/
def remaining : Reading Nat := do return (← get).tokens.length

/-- Step over the next token. -/
def skip : Reading Unit := modify fun c => { c with tokens := c.tokens.tail }

/-- Fail at the next token. -/
def fail {α : Type} (cause : GrammarCause) : Reading α := do throw ⟨cause, ← next⟩

/-- Step over the given token, or fail. -/
def need (t : Token) (what : Wanted) : Reading Unit := do
  if (← next) = t then skip else fail (.expected what)

/-- The slot of a name. -/
def slotFor (name : String) : Reading Nat := do
  let c ← get
  let (slot, slots) := c.slots.allocate name
  set { c with slots := slots }
  return slot

/-! ## Targets and block states -/

/-- Whether a target and an `@` come next. -/
def atPath : Reading Bool := do
  match ← next with
  | .identifier _ | .offset _ => return (← lookahead 1) = .atSign
  | _ => return false

/-- A named neighbourhood or an offset. -/
def target : Reading (List Offset) := do
  match ← next with
  | .identifier name =>
    match Neighborhood.find? name with
    | some offsets => skip; return offsets
    | none => fail (.noSuchNeighborhood name)
  | .offset o => skip; return [o]
  | _ => fail (.expected .target)

/-- How a message names a target. -/
def targetLabel : Token → String
  | .identifier name => name
  | t => t.text

/-- A target that consists of one cell. -/
def oneCell : Reading Offset := do
  let first ← next
  match ← target with
  | [o] => return o
  | _ => throw ⟨.severalCells (targetLabel first), first⟩

/-- The spelling of a property value. -/
def valueText : Reading String := do
  match ← next with
  | .identifier value => return value
  | .number n => return toString n.toInt
  | _ => fail (.expected .propertyValue)

/-- The properties after the opening bracket; each changes the state read so far. -/
def properties (palette : Palette) (block : String) : Nat → Int64 → Reading Int64
  | 0, _ => fail (.expected .propertyName)
  | left + 1, state => do
    let .identifier property ← next | fail (.expected .propertyName)
    skip
    need .equals .equalsAfterProperty
    let value ← valueText
    match palette.setProperty state property value with
    | .error _ => fail (.noSuchProperty block property value)
    | .ok state =>
      skip
      match ← next with
      | .comma => skip; properties palette block left state
      | .rightBracket => skip; return state
      | _ => fail (.expected .commaOrBracket)

/-- Whether properties come next, and not a count test. -/
def atProperties : Reading Bool := do
  match ← next, ← lookahead 1, ← lookahead 2 with
  | .leftBracket, .identifier _, .equals => return true
  | _, _, _ => return false

/-- A block, perhaps with properties, as the number of its state. -/
def blockState (palette : Palette) : Reading Int64 := do
  let .constant name ← next | fail (.expected .constant)
  match palette.find? name with
  | none => fail (.noSuchBlock name)
  | some state =>
    skip
    if ← atProperties then
      skip
      properties palette name (← remaining) state
    else return state

/-! ## Expressions -/

/-- A channel of a neighbour, a number, a block state or a channel of the cell. -/
def operand (palette : Palette) : Reading Expr := do
  if ← atPath then
    let o ← oneCell
    skip
    let .identifier name ← next | fail (.expected .nameAfterAt)
    skip
    return .neighbor o (← slotFor name)
  else
    match ← next with
    | .number n => skip; return .literal n
    | .constant _ => return .literal (← blockState palette)
    | .identifier name => skip; return .channel (← slotFor name)
    | _ => fail (.expected .expression)

/-- The operators that bind operands to a product. -/
def productOperator? : Token → Option Operator
  | .star => some .mul
  | .slash => some .div
  | .percent => some .rem
  | _ => none

/-- The operators that bind products to a sum. -/
def sumOperator? : Token → Option Operator
  | .plus => some .add
  | .minus => some .sub
  | _ => none

/-- Operands after the first, as long as an operator precedes them, folded to the left. -/
def chain (operator? : Token → Option Operator) (operand : Reading Expr) :
    Nat → Expr → Reading Expr
  | 0, left => return left
  | n + 1, left => do
    match operator? (← next) with
    | none => return left
    | some op =>
      skip
      let right ← operand
      chain operator? operand n (.arith left right op)

/-- A product. -/
def product (palette : Palette) : Reading Expr := do
  let first ← operand palette
  chain productOperator? (operand palette) (← remaining) first

/-- A sum. -/
def sum (palette : Palette) : Reading Expr := do
  let first ← product palette
  chain sumOperator? (product palette) (← remaining) first

/-! ## Conditions -/

/-- What a count must satisfy. -/
inductive CountTest where
  | exactly (n : Int64)
  | not (n : Int64)
  | greater (n : Int64)
  | less (n : Int64)
  deriving DecidableEq, Repr

/-- The condition that the count passes the test. -/
def CountTest.condition (count : Expr) : CountTest → Cond
  | exactly n => .equal count (.literal n)
  | not n => .differ count (.literal n)
  | greater n => .greater count (.literal n)
  | less n => .less count (.literal n)

/-- A number. -/
def number : Reading Int64 := do
  let .number n ← next | fail (.expected .number)
  skip
  return n

/-- The inside of a count test. -/
def countTest : Reading CountTest := do
  match ← next with
  | .number n => skip; return .exactly n
  | .exclamation => skip; return .not (← number)
  | .greaterThan => skip; return .greater (← number)
  | .lessThan => skip; return .less (← number)
  | _ => fail (.expected .countTest)

/-- A count test with its brackets, if one comes next. -/
def countTest? : Reading (Option CountTest) := do
  if (← next) = .leftBracket then
    skip
    let test ← countTest
    need .rightBracket .closingBracket
    return some test
  else return none

/-- The comparisons that may follow the name of a channel. -/
def comparison? : Token → Option (Expr → Expr → Cond)
  | .equals => some .equal
  | .exclamation => some .differ
  | .greaterThan => some .greater
  | .lessThan => some .less
  | _ => none

/-- A condition on the cell itself. -/
def ownCondition (palette : Palette) : Reading Cond := do
  match ← next with
  | .constant _ => return .isBlock (← blockState palette)
  | .exclamation =>
    skip
    let .constant _ ← next | fail (.expected .constantAfterNot)
    return .not (.isBlock (← blockState palette))
  | .identifier name =>
    skip
    let left := Expr.channel (← slotFor name)
    match comparison? (← next) with
    | none => fail (.expected .comparison)
    | some compare =>
      skip
      return compare left (← sum palette)
  | _ => fail (.expected .condition)

/-- A condition on the cell or on neighbours. -/
def condition (palette : Palette) : Nat → Reading Cond
  | 0 => fail (.expected .condition)
  | left + 1 => do
    let test ← countTest?
    if ← atPath then
      let offsets ← target
      skip
      let inner ← condition palette left
      return (test.getD (.exactly 1)).condition (.count offsets inner)
    else if test.isSome then fail .strayCount
    else ownCondition palette

/-- The conditions up to the arrow. -/
def conditions (palette : Palette) : Nat → Bool → Reading (List Cond)
  | 0, _ => fail (.expected .condition)
  | left + 1, first => do
    if (← next) = .arrow then return []
    else
      if !first && (← next) = .and then skip
      let c ← condition palette (← remaining)
      return c :: (← conditions palette left false)

/-! ## Effects and rules -/

/-- One effect. -/
def effect (palette : Palette) : Reading Effect := do
  match ← next with
  | .constant _ => return .set 0 (.literal (← blockState palette))
  | .identifier name =>
    skip
    let s ← slotFor name
    need .equals .equalsAfterName
    return .set s (← sum palette)
  | .tilde =>
    skip
    return .copy (← oneCell)
  | .dollar =>
    skip
    let .identifier name ← next | fail (.expected .eventName)
    skip
    if (← next) = .equals then
      skip
      return .raise name (some (← sum palette))
    else return .raise name none
  | _ => fail (.expected .effect)

/-- The effects up to the end of the rule. -/
def effects (palette : Palette) : Nat → Bool → Reading (List Effect)
  | 0, first => if first then fail (.expected .effect) else return []
  | left + 1, first => do
    let t ← next
    if !first && (t = .eof || t = .separator) then return []
    else
      if !first && (t = .comma || t = .and) then skip
      let e ← effect palette
      return e :: (← effects palette left false)

/-- One rule. -/
def rule (palette : Palette) : Reading Rule := do
  let cs ← conditions palette (← remaining) true
  match Cond.conjunction? cs with
  | none => fail (.expected .conditionBeforeArrow)
  | some c =>
    skip
    return ⟨c, ← effects palette (← remaining) true⟩

/-- The rules of a line, of which there is at least one. -/
def rules (palette : Palette) : Nat → Reading (List Rule)
  | 0 => fail (.expected .condition)
  | left + 1 => do
    let r ← rule palette
    if (← next) = .separator then
      skip
      return r :: (← rules palette left)
    else return [r]

/-- A whole line. -/
def line (palette : Palette) : Reading (List Rule) := do
  if (← next) = .eof then return []
  else
    let rs ← rules palette (← remaining)
    need .eof .endOfLine
    return rs

end Reading

/-- The rules that the tokens of a line spell, and the slot table afterwards. -/
def Rule.ofTokens (palette : Palette) (slots : SlotTable) (tokens : List Token) :
    Except Mismatch (List Rule) × SlotTable :=
  let (result, cursor) := (Reading.line palette).run.run ⟨tokens, slots⟩
  (result, cursor.slots)

end BlockAutomata.Script
