/-
  Rules as trees.

  A rule has a condition and a list of effects.  Conditions and expressions refer to each other: a
  condition compares expressions, and an expression may count the neighbours at which a condition
  holds.  Channels are referred to by slot, slot 0 being the block.
-/
import BlockAutomata.Coordinates
import BlockAutomata.Script.Arithmetic

namespace BlockAutomata.Script

mutual

/-- An integer-valued expression. -/
inductive Expr where
  | literal (value : Int64)
  /-- a channel of the cell itself -/
  | channel (slot : Nat)
  /-- a channel of a neighbour -/
  | neighbor (offset : Offset) (slot : Nat)
  /-- the number of offsets at which the condition holds -/
  | count (offsets : List Offset) (condition : Cond)
  /-- the sign of the difference: -1, 0 or 1 -/
  | sign (left right : Expr)
  | arith (left right : Expr) (operator : Operator)

/-- A condition. -/
inductive Cond where
  | all (conditions : List Cond)
  | not (condition : Cond)
  | equal (left right : Expr)

end

deriving instance Repr for Expr, Cond

instance : Inhabited Expr := ⟨.literal 0⟩
instance : Inhabited Cond := ⟨.all []⟩

/-- One thing that a rule does. -/
inductive Effect where
  | set (slot : Nat) (value : Expr)
  /-- every channel of the neighbour at the offset -/
  | copy (offset : Offset)
  | raise (name : String) (value : Option Expr)
  deriving Repr, Inhabited

/-- When the condition holds, the effects happen in order. -/
structure Rule where
  condition : Cond
  effects : List Effect
  deriving Repr, Inhabited

namespace Cond

/-- The two sides differ. -/
def differ (left right : Expr) : Cond := .not (.equal left right)

/-- The left side is greater. -/
def greater (left right : Expr) : Cond := .equal (.sign left right) (.literal 1)

/-- The left side is less. -/
def less (left right : Expr) : Cond := .equal (.sign left right) (.literal (-1))

/-- The cell holds this block. -/
def isBlock (state : Int64) : Cond := .equal (.channel 0) (.literal state)

/-- All of the conditions, of which there must be one; a lone condition stands for itself. -/
def conjunction? : List Cond → Option Cond
  | [] => none
  | [c] => some c
  | cs => some (.all cs)

end Cond

end BlockAutomata.Script
