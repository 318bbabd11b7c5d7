/-
  Dirt that turns into grass when it has been left alone long enough.

  Every dirt cell that is evaluated asks for its own change, which waits and is guarded by still
  being dirt when the time comes.
-/
import BlockAutomata.LocalRule
import BlockAutomata.Palette

namespace BlockAutomata.Native

/-- Steps that dirt must stay dirt before it becomes grass. -/
def regrowthDelay : Nat := 25

/-- The change that a dirt cell asks for. -/
def regrow (dirt grass : Int64) : Action :=
  Action.guardedWrite regrowthDelay (SlotMap.ofList [(0, dirt)]) (SlotMap.ofList [(0, grass)])

/-- The rule for the given blocks. -/
def regrowth (dirt grass : Int64) : LocalRule where
  names := []
  channels := 1
  watches := fun block => block == dirt
  outcome := fun v => if v.own 0 = dirt then .one (regrow dirt grass) else .idle

/-- A name that the palette does not have. -/
structure MissingBlock where
  name : String
  deriving DecidableEq, Repr

/-- The wording of the error. -/
def MissingBlock.message (e : MissingBlock) : String := "unknown state '" ++ e.name ++ "'"

/-- The rule for the blocks `dirt` and `grass_block` of a palette. -/
def regrowthOf (palette : Palette) : Except MissingBlock LocalRule := do
  let lookup := fun name => ((palette.find? name).elim (.error ⟨name⟩) .ok)
  return regrowth (← lookup "dirt") (← lookup "grass_block")

end BlockAutomata.Native
