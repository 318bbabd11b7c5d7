/-
  The slot table of a rule script.

  Every name of a kept channel gets the next free slot when it is first met, beginning with slot 1.
  The name `block` always means slot 0 and is never entered.
-/
import BlockAutomata.OrderedMap

namespace BlockAutomata.Script

/-- From the names of kept channels to their slots, in order of first use. -/
abbrev SlotTable := OrderedMap String Nat

/-- The name of the block channel. -/
def blockName : String := "block"

/-- The slot of a name, and the table in which it has one. -/
def SlotTable.allocate (slots : SlotTable) (name : String) : Nat × SlotTable :=
  if name = blockName then (0, slots)
  else
    match slots.find? name with
    | some slot => (slot, slots)
    | none => (slots.size + 1, slots.insert name (slots.size + 1))

/-- The names in ascending order of their slots. -/
def SlotTable.namesBySlot (slots : SlotTable) : List String :=
  (slots.entries.mergeSort fun a b => a.2 ≤ b.2).map Prod.fst

end BlockAutomata.Script
