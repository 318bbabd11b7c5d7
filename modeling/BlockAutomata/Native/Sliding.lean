/-
  Blocks that slide through air.

  1. A block moves when it carries a direction and a positive strength.  Moving takes two cells: the
     block clears its own cell, and the air in front adopts the block in the same step.  Both read
     the same view of the world, so they agree on whether the move happens.

  2. Every move costs one unit of strength; a block without strength stops.

  3. A block in the way of a pushing block takes over the push, and the pushing block stays awake.
-/
import BlockAutomata.LocalRule
import BlockAutomata.Native.Direction
import BlockAutomata.Palette

namespace BlockAutomata.Native.Sliding

/-- The slot of the direction in which a block is pushed. -/
def directionSlot : Nat := 1

/-- The slot of the strength with which a block is pushed. -/
def strengthSlot : Nat := 2

/-- A push that a cell receives. -/
structure Push where
  direction : Direction
  block : Int64
  strength : Int64
  deriving DecidableEq, Repr

/-- The push from the neighbour behind, if it pushes this way.  When the block itself is to move,
    air does not count as a pusher. -/
def pushFrom (v : View) (carrying : Bool) (d : Direction) : Option Push :=
  let behind := -d.offset
  let block := v.read behind 0
  let strength := v.read behind strengthSlot
  if (carrying → block ≠ air) ∧ v.read behind directionSlot = d.code ∧ 0 < strength then
    some ⟨d, block, strength⟩
  else none

/-- The first push that the cell receives, in the order of the directions. -/
def received (v : View) (carrying : Bool) : Option Push :=
  Direction.all.findSome? (pushFrom v carrying)

/-- Air takes over the block that is pushed into it. -/
def adopt (p : Push) : Action :=
  let left := p.strength - 1
  Action.write (SlotMap.ofList
    [(0, p.block), (directionSlot, if 0 < left then p.direction.code else 0),
      (strengthSlot, left)])

/-- A block in the way takes over the push. -/
def inherit (p : Push) : Action :=
  Action.write (SlotMap.ofList
    [(directionSlot, p.direction.code), (strengthSlot, p.strength)])

/-- A pushing block leaves its cell if there is air in front of it, and stays awake if not. -/
def push (v : View) (d : Direction) : Action :=
  { Action.write SlotMap.empty with
    reset := v.read d.offset 0 == air
    wake := [Offset.zero, d.offset] }

/-- The direction in which the cell pushes. -/
def pushing (v : View) : Option Direction :=
  if 0 < v.own strengthSlot then Direction.ofCode? (v.own directionSlot) else none

/-- The outcome for one cell. -/
def outcome (v : View) : Outcome :=
  if v.own 0 = air then .ofOption ((received v true).map adopt)
  else
    match pushing v with
    | some d => .one (push v d)
    | none => .ofOption ((received v false).map inherit)

/-- The rule.  It looks at every block. -/
def rule : LocalRule where
  names := ["push_direction", "push_strength"]
  channels := 3
  watches := fun _ => true
  outcome := outcome

end BlockAutomata.Native.Sliding
