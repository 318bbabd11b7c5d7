/-
  Named neighbourhoods: the lists of displacements that rules may speak of by name.

  Single neighbours have one displacement each.  The square and cube neighbourhoods (`moore…`)
  list every displacement whose coordinates are -1, 0 or 1; the cross-shaped ones (`neumann…`) list
  the face neighbours.  The forms that end in `self` contain the cell itself as well.  North is -z
  and up is +y.
-/
import BlockAutomata.Coordinates

namespace BlockAutomata.Neighborhood

private def unitSteps : List Int32 := [-1, 0, 1]

/-- The cell and its eight neighbours in the horizontal plane, x outermost. -/
def moore2dSelf : List Offset :=
  unitSteps.flatMap fun x => unitSteps.map fun z => ⟨x, 0, z⟩

/-- The eight neighbours in the horizontal plane. -/
def moore2d : List Offset := moore2dSelf.filter (· ≠ Offset.zero)

/-- The full cube of 27 cells, x outermost and z innermost. -/
def moore3dSelf : List Offset :=
  unitSteps.flatMap fun x => unitSteps.flatMap fun y => unitSteps.map fun z => ⟨x, y, z⟩

/-- The 26 neighbours of the cube. -/
def moore3d : List Offset := moore3dSelf.filter (· ≠ Offset.zero)

/-- The four horizontal face neighbours: north, south, east, west. -/
def neumann2d : List Offset := [⟨0, 0, -1⟩, ⟨0, 0, 1⟩, ⟨1, 0, 0⟩, ⟨-1, 0, 0⟩]

/-- The cell, then its four horizontal face neighbours. -/
def neumann2dSelf : List Offset := Offset.zero :: neumann2d

/-- The six face neighbours: up, down, then the horizontal ones. -/
def neumann3d : List Offset := ⟨0, 1, 0⟩ :: ⟨0, -1, 0⟩ :: neumann2d

/-- The cell, then its six face neighbours. -/
def neumann3dSelf : List Offset := Offset.zero :: neumann3d

/-- Every named neighbourhood, in the order in which the names are listed. -/
def named : List (String × List Offset) := [
  ("self", [Offset.zero]),
  ("up", [⟨0, 1, 0⟩]),
  ("down", [⟨0, -1, 0⟩]),
  ("north", [⟨0, 0, -1⟩]),
  ("east", [⟨1, 0, 0⟩]),
  ("south", [⟨0, 0, 1⟩]),
  ("west", [⟨-1, 0, 0⟩]),
  ("northeast", [⟨1, 0, -1⟩]),
  ("southeast", [⟨1, 0, 1⟩]),
  ("northwest", [⟨-1, 0, -1⟩]),
  ("southwest", [⟨-1, 0, 1⟩]),
  ("moore2d", moore2d),
  ("moore2dself", moore2dSelf),
  ("moore3d", moore3d),
  ("moore3dself", moore3dSelf),
  ("neumann2d", neumann2d),
  ("neumann2dself", neumann2dSelf),
  ("neumann3d", neumann3d),
  ("neumann3dself", neumann3dSelf)]

/-- The displacements of the neighbourhood called `name`. -/
def find? (name : String) : Option (List Offset) := named.lookup name

theorem length_moore3dSelf : moore3dSelf.length = 27 := by decide

end BlockAutomata.Neighborhood
