/-
  Change records: one changed cell of a section in a single 64-bit number.

  The number holds the new value above twelve bits of local coordinates, four for each axis in the
  order x, z, y (which is not the order of the dense index).  A value of more than 52 bits loses its
  upper bits; every other value and every local coordinate reads back.
-/
import BlockAutomata.Coordinates

namespace BlockAutomata.ChangeRecord

/-- The record that says: the cell at `p` now holds `value`. -/
def encode (p : Cell) (value : Int64) : Int64 :=
  Int64.ofInt
    (value.toInt * 4096 + (cellPart p.x * 256 + cellPart p.z * 16 + cellPart p.y : Nat))

/-- Where in its section the recorded cell lies, from the section's corner. -/
def offset (record : Int64) : Offset :=
  ⟨Int32.ofInt (record.toInt / 256 % 16), Int32.ofInt (record.toInt % 16),
    Int32.ofInt (record.toInt / 16 % 16)⟩

/-- The recorded value. -/
def value (record : Int64) : Int64 := Int64.ofInt (record.toInt / 4096)

end BlockAutomata.ChangeRecord
