/-
  Places in an endless world of cells.

  1. A cell has a position with three 32-bit coordinates.  Positions wrap around: displacing a cell
     adds modulo 2^32, so every displacement of every cell is again a cell.

  2. The world is cut into cubic sections of 16 cells along each axis.  The section of a cell is the
     floor of its coordinates divided by 16 (also on the negative side), and within its section the
     cell has a dense index in `[0, 4096)`, laid out `(y * 16 + z) * 16 + x`.

  3. All of this is plain floor division and remainder on integers; nothing here depends on how the
     numbers are stored.
-/

namespace BlockAutomata

/-- Relative displacement from a cell to one of its neighbours. -/
structure Offset where
  x : Int32
  y : Int32
  z : Int32
  deriving DecidableEq, Repr, Inhabited, Hashable

/-- A cell, by its absolute position. -/
structure Cell where
  x : Int32
  y : Int32
  z : Int32
  deriving DecidableEq, Repr, Inhabited, Hashable

/-- A section, by its position counted in sections. -/
structure Section where
  x : Int32
  y : Int32
  z : Int32
  deriving DecidableEq, Repr, Inhabited, Hashable

/-- Cells in a section. -/
def sectionVolume : Nat := 4096

/-! ## Displacements -/

/-- No displacement: the cell itself. -/
def Offset.zero : Offset := ⟨0, 0, 0⟩

/-- The distance in the largest coordinate (Chebyshev norm). -/
def Offset.norm (o : Offset) : Nat :=
  max (max o.x.toInt.natAbs o.y.toInt.natAbs) o.z.toInt.natAbs

/-- The negated displacement leads back. -/
instance : Neg Offset := ⟨fun o => ⟨-o.x, -o.y, -o.z⟩⟩

/-- The sum is one displacement after the other. -/
instance : Add Offset := ⟨fun o p => ⟨o.x + p.x, o.y + p.y, o.z + p.z⟩⟩

theorem Offset.neg_def (o : Offset) : -o = ⟨-o.x, -o.y, -o.z⟩ := rfl

theorem Offset.add_def (o p : Offset) : o + p = ⟨o.x + p.x, o.y + p.y, o.z + p.z⟩ := rfl

/-- The cell reached from `p` by the displacement `o`. -/
def Cell.move (p : Cell) (o : Offset) : Cell := ⟨p.x + o.x, p.y + o.y, p.z + o.z⟩

/-! ## Sections and the cells in them -/

/-- The part of a coordinate that counts sections. -/
def sectionPart (v : Int32) : Int32 := Int32.ofInt (v.toInt / 16)

/-- The part of a coordinate that counts cells inside its section. -/
def cellPart (v : Int32) : Nat := (v.toInt % 16).toNat

theorem cellPart_lt (v : Int32) : cellPart v < 16 := by
  unfold cellPart; omega

/-- The section that holds the cell. -/
def Cell.home (p : Cell) : Section :=
  ⟨sectionPart p.x, sectionPart p.y, sectionPart p.z⟩

/-- Dense index of the cell inside its section. -/
def Cell.index (p : Cell) : Nat :=
  (cellPart p.y * 16 + cellPart p.z) * 16 + cellPart p.x

theorem Cell.index_lt (p : Cell) : p.index < sectionVolume := by
  have hx := cellPart_lt p.x
  have hy := cellPart_lt p.y
  have hz := cellPart_lt p.z
  unfold Cell.index sectionVolume
  omega

/-- Whether the cell touches a face of its section. -/
def Cell.onFace (p : Cell) : Bool :=
  [p.x, p.y, p.z].any fun v => cellPart v == 0 || cellPart v == 15

/-- The layout of the dense index, for any displacement from the corner of a section.  It is
    computed in 32 bits, and a negative result is read as an unsigned 64-bit number. -/
def Offset.index (o : Offset) : Nat :=
  (((o.y * 16 + o.z) * 16 + o.x).toInt % 0x10000000000000000).toNat

/-- The displacement from the corner of a section to its cell with the given index.  Indices are
    taken modulo 2^32; the topmost part is not reduced, so an index past the section goes on
    upwards. -/
def Offset.ofIndex (index : Nat) : Offset :=
  let i := (Int32.ofNat index).toInt
  ⟨Int32.ofInt (i % 16), Int32.ofInt (i / 256), Int32.ofInt (i / 16 % 16)⟩

/-- The cell of the section that has the given index. -/
def Section.cell (s : Section) (index : Nat) : Cell :=
  let o := Offset.ofIndex index
  ⟨s.x * 16 + o.x, s.y * 16 + o.y, s.z * 16 + o.z⟩

/-- The minimum corner of the section. -/
def Section.corner (s : Section) : Cell := s.cell 0

/-- The section as one key of 63 bits, 21 for each axis. -/
def Section.key (s : Section) : Nat :=
  ((s.x.toInt % 0x200000).toNat * 0x200000 + (s.y.toInt % 0x200000).toNat) * 0x200000
    + (s.z.toInt % 0x200000).toNat

/-! ## Written forms -/

private def commaSeparated (x y z : Int32) : String :=
  toString x.toInt ++ ", " ++ toString y.toInt ++ ", " ++ toString z.toInt

/-- Displacements are written in braces. -/
def Offset.text (o : Offset) : String := "\x7b" ++ commaSeparated o.x o.y o.z ++ "\x7d"

/-- Cells are written in parentheses. -/
def Cell.text (p : Cell) : String := "(" ++ commaSeparated p.x p.y p.z ++ ")"

/-- Sections are written in brackets. -/
def Section.text (s : Section) : String := "[" ++ commaSeparated s.x s.y s.z ++ "]"

end BlockAutomata
