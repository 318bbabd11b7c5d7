/-
  Windows: the cube of cells around one cell, copied out.

  A window of radius r holds (2r+1)^3 cells.  In the flattened form of one channel the x axis varies
  fastest, then y, then z.  Reading a cell or a channel that the window does not hold gives 0, and
  writing there does nothing.

  Places in a window are computed on 32 bits, so there are windows only of radii for which the place
  of every cell is such a number.  A larger window cannot be copied out.
-/
import BlockAutomata.View

namespace BlockAutomata

/-- Cells along one edge of a window. -/
def windowSide (radius : Nat) : Nat := 2 * radius + 1

/-- Cells in a window. -/
def windowVolume (radius : Nat) : Nat := windowSide radius * windowSide radius * windowSide radius

/-- A number of 32 bits as a place in a list.  The numbers below 0 stand for places beyond every
    list. -/
def placeOfWord (n : Int32) : Nat := n.toInt64.toUInt64.toNat

/-- A copy of the cells around one cell: one plane for each channel. -/
structure Window where
  radius : Nat
  planes : Array (Vector Int64 (windowVolume radius))
  planes_pos : 0 < planes.size
  /-- no place leaves the numbers of 32 bits -/
  volume_lt : windowVolume radius < 0x80000000

namespace Window

/-- The window of zeros.  Every window has at least one channel. -/
def zero (radius channels : Nat) (h : windowVolume radius < 0x80000000 := by decide) : Window where
  radius := radius
  planes := Array.replicate (max channels 1) (Vector.replicate _ 0)
  planes_pos := by rw [Array.size_replicate]; exact Nat.le_max_right _ 1
  volume_lt := h

/-- Number of channels. -/
def channels (w : Window) : Nat := w.planes.size

/-- Where a displacement stands in a flattened window of this radius, computed on 32 bits.  As long
    as the volume is below 2^31, which it is for every window, nothing wraps around
    (`indexOf?_eq_place?`); the place of the last corner of a larger one is not a number of
    32 bits. -/
def indexOf? (radius : Nat) (o : Offset) : Option Nat :=
  if o.norm ≤ radius then
    let r := Int32.ofNat radius
    let side := Int32.ofNat (windowSide radius)
    some (placeOfWord (((o.z + r) * side + (o.y + r)) * side + (o.x + r)))
  else none

/-- The displacement that stands at `i` in a flattened window of this radius. -/
def offsetOf (radius i : Nat) : Offset :=
  let side := windowSide radius
  ⟨Int32.ofInt ((i % side : Nat) - (radius : Int)),
    Int32.ofInt ((i / side % side : Nat) - (radius : Int)),
    Int32.ofInt ((i / side / side : Nat) - (radius : Int))⟩

/-- Where a displacement stands in the flattened window. -/
def position? (w : Window) (o : Offset) : Option Nat := indexOf? w.radius o

/-- The value of a slot at a displacement. -/
def read (w : Window) (o : Offset) (slot : Nat) : Int64 :=
  match w.planes[slot]?, w.position? o with
  | some plane, some i => plane[i]?.getD 0
  | _, _ => 0

/-- The window as a view from its centre. -/
def view (w : Window) : View := ⟨w.read, w.channels⟩

/-- Write one value. -/
def set (w : Window) (o : Offset) (slot : Nat) (value : Int64) : Window :=
  match w.position? o with
  | none => w
  | some i =>
    { w with
      planes := w.planes.modify slot fun plane => plane.setIfInBounds i value
      planes_pos := by rw [Array.size_modify]; exact w.planes_pos }

/-- Copy the surroundings out of a view. -/
def ofView (v : View) (radius : Nat) (h : windowVolume radius < 0x80000000 := by decide) :
    Window where
  radius := radius
  planes := ((List.range (max v.channels 1)).map fun slot =>
    Vector.ofFn fun i => v.read (offsetOf radius i) slot).toArray
  planes_pos := by
    simp only [List.size_toArray, List.length_map, List.length_range]; omega
  volume_lt := h

/-- The copy, unless its places leave the numbers of 32 bits. -/
def ofView? (v : View) (radius : Nat) : Option Window :=
  if h : windowVolume radius < 0x80000000 then some (ofView v radius h) else none

/-- The block channel, flattened. -/
def blocks (w : Window) : List Int64 :=
  have := w.planes_pos
  w.planes[0].toList

/-- All channels, flattened one after the other. -/
def flatten (w : Window) : List Int64 := w.planes.toList.flatMap Vector.toList

/-- Write a flattened block channel, as far as both reach. -/
def withBlocks (w : Window) (values : List Int64) : Window :=
  values.zipIdx.foldl (fun w e =>
    if e.2 < windowVolume w.radius then w.set (offsetOf w.radius e.2) 0 e.1 else w) w

end Window

end BlockAutomata
