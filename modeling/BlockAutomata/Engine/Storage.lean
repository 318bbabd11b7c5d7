/-
  The channels of one section, and which of its cells are tracked.

  There is one plane of 4096 values for each channel, and at least one plane.  Reading a channel or
  a cell that does not exist gives 0.  Writing there does nothing, and counts as finding the written
  value already in place.
-/
import BlockAutomata.Action
import BlockAutomata.Engine.CellSet

namespace BlockAutomata.Engine

/-- The values of one channel in a section. -/
abbrev Plane := Vector Int64 sectionVolume

/-- The plane of zeros. -/
def zeroPlane : Plane := Vector.replicate _ 0

/-- What the engine keeps for a section. -/
structure Storage where
  planes : Array Plane
  tracked : CellSet
  planes_pos : 0 < planes.size

namespace Storage

/-- Zeros in every channel, and no tracked cell. -/
def zero (channels : Nat) : Storage where
  planes := Array.replicate (max channels 1) zeroPlane
  tracked := CellSet.empty
  planes_pos := by rw [Array.size_replicate]; exact Nat.le_max_right _ 1

instance : Inhabited Storage := ⟨zero 1⟩

/-- Number of channels. -/
def channels (s : Storage) : Nat := s.planes.size

/-! ## Reading and writing -/

/-- The value of a channel of a cell. -/
def read (s : Storage) (index slot : Nat) : Int64 :=
  match s.planes[slot]? with
  | some plane => plane[index]?.getD 0
  | none => 0

/-- Write a channel of a cell; the answer is the value before. -/
def write (s : Storage) (index slot : Nat) (value : Int64) : Int64 × Storage :=
  if slot < s.channels ∧ index < sectionVolume then
    (s.read index slot,
      { s with
        planes := s.planes.modify slot fun plane => plane.setIfInBounds index value
        planes_pos := by rw [Array.size_modify]; exact s.planes_pos })
  else (value, s)

/-- All channels of a cell in order. -/
def readAll (s : Storage) (index : Nat) : List Int64 :=
  (List.range s.channels).map (s.read index)

/-- Reset every channel of a cell to 0; the answer says whether one of them was something else. -/
def resetCell (s : Storage) (index : Nat) : Bool × Storage :=
  ((s.readAll index).any (· != 0),
    { s with
      planes := s.planes.map fun plane => plane.setIfInBounds index 0
      planes_pos := by rw [Array.size_map]; exact s.planes_pos })

/-- Write channels of a cell in order; the answer says whether one of them held another value. -/
def writeAll (s : Storage) (index : Nat) : List (Nat × Int64) → Bool × Storage
  | [] => (false, s)
  | (slot, value) :: rest =>
    let (old, s) := s.write index slot value
    let (changed, s) := s.writeAll index rest
    (old != value || changed, s)

/-- Overwrite the block channel of the whole section. -/
def setBlocks (s : Storage) (block : Nat → Int64) : Storage :=
  { s with
    planes := s.planes.modify 0 fun _ => Vector.ofFn fun i => block i
    planes_pos := by rw [Array.size_modify]; exact s.planes_pos }

/-- The given blocks, zeros in all other channels, and no tracked cell. -/
def ofBlocks (channels : Nat) (block : Nat → Int64) : Storage := (zero channels).setBlocks block

/-! ## Actions -/

/-- What an action did to its cell. -/
structure Written where
  /-- whether a channel was reset that was not 0, or written that held another value -/
  modified : Bool
  before : Int64
  after : Int64
  deriving DecidableEq, Repr

/-- Apply an action to a cell; nothing happens when its guard does not hold. -/
def perform (s : Storage) (index : Nat) (a : Action) : Option Written × Storage :=
  if a.guardHolds (s.read index) then
    let before := s.read index 0
    let (emptied, s) := if a.reset then s.resetCell index else (false, s)
    let (changed, s) := s.writeAll index a.writes.entries
    (some ⟨emptied || changed, before, s.read index 0⟩, s)
  else (none, s)

/-! ## Tracked cells -/

/-- Track a cell; the answer says whether it was not tracked before. -/
def track (s : Storage) (index : Nat) : Bool × Storage :=
  let (new, tracked) := s.tracked.insert index
  (new, { s with tracked := tracked })

/-- Stop tracking a cell; the answer says whether it was tracked. -/
def untrack (s : Storage) (index : Nat) : Bool × Storage :=
  let (old, tracked) := s.tracked.erase index
  (old, { s with tracked := tracked })

/-- Stop tracking every cell. -/
def untrackAll (s : Storage) : Storage := { s with tracked := CellSet.empty }

/-! ## Layout -/

/-- Rebuild the channels: channel `i` takes over the old channel that the mapping names at `i`, and
    is 0 everywhere when it names none or one that does not exist. -/
def relayout (s : Storage) (mapping : List (Option Nat)) : Storage :=
  let sources := if mapping.isEmpty then [none] else mapping
  { s with
    planes := (sources.map fun source =>
      match source with
      | some slot => s.planes[slot]?.getD zeroPlane
      | none => zeroPlane).toArray
    planes_pos := by
      simp only [List.size_toArray, List.length_map, sources]
      cases mapping <;> simp }

end Storage

end BlockAutomata.Engine
