/-
  The blocks of the world, as their owner keeps them.

  1. Every cell has a block, and all but finitely many are air.  Only the others are entered.

  2. Every section counts as loaded unless it has been unloaded.  Changes by the engine do not reach
     an unloaded section; its owner may still put blocks there.

  3. The owner is told about changed cells in batches, one section at a time.  The batches are kept
     in order of arrival.
-/
import Std.Data.TreeMap
import Std.Data.TreeSet
import BlockAutomata.Coordinates
import BlockAutomata.Palette

namespace BlockAutomata

/-! ## The order of positions -/

/-- Cells are ordered by x, then y, then z. -/
instance : Ord Cell :=
  ⟨compareLex (compareOn Cell.x) (compareLex (compareOn Cell.y) (compareOn Cell.z))⟩

instance : Std.TransOrd Cell :=
  inferInstanceAs (Std.TransCmp (compareLex (compareOn Cell.x)
    (compareLex (compareOn Cell.y) (compareOn Cell.z))))

instance : Std.LawfulEqOrd Cell where
  eq_of_compare {a b} h := by
    change (compare a.x b.x).then ((compare a.y b.y).then (compare a.z b.z)) = .eq at h
    rw [Ordering.then_eq_eq, Ordering.then_eq_eq] at h
    obtain ⟨hx, hy, hz⟩ := h
    have hx := Std.LawfulEqOrd.eq_of_compare hx
    have hy := Std.LawfulEqOrd.eq_of_compare hy
    have hz := Std.LawfulEqOrd.eq_of_compare hz
    cases a; cases b
    simp_all

/-- Sections are ordered by x, then y, then z. -/
instance : Ord Section :=
  ⟨compareLex (compareOn Section.x)
    (compareLex (compareOn Section.y) (compareOn Section.z))⟩

instance : Std.TransOrd Section :=
  inferInstanceAs (Std.TransCmp (compareLex (compareOn Section.x)
    (compareLex (compareOn Section.y) (compareOn Section.z))))

instance : Std.LawfulEqOrd Section where
  eq_of_compare {a b} h := by
    change (compare a.x b.x).then ((compare a.y b.y).then (compare a.z b.z)) = .eq at h
    rw [Ordering.then_eq_eq, Ordering.then_eq_eq] at h
    obtain ⟨hx, hy, hz⟩ := h
    have hx := Std.LawfulEqOrd.eq_of_compare hx
    have hy := Std.LawfulEqOrd.eq_of_compare hy
    have hz := Std.LawfulEqOrd.eq_of_compare hz
    cases a; cases b
    simp_all

namespace Engine

/-- A batch of change records of one section. -/
structure Batch where
  position : Section
  records : List Int64
  deriving DecidableEq, Repr

/-- The blocks of the world, the unloaded sections, and the batches received. -/
structure Terrain where
  blocks : Std.TreeMap Cell Int64
  unloaded : List Section
  batches : Array Batch

namespace Terrain

/-- Air everywhere. -/
def empty : Terrain := ⟨∅, [], #[]⟩

instance : Inhabited Terrain := ⟨empty⟩

/-! ## Blocks -/

/-- The block of a cell. -/
def block (t : Terrain) (p : Cell) : Int64 := t.blocks.getD p air

/-- Put a block into a cell, telling nobody. -/
def put (t : Terrain) (p : Cell) (value : Int64) : Terrain :=
  { t with blocks := if value = air then t.blocks.erase p else t.blocks.insert p value }

/-- The cells that are not air with their blocks, in the order of positions. -/
def nonAir (t : Terrain) : List (Cell × Int64) := t.blocks.toList

/-! ## Sections -/

/-- Whether the section is loaded. -/
def isLoaded (t : Terrain) (s : Section) : Bool := !t.unloaded.contains s

/-- Unload a section. -/
def unload (t : Terrain) (s : Section) : Terrain :=
  if t.unloaded.contains s then t else { t with unloaded := s :: t.unloaded }

/-- Load a section. -/
def load (t : Terrain) (s : Section) : Terrain :=
  { t with unloaded := t.unloaded.filter (· ≠ s) }

/-- The loaded sections with a block that is not air, in the order of positions. -/
def populatedSections (t : Terrain) : List Section :=
  (t.blocks.keys.foldl (fun (found : Std.TreeSet Section) p =>
    if t.isLoaded p.home then found.insert p.home else found) ∅).toList

/-! ## Changes by the engine -/

/-- Take over a block that the engine changed; ignored in an unloaded section. -/
def takeOver (t : Terrain) (p : Cell) (value : Int64) : Terrain :=
  if t.isLoaded p.home then t.put p value else t

/-- Receive a batch of change records. -/
def receive (t : Terrain) (s : Section) (records : List Int64) : Terrain :=
  { t with batches := t.batches.push ⟨s, records⟩ }

/-- Take the batches received so far. -/
def takeBatches (t : Terrain) : List Batch × Terrain :=
  (t.batches.toList, { t with batches := #[] })

end Terrain

end Engine

end BlockAutomata
