/-
  The six directions along the axes, and the numbers that channels hold for them.
-/
import BlockAutomata.Coordinates

namespace BlockAutomata.Native

/-- A direction along an axis. -/
inductive Direction where
  | down
  | up
  | north
  | south
  | west
  | east
  deriving DecidableEq, Repr, Inhabited

namespace Direction

/-- All directions in the order of their numbers. -/
def all : List Direction := [down, up, north, south, west, east]

/-- The number of a direction; 0 stands for none. -/
def code : Direction → Int64
  | down => 1
  | up => 2
  | north => 3
  | south => 4
  | west => 5
  | east => 6

/-- The direction with the number. -/
def ofCode? (n : Int64) : Option Direction := all.find? fun d => d.code == n

/-- Where a block that moves this way goes. -/
def offset : Direction → Offset
  | down => ⟨0, -1, 0⟩
  | up => ⟨0, 1, 0⟩
  | north => ⟨0, 0, -1⟩
  | south => ⟨0, 0, 1⟩
  | west => ⟨-1, 0, 0⟩
  | east => ⟨1, 0, 0⟩

/-- The name of a direction. -/
def name : Direction → String
  | down => "Down"
  | up => "Up"
  | north => "North"
  | south => "South"
  | west => "West"
  | east => "East"

theorem ofCode?_code (d : Direction) : ofCode? d.code = some d := by
  cases d <;> rfl

end Direction

end BlockAutomata.Native
