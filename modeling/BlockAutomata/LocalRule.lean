/-
  Rules: what a cell does, given what it sees.

  A rule is a pure function from views to outcomes, together with what an engine has to know about
  it: the names of the channels that it keeps beside the block, how many channels a cell must carry,
  and for which blocks the rule can ever do something.
-/
import BlockAutomata.Action
import BlockAutomata.View

namespace BlockAutomata

/-- A rule that is evaluated for one cell at a time. -/
structure LocalRule where
  /-- names of the kept channels; the name at position `i` belongs to slot `i + 1` -/
  names : List String
  /-- channels that each cell carries, the block included -/
  channels : Nat
  /-- whether a cell with this block can ever make the rule act -/
  watches : Int64 → Bool
  /-- the outcome for the cell at the centre of the view -/
  outcome : View → Outcome

namespace LocalRule

/-- The slot of a kept channel. -/
def slot? (r : LocalRule) (name : String) : Option Nat :=
  (r.names.idxOf? name).map (· + 1)

instance : Inhabited LocalRule := ⟨⟨[], 1, fun _ => false, fun _ => .idle⟩⟩

end LocalRule

end BlockAutomata
