/-
  Programs: rules in source order with the slot table that they share.

  A source text is read line by line.  Reading strictly stops at the first line that fails; reading
  leniently leaves such lines out and collects what was wrong with them.
-/
import BlockAutomata.Script.Draft
import BlockAutomata.Script.Reads

namespace BlockAutomata.Script

/-- Rules and the slots of their names. -/
structure Program where
  rules : List Rule
  slots : SlotTable

/-! ## Lines -/

/-- The characters without the return that was met last. -/
def withoutReturn : List Char → List Char
  | '\r' :: met => met
  | met => met

/-- The lines of a text; `met` holds the characters of the current line in reverse.  A line ends
    with a line feed, which may follow a carriage return; at the end of the text no line begins. -/
def splitLines (met : List Char) : List Char → List (List Char)
  | [] => if met.isEmpty then [] else [met.reverse]
  | '\n' :: rest => (withoutReturn met).reverse :: splitLines [] rest
  | c :: rest => splitLines (c :: met) rest

/-- The lines of a source text. -/
def sourceLines (source : String) : List String :=
  (splitLines [] source.toList).map String.ofList

namespace Program

/-! ## Reading -/

/-- The program that has been read. -/
def ofDraft (d : Draft) : Program := ⟨d.rules, d.slots⟩

/-- Read a source text; the first bad line is an error. -/
def ofSource (palette : Palette) (source : String) : Except LineError Program :=
  (Draft.empty.addLines palette (sourceLines source)).map ofDraft

/-- Read the good lines of a source text, and collect the errors of the others. -/
def ofGoodLines (palette : Palette) (source : String) : Program × List LineError :=
  let (d, errors) := Draft.empty.addGoodLines palette (sourceLines source)
  (ofDraft d, errors)

/-! ## Asking -/

/-- The names of the kept channels in order of first use. -/
def names (p : Program) : List String := p.slots.keys

/-- Channels that each cell needs. -/
def channels (p : Program) : Nat := max (Script.channelsNeeded p.rules) (p.slots.size + 1)

/-- The blocks that conditions compare with. -/
def watchedBlocks (p : Program) : List Int64 := Script.watchedBlocks p.rules

end Program

end BlockAutomata.Script
