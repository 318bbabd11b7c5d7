/-
  Several rules evaluated as one.

  1. Rules can be combined when they agree on the names of the slots they share.  The merged list of
     names then extends the list of each part.

  2. The outcome is the outcomes of the parts in order.

  3. A combined rule watches what any part watches.  For small block numbers the answer is looked up
     in a table filled once; for all others the parts are asked.
-/
import BlockAutomata.BlockSet
import BlockAutomata.LocalRule
import BlockAutomata.Text.Quoted

namespace BlockAutomata

/-- A slot that two rules call by different names. -/
structure SlotConflict where
  slot : Nat
  /-- what the earlier rules call it -/
  settled : String
  /-- what the next rule calls it -/
  proposed : String
  deriving DecidableEq, Repr

/-- The wording of the error. -/
def SlotConflict.message (e : SlotConflict) : String :=
  "slot " ++ toString e.slot ++ " is bound to both '" ++ e.settled ++ "' and '" ++ e.proposed
    ++ "'"

/-- Block numbers below this bound are looked up in the table. -/
def tableBound : Nat := 0x8000

/-- Rules that are evaluated together. -/
structure CombinedRule where
  parts : List LocalRule
  names : List String
  table : BlockSet

namespace CombinedRule

/-- Extend a list of names, the first of which belongs to slot `slot`, by the names of another
    rule. -/
def mergeNames (slot : Nat) : List String → List String → Except SlotConflict (List String)
  | [], more => .ok more
  | names, [] => .ok names
  | a :: names, b :: more =>
    if a = b then (mergeNames (slot + 1) names more).map (a :: ·)
    else .error ⟨slot, a, b⟩

/-- The names of all parts. -/
def mergedNames (parts : List LocalRule) : Except SlotConflict (List String) :=
  parts.foldlM (fun names r => mergeNames 1 names r.names) []

/-- Whether some part watches the block. -/
def anyWatches (parts : List LocalRule) (block : Int64) : Bool := parts.any (·.watches block)

/-- Combine the rules. -/
def ofParts (parts : List LocalRule) : Except SlotConflict CombinedRule := do
  let names ← mergedNames parts
  return ⟨parts, names, BlockSet.ofPredicate tableBound (anyWatches parts)⟩

/-- Whether the combined rule watches the block. -/
def watches (r : CombinedRule) (block : Int64) : Bool :=
  if 0 ≤ block.toInt ∧ block.toInt < tableBound then r.table.contains block
  else anyWatches r.parts block

/-- The outcomes of the parts, one after the other. -/
def outcome (r : CombinedRule) (v : View) : Outcome :=
  r.parts.foldl (fun acc part => acc ++ part.outcome v) .idle

/-- The combined rule as one rule. -/
def localRule (r : CombinedRule) : LocalRule where
  names := r.names
  channels := r.names.length + 1
  watches := r.watches
  outcome := r.outcome

/-- A short description of the rule. -/
def summary (r : CombinedRule) : String :=
  Text.described "JoinedRule" [("rule_count", toString r.parts.length),
    ("states", Text.channelNames r.names), ("tracked", toString r.table.size)]

end CombinedRule

end BlockAutomata
