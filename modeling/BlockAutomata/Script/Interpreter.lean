/-
  Running rules directly.

  1. **Meaning.**  Expressions and conditions are evaluated against a view.  Counting neighbours
     evaluates the condition with the view shifted to each of them.

  2. **An outcome.**  Every rule whose condition holds performs its effects in order.  All of them
     read the same view, and a later write to a slot replaces an earlier one.  Writes that change
     nothing are dropped at the end.  What remains is one action; it wakes the surroundings only if
     it writes.
-/
import BlockAutomata.BlockSet
import BlockAutomata.LocalRule
import BlockAutomata.Script.Program
import BlockAutomata.Text.Quoted

namespace BlockAutomata.Script

/-! ## Meaning -/

mutual

/-- The value of the expression at the centre of the view. -/
def Expr.eval : Expr → View → Int64
  | .literal n, _ => n
  | .channel s, v => v.own s
  | .neighbor o s, v => v.read o s
  | .count os c, v => Int64.ofNat (os.countP fun o => c.holds (v.shift o))
  | .sign l r, v => sign64 (l.eval v) (r.eval v)
  | .arith l r op, v => op.on64 (l.eval v) (r.eval v)

/-- Whether the condition holds at the centre of the view. -/
def Cond.holds : Cond → View → Bool
  | .all cs, v => Cond.allHold cs v
  | .not c, v => !c.holds v
  | .equal l r, v => l.eval v == r.eval v

/-- Whether all conditions hold. -/
def Cond.allHold : List Cond → View → Bool
  | [], _ => true
  | c :: cs, v => c.holds v && Cond.allHold cs v

end

/-! ## Interpreters -/

/-- Rules ready to run. -/
structure Interpreter where
  rules : List Rule
  /-- names of the kept channels in slot order -/
  names : List String
  channels : Nat
  table : BlockSet

/-- Make rules ready to run, with the slot table of their names. -/
def Interpreter.ofRules (rules : List Rule) (slots : SlotTable) : Interpreter where
  rules := rules
  names := slots.namesBySlot
  channels := max (channelsNeeded rules) (slots.namesBySlot.length + 1)
  table := BlockSet.ofList (watchedBlocks rules)

/-- Make the program ready to run. -/
def Program.interpreter (p : Program) : Interpreter := Interpreter.ofRules p.rules p.slots

/-- What has been asked for so far: channel writes, and events in order. -/
structure Demand where
  writes : SlotMap
  events : List Event

namespace Interpreter

/-- Perform one effect.  A copy takes over as many channels as the rules know of. -/
def perform (channels : Nat) (v : View) (d : Demand) : Effect → Demand
  | .set s e => { d with writes := d.writes.insert s (e.eval v) }
  | .copy o =>
    { d with
      writes := (List.range channels).foldl (fun w s => w.insert s (v.read o s)) d.writes }
  | .raise name e =>
    { d with events := d.events ++ [⟨name, e.map fun e => e.eval v⟩] }

/-- Perform the effects of the rule if its condition holds. -/
def fire (channels : Nat) (v : View) (d : Demand) (r : Rule) : Demand :=
  if r.condition.holds v then r.effects.foldl (perform channels v) d else d

/-- Everything that the rules ask for. -/
def demand (i : Interpreter) (v : View) : Demand :=
  i.rules.foldl (fire i.channels v) ⟨SlotMap.empty, []⟩

/-- The outcome for the cell at the centre of the view. -/
def outcome (i : Interpreter) (v : View) : Outcome :=
  let d := i.demand v
  let changed := d.writes.filter fun s value => v.own s != value
  if !changed.isEmpty then .one { Action.write changed with events := d.events }
  else if !d.events.isEmpty then .one (Action.announce d.events)
  else .idle

/-- The rules of the interpreter as one local rule. -/
def localRule (i : Interpreter) : LocalRule where
  names := i.names
  channels := i.channels
  watches := i.table.contains
  outcome := i.outcome

/-- A short description of the rule. -/
def summary (i : Interpreter) : String :=
  Text.described "CompiledRule" [("rule_count", toString i.rules.length),
    ("states", Text.channelNames i.names), ("tracked", toString i.table.size)]

end Interpreter

end BlockAutomata.Script
