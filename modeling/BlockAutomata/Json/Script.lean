/-
  The JSON forms of rule trees and programs.

  Trees are written as choices: each node is an object whose only key is the kind of the node.
  Operators are bare names.
-/
import BlockAutomata.Json.Cells
import BlockAutomata.Script.Program

namespace BlockAutomata.Script

/-! ## Writing -/

/-- The name of an operator in JSON. -/
def Operator.jsonName : Operator → String
  | add => "Add"
  | sub => "Sub"
  | mul => "Mul"
  | div => "Div"
  | rem => "Mod"

mutual

def Expr.toJson : Expr → Json
  | .literal n => .ofAlternative "Literal" (.int64 n)
  | .channel s => .ofAlternative "Index" (.nat s)
  | .neighbor o s => .ofAlternative "NeighborIndex" (.arr [o.toJson, .nat s])
  | .count os c =>
    .ofAlternative "NeighborsCount" (.arr [Json.ofList Offset.toJson os, c.toJson])
  | .sign l r => .ofAlternative "Compare" (.arr [l.toJson, r.toJson])
  | .arith l r op =>
    .ofAlternative "Operation" (.arr [l.toJson, r.toJson, .str op.jsonName])

def Cond.toJson : Cond → Json
  | .all cs => .ofAlternative "And" (.arr (Cond.toJsonAll cs))
  | .not c => .ofAlternative "Not" c.toJson
  | .equal l r => .ofAlternative "Equal" (.arr [l.toJson, r.toJson])

def Cond.toJsonAll : List Cond → List Json
  | [] => []
  | c :: cs => c.toJson :: Cond.toJsonAll cs

end

def Effect.toJson : Effect → Json
  | .set s e => .ofAlternative "SetIndex" (.arr [.nat s, e.toJson])
  | .copy o => .ofAlternative "BlockCopy" o.toJson
  | .raise name e =>
    .ofAlternative "TriggerEvent" (.arr [.str name, Json.ofOption Expr.toJson e])

def Rule.toJson (r : Rule) : Json :=
  .obj [("condition", r.condition.toJson), ("effects", Json.ofList Effect.toJson r.effects)]

def Program.toJson (p : Program) : Json :=
  .obj [("rules", Json.ofList Rule.toJson p.rules),
    ("slots", .obj (p.slots.entries.map fun e => (e.1, .nat e.2)))]

/-! ## Reading

  The readers of trees recurse on the JSON value itself. -/

def Operator.ofJson? (j : Json) : Option Operator := do
  let (name, contents) ← j.alternative?
  if Json.isUnit contents then
    [add, sub, mul, div, rem].find? fun op => op.jsonName = name
  else none

mutual

def Expr.ofJson? : Json → Option Expr
  | .obj [(⟨"Literal", _⟩, n)] => n.int64?.map .literal
  | .obj [(⟨"Index", _⟩, s)] => s.nat64?.map .channel
  | .obj [(⟨"NeighborIndex", _⟩, .arr [o, s])] => do
    return .neighbor (← Offset.ofJson? o) (← s.nat64?)
  | .obj [(⟨"NeighborsCount", _⟩, .arr [os, c])] => do
    return .count (← os.list? Offset.ofJson?) (← Cond.ofJson? c)
  | .obj [(⟨"Compare", _⟩, .arr [l, r])] => do
    return .sign (← Expr.ofJson? l) (← Expr.ofJson? r)
  | .obj [(⟨"Operation", _⟩, .arr [l, r, op])] => do
    return .arith (← Expr.ofJson? l) (← Expr.ofJson? r) (← Operator.ofJson? op)
  | _ => none

def Cond.ofJson? : Json → Option Cond
  | .obj [(⟨"And", _⟩, .arr cs)] => (Cond.ofJsonAll? cs).map .all
  | .obj [(⟨"Not", _⟩, c)] => (Cond.ofJson? c).map .not
  | .obj [(⟨"Equal", _⟩, .arr [l, r])] => do
    return .equal (← Expr.ofJson? l) (← Expr.ofJson? r)
  | _ => none

def Cond.ofJsonAll? : List Json → Option (List Cond)
  | [] => some []
  | j :: js => do
    let c ← Cond.ofJson? j
    return c :: (← Cond.ofJsonAll? js)

end

def Effect.ofJson? (j : Json) : Option Effect :=
  match j with
  | .obj [(⟨"SetIndex", _⟩, .arr [s, e])] => do
    return .set (← s.nat64?) (← Expr.ofJson? e)
  | .obj [(⟨"BlockCopy", _⟩, o)] => (Offset.ofJson? o).map .copy
  | .obj [(⟨"TriggerEvent", _⟩, .arr [name, e])] => do
    return .raise (← name.str?) (← e.orNull? Expr.ofJson?)
  | _ => none

def Rule.ofJson? (j : Json) : Option Rule := do
  let [condition, effects] ← j.record? ["condition", "effects"] | none
  return ⟨← condition.required Cond.ofJson?, ← effects.required (Json.list? Effect.ofJson?)⟩

/-- A name that occurs twice keeps its first place and takes the later slot. -/
def slotTableOfJson? (j : Json) : Option SlotTable := do
  let entries ← (← j.members).mapM fun m => do
    return (m.1.name, ← m.2.nat64?)
  return OrderedMap.ofList entries

def Program.ofJson? (j : Json) : Option Program := do
  let [rules, slots] ← j.record? ["rules", "slots"] | none
  return ⟨← rules.required (Json.list? Rule.ofJson?), ← slots.required slotTableOfJson?⟩

/-! ## Files -/

/-- What can go wrong when a program is loaded. -/
inductive ProgramLoadError where
  /-- there is no file, or it does not hold text -/
  | noText
  | invalid (error : LineError)

/-- The program whose source is in the file. -/
def Program.ofFile (palette : Palette) (contents : Option ByteArray) :
    Except ProgramLoadError Program :=
  match fileText? contents with
  | none => .error .noText
  | some source => (Program.ofSource palette source).mapError .invalid

end BlockAutomata.Script
