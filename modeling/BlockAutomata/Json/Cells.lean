/-
  The JSON forms of positions, actions, windows and palettes.

  Positions and displacements are records of three coordinates.  A channel map is an object whose
  keys are slots in decimal.  A window is written flat: radius, number of channels and all values;
  reading one back checks none of the three against the others, which is why `FlatWindow` is a type
  of its own.
-/
import BlockAutomata.Action
import BlockAutomata.Json.Fields
import BlockAutomata.Palette
import BlockAutomata.Window

namespace BlockAutomata

/-! ## Positions -/

private def triple? {α : Type} (mk : Int32 → Int32 → Int32 → α) (j : Json) : Option α := do
  let [x, y, z] ← j.record? ["x", "y", "z"] | none
  return mk (← x.required Json.int32?) (← y.required Json.int32?) (← z.required Json.int32?)

private def ofTriple (x y z : Int32) : Json :=
  .obj [("x", .int32 x), ("y", .int32 y), ("z", .int32 z)]

def Offset.ofJson? : Json → Option Offset := triple? Offset.mk

def Offset.toJson (o : Offset) : Json := ofTriple o.x o.y o.z

def Cell.ofJson? : Json → Option Cell := triple? Cell.mk

def Cell.toJson (p : Cell) : Json := ofTriple p.x p.y p.z

def Section.ofJson? : Json → Option Section := triple? Section.mk

def Section.toJson (s : Section) : Json := ofTriple s.x s.y s.z

/-! ## Actions -/

/-- A number below 2^64, spelled in decimal without an escape, a sign or a leading zero. -/
def slotOfKey? (key : Json.Key) : Option Nat :=
  if key.plain then
    match Json.number? key.name.toList with
    | some (.int n, []) => if 0 ≤ n ∧ n < 0x10000000000000000 then some n.toNat else none
    | _ => none
  else none

/-- A slot that is named twice takes the later value. -/
def SlotMap.ofJson? (j : Json) : Option SlotMap := do
  let entries ← (← j.members).mapM fun m => do
    return (← slotOfKey? m.1, ← m.2.int64?)
  return SlotMap.ofList entries

def SlotMap.toJson (m : SlotMap) : Json :=
  .obj (m.entries.map fun e => (toString e.1, .int64 e.2))

def Event.ofJson? (j : Json) : Option Event := do
  let [name, value] ← j.record? ["name", "value"] | none
  return ⟨← name.required Json.str?, ← value.optional Json.int64?⟩

def Event.toJson (e : Event) : Json :=
  .obj [("name", .str e.name), ("value", Json.ofOption Json.int64 e.value)]

def Action.ofJson? (j : Json) : Option Action := do
  let [writes, reset, wake, guard, delay, events] ← j.record?
    ["updated", "clear", "wake_points", "conditions", "schedule_delay", "events"] | none
  return {
    writes := ← writes.required SlotMap.ofJson?
    reset := ← reset.required Json.bool?
    wake := ← wake.required (Json.list? Offset.ofJson?)
    guard := ← guard.optional SlotMap.ofJson?
    delay := ← delay.required Json.nat32?
    events := ← events.required (Json.list? Event.ofJson?) }

def Action.toJson (a : Action) : Json :=
  .obj [
    ("updated", a.writes.toJson),
    ("clear", .bool a.reset),
    ("wake_points", Json.ofList Offset.toJson a.wake),
    ("conditions", Json.ofOption SlotMap.toJson a.guard),
    ("schedule_delay", .nat a.delay),
    ("events", Json.ofList Event.toJson a.events)]

/-! ## Windows -/

/-- A window as it is written: nothing relates the number of values to radius and channels. -/
structure FlatWindow where
  radius : Int32
  channels : Nat
  values : List Int64
  deriving DecidableEq, Repr

/-- The written form of a window. -/
def Window.flat (w : Window) : FlatWindow := ⟨Int32.ofNat w.radius, w.channels, w.flatten⟩

def FlatWindow.ofJson? (j : Json) : Option FlatWindow := do
  let [radius, channels, values] ← j.record? ["radius", "channels", "values"] | none
  return ⟨← radius.required Json.int32?, ← channels.required Json.nat64?,
    ← values.required (Json.list? Json.int64?)⟩

def FlatWindow.toJson (w : FlatWindow) : Json :=
  .obj [("radius", .int32 w.radius), ("channels", .nat w.channels),
    ("values", Json.ofList Json.int64 w.values)]

/-! ## Palettes -/

def Block.Property.ofJson? (j : Json) : Option Block.Property := do
  let [name, values] ← j.record? ["name", "values"] | none
  return ⟨← name.required Json.str?, ← values.required (Json.list? Json.str?)⟩

def Block.Property.toJson (p : Block.Property) : Json :=
  .obj [("name", .str p.name), ("values", Json.ofList Json.str p.values)]

def Block.ofJson? (j : Json) : Option Block := do
  let [name, properties] ← j.record? ["name", "properties"] | none
  return ⟨← name.required Json.str?,
    ← properties.orElse (Json.list? Block.Property.ofJson?) []⟩

def Block.toJson (b : Block) : Json :=
  .obj [("name", .str b.name), ("properties", Json.ofList Block.Property.toJson b.properties)]

/-- The text that a file holds, if there is a file and it holds text. -/
def fileText? (contents : Option ByteArray) : Option String := do
  String.fromUTF8? (← contents)

/-- What can go wrong when a palette is loaded. -/
inductive Palette.LoadError where
  /-- there is no file, or it does not hold text -/
  | noText
  /-- the text is not the JSON form of a palette -/
  | malformed
  | invalid (error : Palette.Error)

namespace Palette

/-- The palette whose declaration is written in the text. -/
def ofText (text : String) : Except Palette.LoadError Palette :=
  let blocks? : Option (List Block) := do
    let [blocks] ← (← Json.read text).record? ["blocks"] | none
    blocks.required (Json.list? Block.ofJson?)
  match blocks? with
  | none => .error .malformed
  | some blocks => (ofBlocks blocks).mapError .invalid

/-- The palette whose declaration is written in the file. -/
def ofFile (contents : Option ByteArray) : Except Palette.LoadError Palette :=
  match fileText? contents with
  | none => .error .noText
  | some text => ofText text

end Palette

end BlockAutomata
