/-
  The JSON forms of the engine's settings, reports and notifications.
-/
import BlockAutomata.Engine.Config
import BlockAutomata.Engine.Report
import BlockAutomata.Engine.Terrain
import BlockAutomata.Json.Cells

namespace BlockAutomata.Engine

/-! ## Settings -/

def Config.ofJson? (j : Json) : Option Config := do
  let [wheel, steps, seed, history] ← j.record?
    ["wheel_size", "steps_per_tick", "seed_empty_cells", "history_window"] | none
  return ⟨← wheel.orElse Json.nat64? Config.standard.wheelSize,
    ← steps.orElse Json.nat32? Config.standard.stepsPerTick,
    ← seed.orElse Json.bool? Config.standard.seedAir,
    ← history.orElse Json.nat64? Config.standard.historyLength⟩

def Config.toJson (c : Config) : Json :=
  .obj [("wheel_size", .nat c.wheelSize), ("steps_per_tick", .nat c.stepsPerTick),
    ("seed_empty_cells", .bool c.seedAir), ("history_window", .nat c.historyLength)]

/-- What can go wrong when settings are loaded. -/
inductive ConfigLoadError where
  /-- there is no file, or it does not hold text -/
  | noText
  /-- the text is not the JSON form of settings -/
  | malformed
  | invalid (error : ConfigError)

/-- The valid settings that a text describes. -/
def Config.ofText (text : String) : Except ConfigLoadError Config :=
  match (Json.read text).bind Config.ofJson? with
  | none => .error .malformed
  | some c => (c.check.mapError .invalid).map fun _ => c

/-- The valid settings that a file describes. -/
def Config.ofFile (contents : Option ByteArray) : Except ConfigLoadError Config :=
  match fileText? contents with
  | none => .error .noText
  | some text => Config.ofText text

/-! ## Sections and events -/

/-- The name of each standing. -/
def Standing.name : Standing → String
  | unloaded => "Unloaded"
  | loaded => "Loaded"
  | active => "Active"

def Standing.ofJson? (j : Json) : Option Standing := do
  let (name, contents) ← j.alternative?
  if Json.isUnit contents then [unloaded, loaded, active].find? fun s => s.name = name
  else none

def Standing.toJson (s : Standing) : Json := .str s.name

def Batch.ofJson? (j : Json) : Option Batch := do
  let [position, records] ← j.record? ["section", "records"] | none
  return ⟨← position.required Section.ofJson?, ← records.required (Json.list? Json.int64?)⟩

def Batch.toJson (b : Batch) : Json :=
  .obj [("section", b.position.toJson), ("records", Json.ofList Json.int64 b.records)]

def RaisedEvent.ofJson? (j : Json) : Option RaisedEvent := do
  let [tick, cell, event] ← j.record? ["tick", "pos", "event"] | none
  return ⟨← tick.required Json.nat64?, ← cell.required Cell.ofJson?,
    ← event.required Event.ofJson?⟩

def RaisedEvent.toJson (e : RaisedEvent) : Json :=
  .obj [("tick", .nat e.tick), ("pos", e.cell.toJson), ("event", e.event.toJson)]

/-! ## Reports -/

/-- A length of time in seconds and billionths of a second. -/
structure Duration where
  secs : Nat
  nanos : Nat
  deriving DecidableEq, Repr

/-- Only the two known members are allowed.  Billionths beyond a second are carried over, as far as
    the seconds can hold them. -/
def Duration.ofJson? (j : Json) : Option Duration := do
  if let some ms := j.members then
    if ms.any fun m => m.1.name ≠ "secs" && m.1.name ≠ "nanos" then none
  let [secs, nanos] ← j.record? ["secs", "nanos"] | none
  let secs ← secs.required Json.nat64?
  let nanos ← nanos.required Json.nat32?
  let secs := secs + nanos / 1000000000
  if secs < 0x10000000000000000 then return ⟨secs, nanos % 1000000000⟩ else none

def Duration.toJson (d : Duration) : Json :=
  .obj [("secs", .nat d.secs), ("nanos", .nat d.nanos)]

/-- A report as it is written: with the time that the tick took. -/
structure TimedReport where
  report : Report
  duration : Duration
  deriving DecidableEq, Repr

def TimedReport.ofJson? (j : Json) : Option TimedReport := do
  let tick :: steps :: rest ← j.record?
    ["tick", "steps", "processed_sections", "processed_cells", "applied_actions", "placements",
      "modified_cells", "scheduled_actions", "rejected_actions", "stale_actions", "events",
      "flushed_sections", "duration"] | none
  let tick ← tick.required Json.nat64?
  let steps ← steps.required Json.nat32?
  let counts ← rest.dropLast.mapM fun f => f.required Json.nat64?
  let duration ← (← rest.getLast?).required Duration.ofJson?
  let [busy, cells, applied, placements, modified, scheduled, rejected, stale, events, flushed]
    := counts | none
  return ⟨⟨tick, steps, busy, cells, applied, placements, modified, scheduled, rejected, stale,
    events, flushed⟩, duration⟩

def TimedReport.toJson (t : TimedReport) : Json :=
  let r := t.report
  .obj [("tick", .nat r.tick), ("steps", .nat r.steps),
    ("processed_sections", .nat r.busySections), ("processed_cells", .nat r.evaluated),
    ("applied_actions", .nat r.applied), ("placements", .nat r.placements),
    ("modified_cells", .nat r.modified), ("scheduled_actions", .nat r.scheduled),
    ("rejected_actions", .nat r.rejected), ("stale_actions", .nat r.stale),
    ("events", .nat r.events), ("flushed_sections", .nat r.flushed),
    ("duration", t.duration.toJson)]

end BlockAutomata.Engine
