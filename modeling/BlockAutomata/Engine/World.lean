/-
  A world that is evaluated lazily.

  1. **What is kept.**  The engine has storage for some sections: those that were loaded, and those
     into which a tracked cell or a placement reached.  It never makes storage for an unloaded
     section.  Cells elsewhere read their block from the terrain and 0 in every other channel.

  2. **Tracked cells** are the ones to evaluate in the next step.  They come from two sources: when
     a section is loaded, the surroundings of every cell whose block the rule watches; and whenever
     an action is applied, the cells that it wakes.

  3. **Placements** are changes from outside.  They wait until the next step.

  This module has the state, what can be asked about it, and what the outside tells it.  Stepping is
  in `Engine.Step`, exchanging the rule in `Engine.Replacement`.
-/
import BlockAutomata.LocalRule
import BlockAutomata.Engine.Config
import BlockAutomata.Engine.Report
import BlockAutomata.Engine.Storage
import BlockAutomata.Engine.Terrain
import BlockAutomata.Engine.TimingWheel
import BlockAutomata.Text.Quoted

namespace BlockAutomata.Engine

/-- The storage of the sections, in order of creation. -/
abbrev Sections := OrderedMap Section Storage

/-- The value of a channel of a cell: from storage where there is some, else the terrain's block and
    0 in every other channel. -/
def readCell (sections : Sections) (terrain : Terrain) (p : Cell) (slot : Nat) : Int64 :=
  match sections.find? p.home with
  | some storage => storage.read p.index slot
  | none => if slot = 0 then terrain.block p else 0

/-- What the cell at `origin` sees. -/
def surroundings (sections : Sections) (terrain : Terrain) (origin : Cell) (channels : Nat) :
    View where
  read := fun o slot => readCell sections terrain (origin.move o) slot
  channels := channels

/-- An action bound to the cell it is meant for. -/
structure Request where
  cell : Cell
  action : Action
  deriving DecidableEq, Repr

/-- The state of the engine. -/
structure World where
  terrain : Terrain
  rule : LocalRule
  config : Config
  sections : Sections
  wheel : TimingWheel Request
  placements : List Request
  events : Array RaisedEvent
  tick : Nat
  /-- the most recent reports, oldest first -/
  history : List Report

namespace World

/-- An engine that keeps nothing yet. -/
def ofTerrain (terrain : Terrain) (rule : LocalRule) (config : Config) :
    Except ConfigError World :=
  config.check.map fun _ =>
    { terrain := terrain
      rule := rule
      config := config
      sections := OrderedMap.empty
      wheel := TimingWheel.ofSize config.wheelSize
      placements := []
      events := #[]
      tick := 0
      history := [] }

/-! ## Asking -/

/-- The value of a channel of a cell. -/
def read (w : World) (p : Cell) (slot : Nat) : Int64 :=
  readCell w.sections w.terrain p slot

/-- What a cell sees. -/
def viewAt (w : World) (p : Cell) : View :=
  surroundings w.sections w.terrain p w.rule.channels

/-- Number of tracked cells. -/
def trackedCount (w : World) : Nat := w.sections.values.foldr (fun s n => s.tracked.size + n) 0

/-- Whether the cell is tracked. -/
def tracks (w : World) (p : Cell) : Bool :=
  match w.sections.find? p.home with
  | some storage => storage.tracked.contains p.index
  | none => false

/-- Where the section stands. -/
def standing (w : World) (s : Section) : Standing :=
  if !w.terrain.isLoaded s then .unloaded
  else
    match w.sections.find? s with
    | some storage => if storage.tracked.isEmpty then .loaded else .active
    | none => .loaded

/-- Whether nothing is tracked, scheduled or waiting to be placed. -/
def atRest (w : World) : Bool :=
  w.wheel.isEmpty && w.placements.isEmpty && w.trackedCount == 0

/-- Every channel of the cell by name, the block first.  A name that repeats keeps its first place
    and shows the last of its channels. -/
def channelsByName (w : World) (p : Cell) : OrderedMap String Int64 :=
  OrderedMap.ofList (("block", w.read p 0)
    :: w.rule.names.zipIdx.map fun e => (e.1, w.read p (e.2 + 1)))

/-- A short description of the engine. -/
def summary (w : World) : String :=
  Text.described "LazyWorld" [("tick", toString w.tick),
    ("sections", toString w.sections.size), ("tracked", toString w.trackedCount),
    ("scheduled", toString w.wheel.taskCount), ("states", Text.channelNames w.rule.names)]

/-- Take the events raised so far. -/
def takeEvents (w : World) : List RaisedEvent × World :=
  (w.events.toList, { w with events := #[] })

/-! ## Storage and tracking -/

/-- Storage for a section as the terrain has it. -/
def newStorage (w : World) (s : Section) : Storage :=
  Storage.ofBlocks w.rule.channels fun i => w.terrain.block (s.cell i)

/-- Make sure that a loaded section has storage. -/
def provide (w : World) (s : Section) : World :=
  if w.sections.contains s then w
  else if w.terrain.isLoaded s then { w with sections := w.sections.insert s (w.newStorage s) }
  else w

/-- Track a cell, unless its section is unloaded and has no storage. -/
def track (w : World) (p : Cell) : World :=
  let w := w.provide p.home
  { w with sections := w.sections.modify p.home fun s => (s.track p.index).2 }

/-- Track the cells at the given offsets from a cell. -/
def wake (w : World) (p : Cell) (offsets : List Offset) : World :=
  offsets.foldl (fun w o => w.track (p.move o)) w

/-- Whether a cell with this block is a seed. -/
def isSeed (w : World) (block : Int64) : Bool :=
  (block != air || w.config.seedAir) && w.rule.watches block

/-- The seeds of a section. -/
def seeds (w : World) (s : Section) : List Cell :=
  match w.sections.find? s with
  | some storage =>
    ((List.range sectionVolume).filter fun i => w.isSeed (storage.read i 0)).map s.cell
  | none => []

/-- Track the surroundings of every seed of a section. -/
def seed (w : World) (s : Section) : World :=
  (w.seeds s).foldl (fun w p => w.wake p Neighborhood.moore3dSelf) w

/-! ## What the outside tells -/

/-- A section has been loaded, or its blocks have changed: take over the blocks and seed it.
    Ignored when the terrain says that it is not loaded. -/
def sectionLoaded (w : World) (s : Section) : World :=
  if !w.terrain.isLoaded s then w
  else
    let w := if w.sections.contains s then
        let terrain := w.terrain
        { w with sections := w.sections.modify s fun storage =>
            storage.setBlocks fun i => terrain.block (s.cell i) }
      else { w with sections := w.sections.insert s (w.newStorage s) }
    w.seed s

/-- A section has been unloaded: drop what is kept for it. -/
def sectionUnloaded (w : World) (s : Section) : World :=
  { w with sections := w.sections.swapRemove s }

/-- An engine that has taken over every loaded section of the terrain. -/
def ofLoaded (terrain : Terrain) (rule : LocalRule) (config : Config) :
    Except ConfigError World :=
  (ofTerrain terrain rule config).map fun w =>
    terrain.populatedSections.foldl sectionLoaded w

/-- Reset a cell and write the given channels, at the start of the next step. -/
def place (w : World) (p : Cell) (channels : SlotMap) : World :=
  { w with
    placements := w.placements ++ [⟨p, { Action.write channels with reset := true }⟩] }

/-- Put a block into a cell, with 0 in every other channel. -/
def placeBlock (w : World) (p : Cell) (state : Int64) : World :=
  w.place p (SlotMap.ofList [(0, state)])

/-- A name that the rule does not use for any channel. -/
structure NoSuchChannel where
  name : String
  deriving DecidableEq, Repr

/-- The wording of the error. -/
def NoSuchChannel.message (e : NoSuchChannel) : String := "unknown state '" ++ e.name ++ "'"

/-- Channels given by name, on top of those given by slot. -/
def namedChannels (rule : LocalRule) (channels : SlotMap) :
    List (String × Int64) → Except NoSuchChannel SlotMap
  | [] => .ok channels
  | (name, value) :: rest =>
    match rule.slot? name with
    | some slot => namedChannels rule (channels.insert slot value) rest
    | none => .error ⟨name⟩

/-- Put a block into a cell, with channels given by name. -/
def placeNamed (w : World) (p : Cell) (state : Int64) (values : List (String × Int64)) :
    Except NoSuchChannel World :=
  (namedChannels w.rule (SlotMap.ofList [(0, state)]) values).map (w.place p)

end World

end BlockAutomata.Engine
