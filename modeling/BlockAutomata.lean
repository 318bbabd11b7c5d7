import BlockAutomata.ChangeRecord
import BlockAutomata.OrderedMap
import BlockAutomata.Palette
import BlockAutomata.Window
import BlockAutomata.CombinedRule
import BlockAutomata.Json.Cells
import BlockAutomata.Script.Interpreter
import BlockAutomata.Json.Script
import BlockAutomata.Json.Kernel
import BlockAutomata.Kernel.Shader
import BlockAutomata.Script.Lexeme
import BlockAutomata.Native.Regrowth
import BlockAutomata.Native.Sliding
import BlockAutomata.Engine.Config
import BlockAutomata.Engine.Storage
import BlockAutomata.Engine.Terrain
import BlockAutomata.Engine.TimingWheel
import BlockAutomata.Engine.Step
import BlockAutomata.Engine.Replacement
import BlockAutomata.Json.Engine
import BlockAutomata.Proofs.Kernel.Simulation
import BlockAutomata.Proofs.Actions
import BlockAutomata.Proofs.Engine.Alike
import BlockAutomata.Proofs.Engine.Deferral
import BlockAutomata.Proofs.Engine.Laziness
import BlockAutomata.Proofs.Engine.OrderFree
import BlockAutomata.Proofs.Kernel.MeaningPreservation
import BlockAutomata.Proofs.Engine.Growth
import BlockAutomata.Proofs.Engine.Exchange
import BlockAutomata.Proofs.Engine.Mirror
import BlockAutomata.Proofs.Engine.Admission
import BlockAutomata.Proofs.Engine.Tracking
import BlockAutomata.Proofs.Engine.Replay
import BlockAutomata.Proofs.Engine.Renumbering
import BlockAutomata.Proofs.Engine.Migration
import BlockAutomata.Proofs.Engine.Layout
import BlockAutomata.Proofs.Script.SlotTables
import BlockAutomata.Proofs.Script.Readers
import BlockAutomata.Proofs.Script.Shapes
import BlockAutomata.Proofs.Script.Rendering
import BlockAutomata.Proofs.Script.Numbering
import BlockAutomata.Proofs.Script.Consistency
import BlockAutomata.Proofs.Script.Lexemes
import BlockAutomata.Proofs.Script.Spelling
import BlockAutomata.Proofs.Script.Horizon
import BlockAutomata.Proofs.Script.Joining
import BlockAutomata.Proofs.Script.Watching
import BlockAutomata.Proofs.Engine.Census
import BlockAutomata.Proofs.Native.Moves
import BlockAutomata.Proofs.Native.Conservation
import BlockAutomata.Proofs.Engine.Agenda
import BlockAutomata.Proofs.Engine.Bookkeeping
import BlockAutomata.Proofs.Palette.Layout
import BlockAutomata.Proofs.Palette.Lenses
import BlockAutomata.Proofs.Native.Regrowing
import BlockAutomata.Proofs.Palette.Partition
import BlockAutomata.Proofs.Palette.Names
import BlockAutomata.Proofs.Palette.Distinction
import BlockAutomata.Proofs.Script.Copying
import BlockAutomata.Proofs.Combination
import BlockAutomata.Proofs.Script.LastWrites
import BlockAutomata.Proofs.Kernel.CarefulRuns
import BlockAutomata.Proofs.Engine.Seeding
import BlockAutomata.Proofs.Engine.Rest
import BlockAutomata.Proofs.Engine.Capacity
import BlockAutomata.Proofs.Script.BadLines
import BlockAutomata.Proofs.Script.Literals
import BlockAutomata.Proofs.Kernel.DeclaredNames
import BlockAutomata.Proofs.Kernel.SharedLayout
import BlockAutomata.Proofs.Script.Division
import BlockAutomata.Proofs.Engine.Edits
