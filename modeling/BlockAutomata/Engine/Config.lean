/-
  Settings of the engine.
-/

namespace BlockAutomata.Engine

/-- Settings of the engine. -/
structure Config where
  /-- buckets of the timing wheel; delays must be smaller -/
  wheelSize : Nat
  /-- engine steps in one tick -/
  stepsPerTick : Nat
  /-- whether empty cells are seeds too when a section is loaded -/
  seedAir : Bool
  /-- number of reports kept -/
  historyLength : Nat
  deriving DecidableEq, Repr

/-- A setting that the engine cannot work with. -/
inductive ConfigError where
  | wheelSize (given : Nat)
  | stepsPerTick
  | historyLength
  deriving DecidableEq, Repr

/-- The wording of each error. -/
def ConfigError.message (e : ConfigError) : String :=
  "invalid engine configuration: " ++ match e with
    | wheelSize given => "wheel_size must be >= 2, got " ++ toString given
    | stepsPerTick => "steps_per_tick must be >= 1"
    | historyLength => "history_window must be >= 1"

namespace Config

/-- The settings that hold where nothing else is said. -/
def standard : Config := ⟨256, 1, false, 64⟩

/-- A small wheel and a short history. -/
def fast : Config := { standard with wheelSize := 32, historyLength := 8 }

/-- Several steps in each tick. -/
def withSteps (stepsPerTick : Nat) : Config := { standard with stepsPerTick := stepsPerTick }

/-- Check the settings in order. -/
def check (c : Config) : Except ConfigError Unit :=
  if c.wheelSize < 2 then .error (.wheelSize c.wheelSize)
  else if c.stepsPerTick = 0 then .error .stepsPerTick
  else if c.historyLength = 0 then .error .historyLength
  else .ok ()

end Config

end BlockAutomata.Engine
