/-
  Kernels and how they are built.

  One builder may build several kernels.  It never gives the same name to two loops, whichever
  kernels they are in, and also after it has refused rules.
-/
import BlockAutomata.Kernel.Config
import BlockAutomata.Kernel.Lowering
import BlockAutomata.Kernel.Machine
import BlockAutomata.Kernel.ShaderText

namespace BlockAutomata.Kernel

/-- A kernel: the code and its text. -/
structure Shader where
  config : Config
  /-- the window offsets that the text declares -/
  offsets : List Offset
  rules : List Code
  text : String

namespace Shader

/-- The next block of the cell at the centre of a flattened window. -/
def run (s : Shader) (window : List Int64) : Int64 :=
  (Machine.run ⟨s.config.radius, s.offsets.toArray, window.toArray⟩ s.rules).toInt64

end Shader

/-- Settings, and the next free name of a loop. -/
structure Builder where
  config : Config
  nextId : Nat
  deriving DecidableEq, Repr

namespace Builder

/-- A builder for valid settings. -/
def ofConfig (config : Config) : Except Config.Fault Builder :=
  config.check.map fun _ => ⟨config, 0⟩

/-- Lower the rules one after the other, up to the first that is refused. -/
def lower (radius : Nat) (rules : List Script.Rule) : Lowering (List Code) :=
  rules.mapM (Lowering.rule radius)

/-- Make a kernel of the rules. -/
def build (b : Builder) (rules : List Script.Rule) : Except Refusal Shader × Builder :=
  let (result, nextId) := (lower b.config.radius rules).run.run b.nextId
  let offsets := windowOffsets b.config.radius
  (result.map fun code =>
      ⟨b.config, offsets, code, ShaderText.whole b.config offsets code⟩,
    { b with nextId := nextId })

end Builder

/-- Why there is no kernel. -/
inductive Error where
  | badConfig (fault : Config.Fault)
  | refused (refusal : Refusal)
  deriving DecidableEq, Repr

/-- The wording of each error. -/
def Error.message : Error → String
  | badConfig fault => fault.message
  | refused refusal => refusal.message

/-- Make a kernel of the rules with a builder of its own. -/
def build (config : Config) (rules : List Script.Rule) : Except Error Shader :=
  match Builder.ofConfig config with
  | .error fault => .error (.badConfig fault)
  | .ok b => (b.build rules).1.mapError .refused

end BlockAutomata.Kernel
