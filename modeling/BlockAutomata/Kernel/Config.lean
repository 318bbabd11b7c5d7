/-
  Settings of a compute kernel.

  A kernel looks at a window of radius 1 to 4, runs in workgroups of three positive dimensions, and
  is entered through a function whose name is an ASCII identifier.
-/

namespace BlockAutomata.Kernel

/-- Settings of a kernel. -/
structure Config where
  radius : Nat
  /-- invocations in one workgroup along each axis -/
  workgroup : Nat × Nat × Nat
  entryPoint : String
  deriving DecidableEq, Repr

namespace Config

/-- The largest radius of a window. -/
def maxRadius : Nat := 4

/-- A setting that no kernel can be made with. -/
inductive Fault where
  | radius (given : Nat)
  | emptyWorkgroup
  | entryPoint (name : String)
  deriving DecidableEq, Repr

/-- The wording of each fault. -/
def Fault.message (f : Fault) : String :=
  "invalid kernel configuration: " ++ match f with
    | radius given => "radius " ++ toString given ++ " outside 1..=" ++ toString maxRadius
    | emptyWorkgroup => "workgroup dimensions must be non-zero"
    | entryPoint name => "invalid entry point name '" ++ name ++ "'"

/-- The settings that hold where nothing else is said. -/
def standard : Config := ⟨1, (4, 4, 4), "main"⟩

/-- Whether the text is an ASCII identifier. -/
def isIdentifier (s : String) : Bool :=
  match s.toList with
  | [] => false
  | c :: rest => (c.isAlpha || c == '_') && rest.all fun d => d.isAlphanum || d == '_'

/-- Check the settings; radius first, then workgroup, then entry point. -/
def check (c : Config) : Except Fault Unit :=
  let (wx, wy, wz) := c.workgroup
  if c.radius = 0 ∨ maxRadius < c.radius then .error (.radius c.radius)
  else if wx = 0 ∨ wy = 0 ∨ wz = 0 then .error .emptyWorkgroup
  else if !isIdentifier c.entryPoint then .error (.entryPoint c.entryPoint)
  else .ok ()

end Config

end BlockAutomata.Kernel
