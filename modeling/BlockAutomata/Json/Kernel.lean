/-
  The JSON form of kernel settings.

  Every setting that is left out has its standard value.
-/
import BlockAutomata.Json.Fields
import BlockAutomata.Kernel.Config

namespace BlockAutomata.Kernel.Config

private def workgroupOfJson? (j : Json) : Option (Nat × Nat × Nat) := do
  let [x, y, z] ← j.list? Json.nat32? | none
  return (x, y, z)

def ofJson? (j : Json) : Option Config := do
  let [radius, workgroup, entryPoint] ← j.record? ["radius", "workgroup_size", "entry_point"]
    | none
  return ⟨← radius.orElse Json.nat32? standard.radius,
    ← workgroup.orElse workgroupOfJson? standard.workgroup,
    ← entryPoint.orElse Json.str? standard.entryPoint⟩

def toJson (c : Config) : Json :=
  let (x, y, z) := c.workgroup
  .obj [("radius", .nat c.radius), ("workgroup_size", .arr [.nat x, .nat y, .nat z]),
    ("entry_point", .str c.entryPoint)]

/-- The valid settings that a text describes; nothing when the text describes none at all. -/
def ofText (text : String) : Option (Except Fault Config) := do
  let c ← ofJson? (← Json.read text)
  return c.check.map fun _ => c

end BlockAutomata.Kernel.Config
