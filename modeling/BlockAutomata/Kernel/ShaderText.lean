/-
  Kernel code as the text of a compute shader.

  The text has a fixed head that declares the offsets of the window and the reader of cells, a
  function `iterate` made from the rules, and a fixed entry point.  A loop named 7 uses the
  variables `count_7`, `idx_7`, `i_7` and `o_7`.
-/
import BlockAutomata.Kernel.Code
import BlockAutomata.Kernel.Config

namespace BlockAutomata.Kernel.ShaderText

/-- Lines, each closed by a line feed. -/
def unlines (ls : List String) : String := String.join (ls.map (· ++ "\n"))

/-- A constant vector. -/
def vector (o : Offset) : String :=
  "vec3<i32>(" ++ toString o.x.toInt ++ ", " ++ toString o.y.toInt ++ ", " ++ toString o.z.toInt
    ++ ")"

/-! ## The fixed parts -/

/-- Constants, the offsets of the window and the reader of cells. -/
def header (radius : Nat) (offsets : List Offset) : String :=
  let count := toString offsets.length
  unlines [
    "// ============================================================================",
    "// Generated cellular automaton kernel",
    "// ============================================================================",
    "",
    "const RADIUS: i32 = " ++ toString radius ++ ";",
    "const SIDE: i32 = " ++ toString (2 * radius + 1) ++ ";",
    "const NEIGHBOR_COUNT: u32 = " ++ count ++ "u;",
    "const AIR: i32 = 0;",
    "",
    "const NEIGHBOR_OFFSETS = array<vec3<i32>, " ++ count ++ ">(",
    "\n".intercalate (offsets.map fun o => "    " ++ vector o ++ ","),
    ");",
    "",
    "struct Params \x7b",
    "    cell_count: u32,",
    "\x7d",
    "",
    "@group(0) @binding(0) var<storage, read> input: array<i32>;",
    "@group(0) @binding(1) var<storage, read_write> output: array<i32>;",
    "@group(0) @binding(2) var<uniform> params: Params;",
    "",
    "var<private> neighbors: array<i32, NEIGHBOR_COUNT>;",
    "",
    "// Primitive at \x60p\x60 relative to the evaluated cell; AIR outside the window.",
    "fn cell(p: vec3<i32>) -> i32 \x7b",
    "    if (any(abs(p) > vec3<i32>(RADIUS))) \x7b",
    "        return AIR;",
    "    \x7d",
    "    let q = p + vec3<i32>(RADIUS);",
    "    return neighbors[(q.z * SIDE + q.y) * SIDE + q.x];",
    "\x7d"]

/-- The entry point: one window for each invocation. -/
def entry (config : Config) : String :=
  let (wx, wy, wz) := config.workgroup
  unlines [
    "",
    "@compute @workgroup_size(" ++ toString wx ++ ", " ++ toString wy ++ ", " ++ toString wz ++ ")",
    "fn " ++ config.entryPoint ++ "(",
    "    @builtin(global_invocation_id) id: vec3<u32>,",
    "    @builtin(num_workgroups) groups: vec3<u32>,",
    ") \x7b",
    "    let width = groups.x * " ++ toString wx ++ "u;",
    "    let height = groups.y * " ++ toString wy ++ "u;",
    "    let cell_index = id.x + width * (id.y + height * id.z);",
    "    if (cell_index >= params.cell_count) \x7b",
    "        return;",
    "    \x7d",
    "",
    "    let base = cell_index * NEIGHBOR_COUNT;",
    "    for (var n: u32 = 0u; n < NEIGHBOR_COUNT; n = n + 1u) \x7b",
    "        neighbors[n] = input[base + n];",
    "    \x7d",
    "    output[cell_index] = iterate();",
    "\x7d"]

/-! ## Terms, tests and loops -/

/-- The name of a variable of a loop. -/
def variableName (stem : String) (id : Nat) : String := stem ++ "_" ++ toString id

/-- The cell of an anchor. -/
def anchor : Anchor → String
  | .center => vector Offset.zero
  | .loop id => variableName "o" id

/-- A literal; a negative one stands in parentheses. -/
def literal (n : Int32) : String :=
  if n < 0 then "(" ++ toString n.toInt ++ ")" else toString n.toInt

/-- The place of a read. -/
def place : Anchor → Offset → String
  | .center, o => vector o
  | .loop id, o =>
    if o = Offset.zero then variableName "o" id else variableName "o" id ++ " + " ++ vector o

/-- A term. -/
def term : Term → String
  | .word n => literal n
  | .block a o => "cell(" ++ place a o ++ ")"
  | .result id => variableName "count" id
  | .sign l r =>
    "select(select(0, -1, " ++ term l ++ " < " ++ term r ++ "), 1, " ++ term l ++ " > " ++ term r
      ++ ")"
  | .arith op l r => "(" ++ term l ++ " " ++ op.symbol ++ " " ++ term r ++ ")"

mutual

/-- A test. -/
def test : Test → String
  | .eq l r => term l ++ " == " ++ term r
  | .all [] => "true"
  | .all (t :: ts) => tests (t :: ts)
  | .not t => "!(" ++ test t ++ ")"

/-- Tests in parentheses, joined by "and". -/
def tests : List Test → String
  | [] => ""
  | [t] => "(" ++ test t ++ ")"
  | t :: ts => "(" ++ test t ++ ") && " ++ tests ts

end

/-- The indentation at a depth. -/
def indent : Nat → String
  | 0 => ""
  | n + 1 => "    " ++ indent n

mutual

/-- A loop. -/
def loop (depth : Nat) : Loop → String
  | .mk id base indices body condition =>
    let pad := indent depth
    let total := variableName "count" id
    let list := variableName "idx" id
    let i := variableName "i" id
    let here := variableName "o" id
    let length := toString indices.length
    unlines [
      pad ++ "var " ++ total ++ ": i32 = 0;",
      pad ++ "var " ++ list ++ " = array<i32, " ++ length ++ ">("
        ++ ", ".intercalate (indices.map toString) ++ ");",
      pad ++ "for (var " ++ i ++ ": i32 = 0; " ++ i ++ " < " ++ length ++ "; " ++ i ++ " = " ++ i
        ++ " + 1) \x7b",
      pad ++ "    let " ++ here ++ " = " ++ anchor base ++ " + NEIGHBOR_OFFSETS[" ++ list ++ "["
        ++ i ++ "]];"]
    ++ loops (depth + 1) body
    ++ unlines [
      pad ++ "    if (" ++ test condition ++ ") \x7b",
      pad ++ "        " ++ total ++ " = " ++ total ++ " + 1;",
      pad ++ "    \x7d",
      pad ++ "\x7d"]

/-- Loops one after the other. -/
def loops (depth : Nat) : List Loop → String
  | [] => ""
  | c :: cs => loop depth c ++ loops depth cs

end

/-! ## The whole text -/

/-- A rule with its number. -/
def code (i : Nat) (c : Code) : String :=
  unlines ["", "    // rule " ++ toString i, "    \x7b"]
    ++ loops 2 c.loops
    ++ unlines ["        if (" ++ test c.test ++ ") \x7b"]
    ++ unlines (c.values.map fun t => "            next = " ++ term t ++ ";")
    ++ unlines ["        \x7d", "    \x7d"]

/-- The rules, numbered from `i`. -/
def codes (i : Nat) : List Code → String
  | [] => ""
  | c :: cs => code i c ++ codes (i + 1) cs

/-- The function made from the rules. -/
def iterate (rules : List Code) : String :=
  unlines ["", "fn iterate() -> i32 \x7b",
      "    var next: i32 = cell(" ++ vector Offset.zero ++ ");"]
    ++ codes 0 rules
    ++ unlines ["    return next;", "\x7d"]

/-- The text of the kernel. -/
def whole (config : Config) (offsets : List Offset) (rules : List Code) : String :=
  header config.radius offsets ++ iterate rules ++ entry config

end BlockAutomata.Kernel.ShaderText
