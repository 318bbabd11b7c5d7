/-
  The palette: which numbers stand for which block states.

  1. **Layout.**  Blocks are declared in order.  A block with properties has one state for every
     choice of a value for each of its properties, and owns as many consecutive numbers.  Inside a
     block the number is mixed radix: the last declared property varies fastest, so the weight of a
     property is the number of choices for the properties after it.

  2. **Air.**  The first block is `air`, without a choice, so the empty state is number 0.

  3. **Reading and writing one property** takes the digit of that property out of the number, or
     moves the number by the difference of two digits times the weight.  The other digits stay.

  4. Everything that can be asked about a number starts from `owner?`, the last block that begins
     at or before it.
-/

namespace BlockAutomata

/-- A property of a block and the values it may take. -/
structure Block.Property where
  name : String
  values : List String
  deriving DecidableEq, Repr, Inhabited

/-- A block as a palette declares it. -/
structure Block where
  name : String
  properties : List Block.Property
  deriving DecidableEq, Repr, Inhabited

/-- Number of ways to choose one value for each property. -/
def choices : List Block.Property → Nat
  | [] => 1
  | p :: rest => p.values.length * choices rest

/-- Number of states of a block. -/
def Block.size (b : Block) : Nat := choices b.properties

/-- The first property called `name`, with its weight: the number of choices for the properties
    after it. -/
def weighted? (name : String) : List Block.Property → Option (Block.Property × Nat)
  | [] => none
  | p :: rest => if p.name = name then some (p, choices rest) else weighted? name rest

/-- A block with the first number it owns. -/
structure Palette.Entry where
  block : Block
  first : Nat
  deriving DecidableEq, Repr, Inhabited

/-- The blocks of a world with the numbers of their states. -/
structure Palette where
  entries : List Palette.Entry
  size : Nat
  deriving DecidableEq, Repr, Inhabited

/-- What can be wrong with a palette, or with a request to it. -/
inductive Palette.Error where
  /-- the first block, here with its name, is not `air` with a single state -/
  | noAir (found : String)
  | repeatedBlock (name : String)
  | emptyProperty (block property : String)
  | noState (state : Int64)
  | noProperty (block property : String)
  | noValue (block property value : String)
  deriving DecidableEq, Repr

private def quote (s : String) : String := "'" ++ s ++ "'"

/-- The wording of each error. -/
def Palette.Error.message : Palette.Error → String
  | noAir found => "palette must declare 'air' as its first block, found " ++ quote found
  | repeatedBlock name => "duplicate block in palette: " ++ name
  | emptyProperty block property =>
    "property " ++ quote property ++ " of block " ++ quote block ++ " has no values"
  | noState state => "unknown block state: " ++ toString state.toInt
  | noProperty block property =>
    "block " ++ quote block ++ " has no property " ++ quote property
  | noValue block property value =>
    "property " ++ quote property ++ " of block " ++ quote block ++ " does not accept "
      ++ quote value

namespace Palette

/-! ## Building -/

/-- Give the blocks consecutive ranges of numbers, the first one beginning at `first`. -/
def layout (first : Nat) : List Block → List Palette.Entry
  | [] => []
  | b :: rest => ⟨b, first⟩ :: layout (first + b.size) rest

/-- The palette of these blocks, in this order. -/
def assign (blocks : List Block) : Palette where
  entries := layout 0 blocks
  size := blocks.foldr (fun b n => b.size + n) 0

/-- Go through the declarations in order; `seen` holds the names met so far.  A property without
    values is reported before a name that repeats. -/
def checkBlocks (seen : List String) : List Block → Except Palette.Error Unit
  | [] => .ok ()
  | b :: rest =>
    match b.properties.find? fun p => p.values.isEmpty with
    | some p => .error (.emptyProperty b.name p.name)
    | none =>
      if b.name ∈ seen then .error (.repeatedBlock b.name)
      else checkBlocks (b.name :: seen) rest

/-- The first block must be `air` with a single state. -/
def checkAir : List Block → Except Palette.Error Unit
  | [] => .error (.noAir "")
  | b :: _ => if b.name = "air" ∧ b.size = 1 then .ok () else .error (.noAir b.name)

/-- The palette that declares these blocks. -/
def ofBlocks (blocks : List Block) : Except Palette.Error Palette := do
  checkAir blocks
  checkBlocks [] blocks
  return assign blocks

/-! ## Asking -/

/-- The last block whose numbers begin at or before `n`. -/
def lastStarting? (n : Nat) : List Palette.Entry → Option Palette.Entry
  | [] => none
  | e :: rest => if e.first ≤ n then (lastStarting? n rest).orElse fun _ => some e else none

/-- The block that owns the number, if the palette has it. -/
def owner? (p : Palette) (state : Int64) : Option Palette.Entry :=
  if 0 ≤ state.toInt ∧ state.toInt < p.size then lastStarting? state.toInt.toNat p.entries
  else none

/-- The declaration of the block that owns the number. -/
def block? (p : Palette) (state : Int64) : Option Block :=
  (p.owner? state).map Palette.Entry.block

/-- The name of the block that owns the number. -/
def name? (p : Palette) (state : Int64) : Option String :=
  (p.block? state).map Block.name

private def namespaceChars : List Char := "minecraft:".toList

/-- A name without the namespace that may stand in front of it. -/
def plainName (name : String) : String :=
  if namespaceChars.isPrefixOf name.toList then
    String.ofList (name.toList.drop namespaceChars.length)
  else name

/-- The default state of the block with this name. -/
def find? (p : Palette) (name : String) : Option Int64 :=
  (p.entries.find? fun e => e.block.name = plainName name).map fun e => Int64.ofNat e.first

/-- The digit of a property of size `size` and weight `weight`. -/
def digit (localState weight size : Nat) : Nat := localState / weight % size

/-- The value that a property of its block has in this state. -/
def property? (p : Palette) (state : Int64) (property : String) : Option String := do
  let e ← p.owner? state
  let (prop, weight) ← weighted? property e.block.properties
  prop.values[digit (state.toInt.toNat - e.first) weight prop.values.length]?

/-- The state that differs from this one by the given value of one property. -/
def setProperty (p : Palette) (state : Int64) (property value : String) :
    Except Palette.Error Int64 :=
  match p.owner? state with
  | none => .error (.noState state)
  | some e =>
    match weighted? property e.block.properties with
    | none => .error (.noProperty e.block.name property)
    | some (prop, weight) =>
      match prop.values.idxOf? value with
      | none => .error (.noValue e.block.name property value)
      | some wanted =>
        let current := digit (state.toInt.toNat - e.first) weight prop.values.length
        .ok (Int64.ofInt (state.toInt + ((wanted : Int) - current) * weight))

/-- The state spelled as block name and property values. -/
def spell (p : Palette) (state : Int64) : String :=
  match p.block? state with
  | none => "<unknown:" ++ toString state.toInt ++ ">"
  | some block =>
    if block.properties.isEmpty then block.name
    else
      let values := block.properties.filterMap fun prop =>
        (p.property? state prop.name).map fun v => prop.name ++ "=" ++ v
      block.name ++ "[" ++ ",".intercalate values ++ "]"

/-! ## The standard blocks -/

private def standardPlain : List String :=
  ["air", "stone", "cobblestone", "dirt", "grass_block", "sand", "gravel", "glass", "oak_log",
    "oak_planks", "hay_block", "water", "lava"]

private def standardWools : List String :=
  ["white", "orange", "yellow", "lime", "green", "cyan", "light_blue", "blue", "purple", "red",
    "black"]

private def wire : Block :=
  let side := fun name => Block.Property.mk name ["none", "side", "up"]
  ⟨"redstone_wire",
    [⟨"power", (List.range 16).map toString⟩,
      side "north", side "east", side "south", side "west"]⟩

/-- Common terrain, wool in eleven colours, and a wire with a power level and four sides. -/
def standardBlocks : List Block :=
  standardPlain.map (⟨·, []⟩) ++ standardWools.map (fun c => ⟨c ++ "_wool", []⟩) ++ [wire]

/-- The palette of the standard blocks. -/
def standard : Palette := assign standardBlocks

end Palette

/-- The number of the empty state. -/
def air : Int64 := 0

end BlockAutomata
