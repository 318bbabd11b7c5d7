/-
  Running kernel code.

  1. A machine holds a flattened window of blocks and the list of window offsets.  It computes by
     itself, on 32 bits, where an offset stands among the blocks.  Every block that it reads is cut
     down to 32 bits.  Cells outside the window, and cells that the flattened form is too short for,
     read 0.

  2. While it runs it keeps the result of every finished loop and the cell where every loop stands
     or last stood.

  3. The result starts as the centre cell.  Each rule whose test holds replaces it by the last of
     its values.  Values are read from the window, never from the result.
-/
import BlockAutomata.Kernel.Code
import BlockAutomata.OrderedMap
import BlockAutomata.Window

namespace BlockAutomata.Kernel

/-- What a kernel invocation reads. -/
structure Machine where
  radius : Nat
  offsets : Array Offset
  blocks : Array Int64

/-- What a running machine remembers of its loops. -/
structure Memory where
  counts : OrderedMap Nat Int32
  places : OrderedMap Nat Offset

/-- No loop has run. -/
def Memory.empty : Memory := ⟨OrderedMap.empty, OrderedMap.empty⟩

namespace Machine

/-- The block at an offset from the centre. -/
def block (m : Machine) (o : Offset) : Int32 :=
  if m.radius < o.norm then 0
  else
    let r := Int32.ofNat m.radius
    let side := 2 * r + 1
    let index := ((o.z + r) * side + (o.y + r)) * side + (o.x + r)
    (m.blocks[placeOfWord index]?.map Int64.toInt32).getD 0

/-- The cell that an anchor stands for, as an offset from the centre. -/
def place (s : Memory) : Anchor → Offset
  | .center => Offset.zero
  | .loop id => (s.places.find? id).getD Offset.zero

/-- The value of a term. -/
def term (m : Machine) (s : Memory) : Term → Int32
  | .word n => n
  | .block anchor o => m.block (place s anchor + o)
  | .result id => (s.counts.find? id).getD 0
  | .sign l r => Script.sign32 (m.term s l) (m.term s r)
  | .arith op l r => op.on32 (m.term s l) (m.term s r)

mutual

/-- Whether a test holds. -/
def test (m : Machine) (s : Memory) : Test → Bool
  | .eq l r => m.term s l == m.term s r
  | .all ts => m.tests s ts
  | .not t => !m.test s t

/-- Whether all tests hold. -/
def tests (m : Machine) (s : Memory) : List Test → Bool
  | [] => true
  | t :: ts => m.test s t && m.tests s ts

end

mutual

/-- Run one loop. -/
def loop (m : Machine) (s : Memory) : Loop → Memory
  | .mk id anchor indices body test =>
    let base := place s anchor
    let (s, n) := indices.foldl (fun (acc : Memory × Int32) i =>
      let here := base + (m.offsets[i]?.getD Offset.zero)
      let s := m.loops { acc.1 with places := acc.1.places.insert id here } body
      (s, if m.test s test then acc.2 + 1 else acc.2)) (s, 0)
    { s with counts := s.counts.insert id n }

/-- Run loops one after the other. -/
def loops (m : Machine) (s : Memory) : List Loop → Memory
  | [] => s
  | c :: cs => m.loops (m.loop s c) cs

end

/-- Run one rule on what is remembered and the result so far. -/
def code (m : Machine) (acc : Memory × Int32) (c : Code) : Memory × Int32 :=
  let s := m.loops acc.1 c.loops
  (s, if m.test s c.test then c.values.foldl (fun _ t => m.term s t) acc.2 else acc.2)

/-- Run the rules. -/
def run (m : Machine) (rules : List Code) : Int32 :=
  (rules.foldl m.code (Memory.empty, m.block Offset.zero)).2

end Machine

end BlockAutomata.Kernel
