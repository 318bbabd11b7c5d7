/-
  Kernel code: rules in the form in which a kernel runs them.

  1. Counts of neighbours are taken out of expressions.  Each becomes a loop of its own, with a
     number as its name, that runs before the test which uses its result.

  2. A count inside the test of another count becomes a loop in the body of the other one.  Its
     reads are anchored at the cell where the outer loop stands.

  3. All arithmetic is on 32-bit words, and only the block channel exists.
-/
import BlockAutomata.Script.Rule

namespace BlockAutomata.Kernel

open Script (Operator)

/-- The cell from which a read counts its offset. -/
inductive Anchor where
  | center
  /-- where the loop with this name stands -/
  | loop (id : Nat)
  deriving DecidableEq, Repr, Inhabited

/-- A word-valued expression. -/
inductive Term where
  | word (value : Int32)
  /-- the block at an offset from the anchor -/
  | block (anchor : Anchor) (offset : Offset)
  /-- the result of the loop with this name -/
  | result (id : Nat)
  /-- the sign of the difference, without overflow -/
  | sign (left right : Term)
  | arith (operator : Operator) (left right : Term)
  deriving DecidableEq, Repr, Inhabited

/-- A test. -/
inductive Test where
  | eq (left right : Term)
  | all (tests : List Test)
  | not (test : Test)
  deriving Repr, Inhabited

/-- A loop that counts the neighbours at which its test holds. -/
inductive Loop where
  /-- `indices` are places in the list of window offsets, counted from the cell at `anchor`; in each
      round the loops of `body` run before the test -/
  | mk (id : Nat) (anchor : Anchor) (indices : List Nat) (body : List Loop) (test : Test)
  deriving Repr, Inhabited

/-- A rule: the loops run first; then, if the test holds, the cell takes each of the values in
    order. -/
structure Code where
  loops : List Loop
  test : Test
  values : List Term
  deriving Repr, Inhabited

/-- The whole numbers from `-radius` to `radius`. -/
def axis (radius : Nat) : List Int32 :=
  (List.range (2 * radius + 1)).map fun (i : Nat) => Int32.ofInt ((i : Int) - radius)

/-- The offsets of a window in the order of its flattened form: x fastest, then y, then z. -/
def windowOffsets (radius : Nat) : List Offset :=
  (axis radius).flatMap fun z => (axis radius).flatMap fun y =>
    (axis radius).map fun x => ⟨x, y, z⟩

end BlockAutomata.Kernel
