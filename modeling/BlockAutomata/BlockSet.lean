/-
  Finite sets of block numbers as tables of flags.

  The table has a flag for every number below its length.  Negative numbers and numbers past the end
  are never members.
-/

namespace BlockAutomata

/-- A set of block numbers: the number `i` is a member when flag `i` is set. -/
structure BlockSet where
  flags : Array Bool
  deriving Repr, Inhabited

namespace BlockSet

/-- Whether the number is a member. -/
def contains (s : BlockSet) (block : Int64) : Bool :=
  decide (0 ≤ block.toInt) && s.flags.getD block.toInt.toNat false

/-- Exactly the given numbers, negative ones left out. -/
def ofList (blocks : List Int64) : BlockSet :=
  let members := (blocks.filter fun b => decide (0 ≤ b.toInt)).map fun b => b.toInt.toNat
  let length := members.foldl (fun n m => max n (m + 1)) 0
  ⟨members.foldl (fun flags m => flags.setIfInBounds m true) (Array.replicate length false)⟩

/-- The numbers below `limit` that satisfy the condition. -/
def ofPredicate (limit : Nat) (p : Int64 → Bool) : BlockSet :=
  ⟨((List.range limit).map fun i => p (Int64.ofNat i)).toArray⟩

/-- Number of members. -/
def size (s : BlockSet) : Nat := s.flags.toList.countP id

/-- The members in ascending order. -/
def toList (s : BlockSet) : List Nat :=
  (List.range s.flags.size).filter fun i => s.flags.getD i false

end BlockSet

end BlockAutomata
