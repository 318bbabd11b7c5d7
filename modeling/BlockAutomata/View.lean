/-
  What a cell sees.

  A view is centred on one cell and answers, for every displacement and every channel slot, the
  value found there.  Slot 0 is the block, higher slots are what rules keep.  Rules depend on
  nothing else, so every statement about rules is a statement about views.
-/
import BlockAutomata.Coordinates

namespace BlockAutomata

/-- Read access to the channels around one cell. -/
structure View where
  /-- the value of a slot at the cell displaced by an offset -/
  read : Offset → Nat → Int64
  /-- number of channels that each cell carries -/
  channels : Nat

namespace View

/-- The value of a slot at the centre. -/
def own (v : View) (slot : Nat) : Int64 := v.read Offset.zero slot

/-- All channels of one cell in order. -/
def readAll (v : View) (o : Offset) : List Int64 :=
  (List.range v.channels).map (v.read o)

/-- Number of offsets at which the slot satisfies the condition. -/
def count (v : View) (slot : Nat) (offsets : List Offset) (p : Int64 → Bool) : Nat :=
  offsets.countP fun o => p (v.read o slot)

/-- The same number, but no more than `limit`; offsets after the last one counted are not read. -/
def countUpTo (v : View) (slot : Nat) (p : Int64 → Bool) : List Offset → Nat → Nat
  | _, 0 => 0
  | [], _ + 1 => 0
  | o :: rest, limit + 1 =>
    if p (v.read o slot) then v.countUpTo slot p rest limit + 1
    else v.countUpTo slot p rest (limit + 1)

/-- The same surroundings seen from the cell at `o`. -/
def shift (v : View) (o : Offset) : View where
  read := fun d slot => v.read (o + d) slot
  channels := v.channels

theorem countUpTo_eq (v : View) (slot : Nat) (p : Int64 → Bool) (offsets : List Offset)
    (limit : Nat) : v.countUpTo slot p offsets limit = min (v.count slot offsets p) limit := by
  induction offsets generalizing limit with
  | nil => cases limit <;> simp [countUpTo, count]
  | cons o rest ih =>
    cases limit with
    | zero => simp [countUpTo]
    | succ n =>
      by_cases h : p (v.read o slot)
      · have hrest := ih n
        simp only [count] at hrest
        simp only [countUpTo, count, List.countP_cons, h, if_true, hrest]
        omega
      · have hrest := ih (n + 1)
        simpa [countUpTo, count, List.countP_cons, h] using hrest

end View

end BlockAutomata
