/-
  Sets of cells of one section.

  1. There are flags for the 4096 cells, in 64 words: cell `i` has one in word `i / 64`.  Indices
     past the section are never members and cannot be put in.

  2. The number of members is kept beside the flags.  It goes up or down by one when a flag changes,
     so it is always the number of flags that are up.
-/
import BlockAutomata.Coordinates
import BlockAutomata.Engine.FlagWord

namespace BlockAutomata.Engine

/-- A flag for each cell of a section. -/
abbrev CellFlags := Vector FlagWord (sectionVolume / 64)

namespace CellFlags

theorem word_lt {index : Nat} (h : index < sectionVolume) : index / 64 < sectionVolume / 64 := by
  unfold sectionVolume at h ⊢
  omega

/-- No flag is up. -/
def allDown : CellFlags := Vector.replicate _ FlagWord.allDown

/-- The word with the flag of a cell. -/
def wordOf (f : CellFlags) (index : Nat) (h : index < sectionVolume) : FlagWord :=
  f.get ⟨index / 64, word_lt h⟩

/-- Whether the flag of a cell is up. -/
def isUp (f : CellFlags) (index : Nat) : Bool :=
  if h : index < sectionVolume then (f.wordOf index h).isUp index else false

/-- Put up the flag of a cell. -/
def raise (f : CellFlags) (index : Nat) (h : index < sectionVolume) : CellFlags :=
  f.set (index / 64) ((f.wordOf index h).raise index) (word_lt h)

/-- Take down the flag of a cell. -/
def lower (f : CellFlags) (index : Nat) (h : index < sectionVolume) : CellFlags :=
  f.set (index / 64) ((f.wordOf index h).lower index) (word_lt h)

/-- How many flags are up. -/
def count (f : CellFlags) : Nat := (List.range sectionVolume).countP f.isUp

/-- The cells whose flags are up, word by word, in ascending order. -/
def toList (f : CellFlags) : List Nat :=
  (Vector.toList f).zipIdx.flatMap fun (word, k) => word.toList.map (k * 64 + ·)

/-! ## Flags after a change -/

theorem isUp_allDown (i : Nat) : allDown.isUp i = false := by
  have hword : ∀ h, allDown.wordOf i h = FlagWord.allDown := fun h =>
    Vector.getElem_replicate (word_lt h)
  simp [isUp, hword, FlagWord.isUp_allDown]

theorem wordOf_set (f : CellFlags) {i j : Nat} (hi : i < sectionVolume) (hj : j < sectionVolume)
    (w : FlagWord) :
    wordOf (f.set (i / 64) w (word_lt hi)) j hj = if i / 64 = j / 64 then w else f.wordOf j hj :=
  Vector.getElem_set (word_lt hi) (word_lt hj)

/-- A new word that differs in the flag of one cell changes this flag and no other. -/
theorem isUp_set (f : CellFlags) {i : Nat} (hi : i < sectionVolume) {w : FlagWord} {up : Bool}
    (hw : ∀ j, w.isUp j = if j % 64 = i % 64 then up else (f.wordOf i hi).isUp j) (j : Nat) :
    isUp (f.set (i / 64) w (word_lt hi)) j = if j = i then up else f.isUp j := by
  by_cases hj : j < sectionVolume
  · rw [isUp, isUp, dif_pos hj, dif_pos hj, f.wordOf_set hi hj]
    by_cases hword : i / 64 = j / 64
    · have hflag : j % 64 = i % 64 ↔ j = i := by omega
      rw [if_pos hword, hw]
      simp only [wordOf, hword, hflag]
    · have hne : j ≠ i := by
        rintro rfl
        exact hword rfl
      rw [if_neg hword, if_neg hne]
  · have hne : j ≠ i := by
      rintro rfl
      exact hj hi
    simp [isUp, hj, hne]

theorem isUp_raise (f : CellFlags) {i : Nat} (hi : i < sectionVolume) (j : Nat) :
    (f.raise i hi).isUp j = if j = i then true else f.isUp j :=
  f.isUp_set hi (FlagWord.isUp_raise _ i) j

theorem isUp_lower (f : CellFlags) {i : Nat} (hi : i < sectionVolume) (j : Nat) :
    (f.lower i hi).isUp j = if j = i then false else f.isUp j :=
  f.isUp_set hi (FlagWord.isUp_lower _ i) j

/-! ## How many flags are up -/

/-- A condition that holds of one more number than another counts one more number. -/
theorem countP_range_of_one_more {p q : Nat → Bool} {i : Nat} (hi : p i = false)
    (h : ∀ j, q j = if j = i then true else p j) (n : Nat) :
    (List.range n).countP q = (List.range n).countP p + if i < n then 1 else 0 := by
  induction n with
  | zero => rfl
  | succ n ih =>
    rw [List.range_succ, List.countP_append, List.countP_append, ih, List.countP_singleton,
      List.countP_singleton, h n]
    by_cases hn : n = i
    · subst hn
      simp [hi]
    · have hlt : i < n + 1 ↔ i < n := by omega
      simp only [hn, hlt, if_false]
      omega

theorem count_allDown : allDown.count = 0 := by
  simp [count, isUp_allDown]

theorem count_raise {f : CellFlags} {i : Nat} (hi : i < sectionVolume) (hdown : f.isUp i = false) :
    (f.raise i hi).count = f.count + 1 := by
  rw [count, countP_range_of_one_more hdown (f.isUp_raise hi), if_pos hi]
  rfl

theorem count_lower {f : CellFlags} {i : Nat} (hi : i < sectionVolume) (hup : f.isUp i = true) :
    (f.lower i hi).count + 1 = f.count := by
  -- the flags before have one more up than those after, so this is raising read backwards
  have hdown : (f.lower i hi).isUp i = false := by rw [isUp_lower, if_pos rfl]
  have hback : ∀ j, f.isUp j = if j = i then true else (f.lower i hi).isUp j := by
    intro j
    by_cases hj : j = i
    · rw [if_pos hj, hj, hup]
    · rw [if_neg hj, isUp_lower, if_neg hj]
  rw [count, count, countP_range_of_one_more hdown hback, if_pos hi]

end CellFlags

/-- A set of cells of a section. -/
structure CellSet where
  flags : CellFlags
  /-- number of members -/
  size : Nat
  size_eq : size = flags.count
  deriving DecidableEq

namespace CellSet

/-- The set without members. -/
def empty : CellSet := ⟨CellFlags.allDown, 0, CellFlags.count_allDown.symm⟩

instance : Inhabited CellSet := ⟨empty⟩

/-- Whether the cell is a member. -/
def contains (s : CellSet) (index : Nat) : Bool := s.flags.isUp index

/-- Put a cell in; the answer says whether it is new. -/
def insert (s : CellSet) (index : Nat) : Bool × CellSet :=
  if h : index < sectionVolume ∧ s.contains index = false then
    (true,
      { flags := s.flags.raise index h.1
        size := s.size + 1
        size_eq := by rw [s.size_eq, CellFlags.count_raise h.1 h.2] })
  else (false, s)

/-- Take a cell out; the answer says whether it was there. -/
def erase (s : CellSet) (index : Nat) : Bool × CellSet :=
  if h : index < sectionVolume ∧ s.contains index = true then
    (true,
      { flags := s.flags.lower index h.1
        size := s.size - 1
        size_eq := by rw [s.size_eq, ← CellFlags.count_lower h.1 h.2, Nat.add_sub_cancel] })
  else (false, s)

/-- Whether there are no members. -/
def isEmpty (s : CellSet) : Bool := s.size == 0

/-- The members in ascending order. -/
def toList (s : CellSet) : List Nat := s.flags.toList

/-- Take all members out. -/
def drain (s : CellSet) : List Nat × CellSet := (s.toList, empty)

end CellSet

end BlockAutomata.Engine
