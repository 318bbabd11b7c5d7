/-
  Sixty-four flags in one machine word.

  Flags are numbered from the least significant bit on.  Numbers count modulo 64, so the number of a
  cell is also that of its flag, in whatever word it has one.  A mask has a single flag up; with it
  a flag is looked at, put up or taken down.  The flags that are up are listed by taking down the
  lowest one until none is left.
-/

namespace BlockAutomata.Engine

/-- A word of flags. -/
structure FlagWord where
  bits : UInt64
  deriving DecidableEq

namespace FlagWord

/-- No flag is up. -/
def allDown : FlagWord := ⟨0⟩

/-- The bits in which only this flag is up. -/
def mask (flag : Nat) : UInt64 := 1 <<< UInt64.ofNat (flag % 64)

/-- Whether a flag is up. -/
def isUp (w : FlagWord) (flag : Nat) : Bool := w.bits &&& mask flag != 0

/-- Put a flag up. -/
def raise (w : FlagWord) (flag : Nat) : FlagWord := ⟨w.bits ||| mask flag⟩

/-- Take a flag down. -/
def lower (w : FlagWord) (flag : Nat) : FlagWord := ⟨w.bits &&& ~~~mask flag⟩

/-- Number of the lowest flag that is up: there are so many zeros below it. -/
def lowest (w : FlagWord) : Nat := w.bits.toBitVec.ctz.toNat

/-- Take the lowest flag down.  Subtracting 1 changes the bits up to this flag and no others. -/
def lowerLowest (w : FlagWord) : FlagWord := ⟨w.bits &&& (w.bits - 1)⟩

theorem toNat_lowerLowest {w : FlagWord} (h : w.bits ≠ 0) :
    w.lowerLowest.bits.toNat = w.bits.toNat &&& (w.bits.toNat - 1) := by
  have hpos : w.bits.toNat ≠ 0 := fun hz => h (UInt64.toNat_inj.1 hz)
  have hone : 1 ≤ w.bits := UInt64.le_iff_toNat_le.2 (Nat.one_le_iff_ne_zero.2 hpos)
  rw [lowerLowest, UInt64.toNat_and, UInt64.toNat_sub_of_le _ _ hone, UInt64.toNat_one]

theorem lowerLowest_lt {w : FlagWord} (h : w.bits ≠ 0) :
    w.lowerLowest.bits.toNat < w.bits.toNat := by
  have hpos : w.bits.toNat ≠ 0 := fun hz => h (UInt64.toNat_inj.1 hz)
  have hle : w.lowerLowest.bits.toNat ≤ w.bits.toNat - 1 := by
    rw [toNat_lowerLowest h]
    exact Nat.and_le_right
  omega

/-- The flags that are up, in ascending order. -/
def toList (w : FlagWord) : List Nat :=
  if w.bits = 0 then [] else w.lowest :: w.lowerLowest.toList
termination_by w.bits.toNat
decreasing_by exact lowerLowest_lt ‹_›

/-! ## Flags after a change -/

theorem toBitVec_mask (flag : Nat) : (mask flag).toBitVec = BitVec.twoPow 64 (flag % 64) := by
  have hshift : ((UInt64.ofNat (flag % 64)).toBitVec % 64).toNat = flag % 64 := by simp
  rw [mask, UInt64.toBitVec_shiftLeft, BitVec.shiftLeft_eq', hshift]
  rfl

theorem isUp_eq_getLsbD (w : FlagWord) (i : Nat) :
    w.isUp i = w.bits.toBitVec.getLsbD (i % 64) := by
  have hlt : i % 64 < 64 := Nat.mod_lt i (by decide)
  have hpow : BitVec.twoPow 64 (i % 64) ≠ 0#64 := by
    intro h
    have hbit := congrArg (fun x : BitVec 64 => x.getLsbD (i % 64)) h
    simp [hlt] at hbit
  rw [isUp, Bool.eq_iff_iff, bne_iff_ne, Ne, ← UInt64.toBitVec_inj, UInt64.toBitVec_and,
    toBitVec_mask, BitVec.and_twoPow]
  cases w.bits.toBitVec.getLsbD (i % 64) with
  | false => simp
  | true => simpa using hpow

theorem isUp_allDown (i : Nat) : allDown.isUp i = false := by
  simp [isUp_eq_getLsbD, allDown]

theorem isUp_raise (w : FlagWord) (i j : Nat) :
    (w.raise i).isUp j = if j % 64 = i % 64 then true else w.isUp j := by
  have hi : i % 64 < 64 := Nat.mod_lt i (by decide)
  rw [isUp_eq_getLsbD, isUp_eq_getLsbD, raise, UInt64.toBitVec_or, BitVec.getLsbD_or, toBitVec_mask,
    BitVec.getLsbD_twoPow]
  by_cases h : j % 64 = i % 64
  · simp [h, hi]
  · simp [h, Ne.symm h]

theorem isUp_lower (w : FlagWord) (i j : Nat) :
    (w.lower i).isUp j = if j % 64 = i % 64 then false else w.isUp j := by
  have hi : i % 64 < 64 := Nat.mod_lt i (by decide)
  have hj : j % 64 < 64 := Nat.mod_lt j (by decide)
  rw [isUp_eq_getLsbD, isUp_eq_getLsbD, lower, UInt64.toBitVec_and, UInt64.toBitVec_not,
    BitVec.getLsbD_and, BitVec.getLsbD_not, toBitVec_mask, BitVec.getLsbD_twoPow]
  by_cases h : j % 64 = i % 64
  · simp [h, hi]
  · simp [h, Ne.symm h, hj]

end FlagWord

end BlockAutomata.Engine
