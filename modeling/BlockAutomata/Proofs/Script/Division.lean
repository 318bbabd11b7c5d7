/-
  Arithmetic at both widths.

  1. The operators on words are those on 64 bits, cut down (`toInt32_on64`); where a result fits a
     word, nothing is cut off (`toInt64_on32`).

  2. Quotient and remainder are those of division that truncates towards zero.  Put together they
     give the dividend at every width, also where the quotient itself wraps around, which happens
     only when the least number is divided by -1 (`sdiv_mul_add_srem`).  The remainder never wraps:
     it is smaller than the divisor and has the sign of the dividend (`natAbs_tmod_lt`,
     `tmod_eq_zero_or_sign_eq`).

  3. Division by zero, which has no quotient, gives the dividend and the remainder zero.  With that
     both widths divide by the same rule (`DividesByTruncation`), which leaves nothing undefined.
-/
import BlockAutomata.Proofs.Script.Narrowing

namespace BlockAutomata.Script

/-! ## Numbers and words -/

/-- Quotient and remainder of words put together give the dividend, whatever their width. -/
theorem sdiv_mul_add_srem {n : Nat} (l r : BitVec n) : l.sdiv r * r + l.srem r = l := by
  apply BitVec.eq_of_toInt_eq
  rw [BitVec.toInt_add, BitVec.toInt_mul, BitVec.toInt_sdiv, BitVec.toInt_srem,
    Int.bmod_mul_bmod, Int.bmod_add_bmod, Int.tdiv_mul_add_tmod, BitVec.toInt_bmod_cancel]

theorem natAbs_tmod_lt (l : Int) {r : Int} (hr : r ≠ 0) : (l.tmod r).natAbs < r.natAbs := by
  rw [Int.natAbs_tmod]
  exact Nat.mod_lt _ (Int.natAbs_pos.2 hr)

theorem tmod_eq_zero_or_sign_eq (l r : Int) : l.tmod r = 0 ∨ (l.tmod r).sign = l.sign := by
  by_cases h : r ∣ l
  · exact Or.inl (Int.tmod_eq_zero_of_dvd h)
  · exact Or.inr (by rw [Int.sign_tmod, if_neg h])

/-! ## The rule of division -/

/-- Division as it is at both widths: by zero it gives the dividend and leaves nothing, and by any
    other number it truncates towards zero.  Products and sums wrap. -/
structure DividesByTruncation {W : Type} [OfNat W 0] [Add W] [Mul W]
    (toInt : W → Int) (div rem : W → W → W) : Prop where
  div_zero : ∀ l, div l 0 = l
  rem_zero : ∀ l, rem l 0 = 0
  div_mul_add_rem : ∀ l r, r ≠ 0 → div l r * r + rem l r = l
  rem_lt : ∀ l r, r ≠ 0 → (toInt (rem l r)).natAbs < (toInt r).natAbs
  rem_sign : ∀ l r, r ≠ 0 → rem l r = 0 ∨ (toInt (rem l r)).sign = (toInt l).sign

/-- Words that add, multiply and divide as their bits do divide by this rule. -/
theorem DividesByTruncation.of_bits {W : Type} [OfNat W 0] [Add W] [Mul W] {div rem : W → W → W}
    {n : Nat} (bits : W → BitVec n) (inj : ∀ {l r : W}, bits l = bits r ↔ l = r)
    (zero : bits 0 = 0#n) (add : ∀ l r : W, bits (l + r) = bits l + bits r)
    (mul : ∀ l r : W, bits (l * r) = bits l * bits r)
    (by_zero : ∀ l : W, div l 0 = l ∧ rem l 0 = 0)
    (sdiv : ∀ l r : W, r ≠ 0 → bits (div l r) = (bits l).sdiv (bits r))
    (srem : ∀ l r : W, r ≠ 0 → bits (rem l r) = (bits l).srem (bits r)) :
    DividesByTruncation (fun w => (bits w).toInt) div rem where
  div_zero l := (by_zero l).1
  rem_zero l := (by_zero l).2
  div_mul_add_rem l r hr := by
    rw [← inj, add, mul, sdiv l r hr, srem l r hr]
    exact sdiv_mul_add_srem (bits l) (bits r)
  rem_lt l r hr := by
    have hint : (bits r).toInt ≠ 0 := by
      intro h
      rw [← BitVec.toInt_zero (w := n), BitVec.toInt_inj] at h
      exact hr (inj.1 (h.trans zero.symm))
    rw [srem l r hr, BitVec.toInt_srem]
    exact natAbs_tmod_lt (bits l).toInt hint
  rem_sign l r hr := by
    rw [← inj, zero, ← BitVec.toInt_inj, srem l r hr, BitVec.toInt_srem, BitVec.toInt_zero]
    exact tmod_eq_zero_or_sign_eq (bits l).toInt (bits r).toInt

namespace Operator

theorem dividesByTruncation_on32 :
    DividesByTruncation Int32.toInt Operator.div.on32 Operator.rem.on32 := by
  apply DividesByTruncation.of_bits Int32.toBitVec Int32.toBitVec_inj rfl
  case add => exact fun l r => Int32.toBitVec_add
  case mul => exact fun l r => Int32.toBitVec_mul
  case by_zero => exact fun l => ⟨by rw [on32, if_pos rfl], by rw [on32, if_pos rfl]⟩
  case sdiv => exact fun l r hr => by rw [on32, if_neg hr, Int32.toBitVec_div]
  case srem => exact fun l r hr => by rw [on32, if_neg hr, Int32.toBitVec_mod]

theorem dividesByTruncation_on64 :
    DividesByTruncation Int64.toInt Operator.div.on64 Operator.rem.on64 := by
  apply DividesByTruncation.of_bits Int64.toBitVec Int64.toBitVec_inj rfl
  case add => exact fun l r => Int64.toBitVec_add
  case mul => exact fun l r => Int64.toBitVec_mul
  case by_zero => exact fun l => ⟨by rw [on64, if_pos rfl], by rw [on64, if_pos rfl]⟩
  case sdiv => exact fun l r hr => by rw [on64, if_neg hr, Int64.toBitVec_div]
  case srem => exact fun l r hr => by rw [on64, if_neg hr, Int64.toBitVec_mod]

/-! ## Both widths -/

/-- Where the result on 64 bits fits a word, the operator on words has the same result. -/
theorem toInt64_on32 {op : Operator} {l r : Int32} (h : FitsWord (op.on64 l.toInt64 r.toInt64)) :
    (op.on32 l r).toInt64 = op.on64 l.toInt64 r.toInt64 := by
  rw [← toInt32_on64, toInt64_toInt32 h]

/-- The arithmetic on words is the one on 64 bits, cut down, and the same wherever the result fits
    a word; and both widths divide by the same rule. -/
theorem widths_compatible :
    (∀ (op : Operator) (l r : Int32),
      op.on32 l r = (op.on64 l.toInt64 r.toInt64).toInt32 ∧
      (FitsWord (op.on64 l.toInt64 r.toInt64) →
        (op.on32 l r).toInt64 = op.on64 l.toInt64 r.toInt64)) ∧
    DividesByTruncation Int32.toInt Operator.div.on32 Operator.rem.on32 ∧
    DividesByTruncation Int64.toInt Operator.div.on64 Operator.rem.on64 :=
  ⟨fun op l r => ⟨(toInt32_on64 op l r).symm, toInt64_on32⟩, dividesByTruncation_on32,
    dividesByTruncation_on64⟩

/-- The largest square that fits a word, and the least numbers of both widths divided by -1: the
    quotient on words is cut down, the one on 64 bits wraps. -/
theorem widths_compatible_extremes :
    FitsWord (Operator.mul.on64 (Int32.toInt64 46340) (Int32.toInt64 46340)) ∧
      (Operator.mul.on32 46340 46340).toInt64 = 2147395600 ∧
      Operator.div.on32 Int32.minValue (-1) * -1 + Operator.rem.on32 Int32.minValue (-1) =
        Int32.minValue ∧
      Operator.div.on64 Int64.minValue (-1) * -1 + Operator.rem.on64 Int64.minValue (-1) =
        Int64.minValue := by
  obtain ⟨hwidths, hword, hlong⟩ := widths_compatible
  have hfits : FitsWord (Operator.mul.on64 (Int32.toInt64 46340) (Int32.toInt64 46340)) := by
    decide
  refine ⟨hfits, ((hwidths .mul 46340 46340).2 hfits).trans (by decide), ?_, ?_⟩
  · exact hword.div_mul_add_rem Int32.minValue (-1) (by decide)
  · exact hlong.div_mul_add_rem Int64.minValue (-1) (by decide)

end Operator

end BlockAutomata.Script
