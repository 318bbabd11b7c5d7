/-
  Change records read back.

  1. A record is the value shifted up by twelve bits, with the coordinates in the bits thus freed.
     The shift may wrap around, but whatever it does it leaves the coordinates alone
     (`offset_encode`).  Laid out in bits, a record is four fields side by side
     (`toBitVec_encode`).

  2. What reads back of a value is its lower 52 bits, the uppermost of which is the sign
     (`value_encode_eq_kept`).  So the values that read back unchanged are those which have room in
     52 bits (`kept_eq_iff`).

  3. Nothing else is lost, and nothing is added: putting together what was read from a record gives
     the record again, whichever record it was (`encode_offset_value`).
-/
import BlockAutomata.ChangeRecord
import BlockAutomata.Proofs.Places

namespace BlockAutomata

/-- The index of the cell at an index of a section, counted from the corner. -/
theorem Offset.index_ofIndex {i : Nat} (hi : i < sectionVolume) : (Offset.ofIndex i).index = i := by
  have h16 : (16 : Int32) = Int32.ofInt 16 := rfl
  rw [Offset.ofIndex_eq hi, Offset.index, h16]
  unfold sectionVolume at hi
  simp only [← Int32.ofInt_mul, ← Int32.ofInt_add]
  rw [Int32.toInt_ofInt_of_le (by omega) (by omega)]
  omega

namespace ChangeRecord

/-- The twelve bits of the coordinates. -/
def place (p : Cell) : Nat := cellPart p.x * 256 + cellPart p.z * 16 + cellPart p.y

theorem place_lt (p : Cell) : place p < 4096 := by
  have hx := cellPart_lt p.x
  have hy := cellPart_lt p.y
  have hz := cellPart_lt p.z
  unfold place
  omega

/-- A record is the shifted value and the place of the cell, wrapped around at 64 bits. -/
theorem toInt_encode_eq_bmod (p : Cell) (v : Int64) :
    (encode p v).toInt = Int.bmod (v.toInt * 4096 + place p) 0x10000000000000000 :=
  Int64.toInt_ofInt

/-- Up to a multiple of 4096, a record is the place of its cell. -/
theorem toInt_encode (p : Cell) (v : Int64) :
    ∃ m : Int, (encode p v).toInt = place p + 4096 * m := by
  obtain ⟨c, hc⟩ :=
    Int.dvd_bmod_sub_self (x := v.toInt * 4096 + place p) (m := 0x10000000000000000)
  rw [← toInt_encode_eq_bmod] at hc
  exact ⟨v.toInt + 2 ^ 52 * c, by omega⟩

/-- A record tells where in its section the recorded cell lies. -/
theorem offset_encode (p : Cell) (v : Int64) :
    offset (encode p v) = Offset.ofIndex p.index := by
  have hx := cellPart_lt p.x
  have hy := cellPart_lt p.y
  have hz := cellPart_lt p.z
  obtain ⟨m, hm⟩ := toInt_encode p v
  unfold place at hm
  rw [Offset.ofIndex_index, offset, hm, Offset.mk.injEq]
  refine ⟨congrArg Int32.ofInt ?_, congrArg Int32.ofInt ?_, congrArg Int32.ofInt ?_⟩ <;> omega

theorem index_offset_encode (p : Cell) (v : Int64) : (offset (encode p v)).index = p.index := by
  rw [offset_encode, Offset.index_ofIndex p.index_lt]

/-! ## Values -/

/-- Whether the value has room above the twelve bits of the coordinates: it lies between -2^51 and
    2^51, the upper bound excluded. -/
def Fits (v : Int64) : Prop := -0x8000000000000 ≤ v.toInt ∧ v.toInt < 0x8000000000000

instance (v : Int64) : Decidable (Fits v) := inferInstanceAs (Decidable (_ ∧ _))

theorem fits_zero : Fits 0 := by decide

/-- What a record keeps of a value: its lower 52 bits, continued upwards by the sign. -/
def kept (v : Int64) : Int64 := Int64.ofBitVec ((v.toBitVec.setWidth 52).signExtend 64)

theorem toInt_kept (v : Int64) : (kept v).toInt = v.toInt.bmod 0x10000000000000 := by
  show ((v.toBitVec.setWidth 52).signExtend 64).toInt = v.toBitVec.toInt.bmod (2 ^ 52)
  rw [BitVec.toInt_signExtend_of_le (by decide), BitVec.toInt_setWidth, BitVec.toInt_eq_toNat_bmod]
  exact (Int.bmod_bmod_of_dvd (by decide)).symm

/-- Exactly the values that fit are kept as they are. -/
theorem kept_eq_iff {v : Int64} : kept v = v ↔ Fits v := by
  rw [← Int64.toInt_inj, toInt_kept, Int.bmod_eq_iff (by decide), Fits]
  omega

theorem toInt_value (r : Int64) : (value r).toInt = r.toInt / 4096 := by
  have h₁ := r.le_toInt
  have h₂ := r.toInt_lt
  exact Int64.toInt_ofInt_of_le (by omega) (by omega)

/-- A record tells what it has kept of the value. -/
theorem value_encode_eq_kept (p : Cell) (v : Int64) : value (encode p v) = kept v := by
  have hplace := place_lt p
  apply Int64.toInt_inj.1
  -- the wrap at 64 bits, seen from twelve bits further up, is a wrap at 52
  rw [toInt_value, toInt_encode_eq_bmod, toInt_kept, Int.bmod_def, Int.bmod_def]
  omega

/-- A value that fits reads back. -/
theorem value_encode (p : Cell) {v : Int64} (h : Fits v) : value (encode p v) = v := by
  rw [value_encode_eq_kept, kept_eq_iff.2 h]

/-! ## Records -/

/-- The coordinates that a record tells are those of the cell, modulo 16. -/
theorem toInt_offset_encode (p : Cell) (v : Int64) :
    (offset (encode p v)).x.toInt = p.x.toInt % 16 ∧
      (offset (encode p v)).y.toInt = p.y.toInt % 16 ∧
      (offset (encode p v)).z.toInt = p.z.toInt % 16 := by
  have hpart : ∀ c : Int32, (Int32.ofInt (cellPart c)).toInt = c.toInt % 16 := by
    intro c
    have hc := cellPart_lt c
    rw [Int32.toInt_ofInt_of_le (by omega) (by omega)]
    unfold cellPart
    omega
  rw [offset_encode, Offset.ofIndex_index]
  exact ⟨hpart p.x, hpart p.y, hpart p.z⟩

/-- A record is put together again from the place and the value that it tells. -/
theorem encode_offset_value (r : Int64) :
    encode ⟨(offset r).x, (offset r).y, (offset r).z⟩ (value r) = r := by
  have hpart : ∀ n : Int, (cellPart (Int32.ofInt (n % 16)) : Int) = n % 16 := by
    intro n
    unfold cellPart
    rw [Int32.toInt_ofInt_of_le (by omega) (by omega)]
    omega
  have hparts : r.toInt / 4096 * 4096 +
      (r.toInt / 256 % 16 * 256 + r.toInt / 16 % 16 * 16 + r.toInt % 16) = r.toInt := by omega
  have hsum : ∀ a b c : Nat, ((a * 256 + b * 16 + c : Nat) : Int) = a * 256 + b * 16 + c :=
    fun a b c => by omega
  rw [encode, toInt_value, hsum]
  simp only [offset, hpart]
  rw [hparts, Int64.ofInt_toInt]

/-- The last four bits of a coordinate. -/
def nibble (c : Int32) : BitVec 4 := c.toBitVec.setWidth 4

theorem toNat_nibble (c : Int32) : (nibble c).toNat = cellPart c := by
  have hc : c.toInt = (c.toBitVec.toNat : Int).bmod (2 ^ 32) :=
    BitVec.toInt_eq_toNat_bmod c.toBitVec
  rw [nibble, BitVec.toNat_setWidth, cellPart, hc, Int.bmod_def]
  omega

/-- The layout of a record: 52 bits of the value, then four bits each of x, z and y. -/
theorem toBitVec_encode (p : Cell) (v : Int64) :
    (encode p v).toBitVec =
      v.toBitVec.setWidth 52 ++ nibble p.x ++ nibble p.z ++ nibble p.y := by
  have hv : v.toInt = (v.toBitVec.toNat : Int).bmod (2 ^ 64) :=
    BitVec.toInt_eq_toNat_bmod v.toBitVec
  have hx := cellPart_lt p.x
  have hy := cellPart_lt p.y
  have hz := cellPart_lt p.z
  apply BitVec.eq_of_toNat_eq
  simp only [BitVec.toNat_append, toNat_nibble, BitVec.toNat_setWidth]
  -- a field below 16 fits under what stands four bits further up
  rw [← Nat.shiftLeft_add_eq_or_of_lt hy, ← Nat.shiftLeft_add_eq_or_of_lt hz,
    ← Nat.shiftLeft_add_eq_or_of_lt hx]
  show (BitVec.ofInt 64 _).toNat = _
  rw [BitVec.toNat_ofInt, hv, Int.bmod_def]
  simp only [Nat.shiftLeft_eq]
  omega

/-- Records and the places with a value of 52 bits stand for each other.  A record tells the cell's
    coordinates modulo 16, and its value exactly if this lies between -2^51 and 2^51, otherwise what
    52 bits hold of it; and every record is the record of what it tells. -/
theorem record_tells_place_and_value :
    (∀ (p : Cell) (v : Int64),
      (offset (encode p v)).x.toInt = p.x.toInt % 16 ∧
      (offset (encode p v)).y.toInt = p.y.toInt % 16 ∧
      (offset (encode p v)).z.toInt = p.z.toInt % 16 ∧
      (value (encode p v) = v ↔ -0x8000000000000 ≤ v.toInt ∧ v.toInt < 0x8000000000000) ∧
      value (encode p v) = Int64.ofBitVec ((v.toBitVec.setWidth 52).signExtend 64)) ∧
    ∀ r : Int64, encode ⟨(offset r).x, (offset r).y, (offset r).z⟩ (value r) = r := by
  refine ⟨fun p v => ?_, encode_offset_value⟩
  obtain ⟨hx, hy, hz⟩ := toInt_offset_encode p v
  have hvalue := value_encode_eq_kept p v
  refine ⟨hx, hy, hz, ?_, hvalue⟩
  rw [hvalue]
  exact kept_eq_iff

end ChangeRecord

end BlockAutomata
