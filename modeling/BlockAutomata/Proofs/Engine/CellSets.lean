/-
  Sets of cells, known by their members.

  1. **One word.**  Let `t` be the lowest flag of a word that is up.  Below `t` there are zeros, so
     subtracting 1 borrows up to `t` and leaves everything above as it is; what both numbers have in
     common is the word without this flag (`isUp_lowerLowest`).  So the list of a word takes the
     flags one after the other, and has each flag that is up once, in ascending order.

  2. **All words.**  The flags of word `k` belong to the cells from `64 * k` to `64 * k + 63`, so
     the lists of the words one behind the other ascend as well.

  3. **The set.**  Putting a cell in adds this member and no other, taking it out removes it and no
     other, and the answer says whether anything has changed.  An ascending list is determined by
     its elements.  So the list of members is what testing all indices gives
     (`toList_eq_filter_range`), and the size is its length.
-/
import Mathlib.Data.List.Sort
import Mathlib.Data.Nat.Bitwise
import BlockAutomata.Engine.CellSet

namespace BlockAutomata.Engine

/-! ## The flags of one word -/

/-- A number with its lowest 1 at `t` is an odd multiple of `2 ^ t`. -/
theorem exists_eq_of_lowest_bit {x t : Nat} (ht : x.testBit t = true)
    (hlow : ∀ i < t, x.testBit i = false) : ∃ q, x = 2 ^ (t + 1) * q + 2 ^ t := by
  have hmod : x % 2 ^ (t + 1) = 2 ^ t := by
    refine Nat.eq_of_testBit_eq fun i => ?_
    rw [Nat.testBit_mod_two_pow, Nat.testBit_two_pow]
    rcases Nat.lt_trichotomy i t with hi | rfl | hi
    · simp [hlow i hi, Nat.ne_of_gt hi]
    · simp [ht]
    · simp [Nat.ne_of_lt hi, show ¬ i < t + 1 by omega]
  have hsplit := Nat.div_add_mod x (2 ^ (t + 1))
  rw [hmod] at hsplit
  exact ⟨x / 2 ^ (t + 1), hsplit.symm⟩

/-- Below the lowest 1 of a number, at `t`, it has nothing in common with the number before it, and
    above they are the same. -/
theorem testBit_and_sub_one {x t : Nat} (ht : x.testBit t = true)
    (hlow : ∀ i < t, x.testBit i = false) (i : Nat) :
    (x &&& (x - 1)).testBit i = if i = t then false else x.testBit i := by
  obtain ⟨q, hx⟩ := exists_eq_of_lowest_bit ht hlow
  have hpos : 0 < 2 ^ t := Nat.two_pow_pos t
  have hlt : 2 ^ t < 2 ^ (t + 1) := Nat.pow_lt_pow_succ (by decide)
  have hpred : x - 1 = 2 ^ (t + 1) * q + (2 ^ t - 1) := by omega
  have hbelow : ∀ j ≤ t, (x - 1).testBit j = decide (j < t) := by
    intro j hj
    rw [hpred, Nat.testBit_two_pow_mul_add q (by omega), if_pos (by omega),
      Nat.testBit_two_pow_sub_one]
  have habove : ∀ j > t, (x - 1).testBit j = x.testBit j := by
    intro j hj
    rw [hpred, hx, Nat.testBit_two_pow_mul_add q hlt, Nat.testBit_two_pow_mul_add q (by omega),
      if_neg (by omega), if_neg (by omega)]
  rw [Nat.testBit_and]
  rcases Nat.lt_trichotomy i t with hi | rfl | hi
  · rw [hlow i hi, Bool.false_and, if_neg (Nat.ne_of_lt hi)]
  · rw [hbelow i (Nat.le_refl i), if_pos rfl]
    simp
  · rw [habove i hi, Bool.and_self, if_neg (Nat.ne_of_gt hi)]

namespace FlagWord

variable {w : FlagWord}

theorem isUp_eq_testBit {i : Nat} (hi : i < 64) : w.isUp i = w.bits.toNat.testBit i := by
  rw [isUp_eq_getLsbD, Nat.mod_eq_of_lt hi]
  rfl

theorem isUp_mod (w : FlagWord) (i : Nat) : w.isUp (i % 64) = w.isUp i := by
  rw [isUp_eq_getLsbD, isUp_eq_getLsbD, Nat.mod_mod]

theorem eq_of_isUp_eq {v : FlagWord} (h : ∀ i < 64, w.isUp i = v.isUp i) : w = v := by
  have hbits : w.bits.toBitVec = v.bits.toBitVec := by
    refine BitVec.eq_of_getLsbD_eq fun i hi => ?_
    have hi' := h i hi
    rwa [isUp_eq_getLsbD, isUp_eq_getLsbD, Nat.mod_eq_of_lt hi] at hi'
  exact congrArg FlagWord.mk (UInt64.toBitVec_inj.1 hbits)

theorem testBit_lowest (h : w.bits ≠ 0) : w.bits.toNat.testBit w.lowest = true :=
  BitVec.getLsbD_true_ctz_of_ne_zero fun hz => h (UInt64.toBitVec_inj.1 hz)

theorem testBit_of_lt_lowest {i : Nat} (hi : i < w.lowest) : w.bits.toNat.testBit i = false :=
  BitVec.getLsbD_false_of_lt_ctz hi

theorem lowest_lt (h : w.bits ≠ 0) : w.lowest < 64 :=
  BitVec.lt_of_getLsbD (testBit_lowest h)

theorem isUp_lowest (h : w.bits ≠ 0) : w.isUp w.lowest = true := by
  rw [isUp_eq_testBit (lowest_lt h), testBit_lowest h]

theorem isUp_lowerLowest (h : w.bits ≠ 0) {i : Nat} (hi : i < 64) :
    w.lowerLowest.isUp i = if i = w.lowest then false else w.isUp i := by
  rw [isUp_eq_testBit hi, isUp_eq_testBit hi, toNat_lowerLowest h]
  exact testBit_and_sub_one (testBit_lowest h) (fun _ => testBit_of_lt_lowest) i

theorem mem_toList {i : Nat} : i ∈ w.toList ↔ i < 64 ∧ w.isUp i = true := by
  fun_induction toList w with
  | case1 w h =>
    have hdown : w.isUp i = false := by simp [isUp, h]
    simp [hdown]
  | case2 w h ih =>
    rw [List.mem_cons, ih]
    by_cases hl : i = w.lowest
    · rw [hl]
      exact iff_of_true (Or.inl rfl) ⟨lowest_lt h, isUp_lowest h⟩
    · rw [or_iff_right hl]
      refine and_congr_right fun hi => ?_
      rw [isUp_lowerLowest h hi, if_neg hl]

theorem pairwise_toList (w : FlagWord) : w.toList.Pairwise (· < ·) := by
  fun_induction toList w with
  | case1 w h => exact List.Pairwise.nil
  | case2 w h ih =>
    refine List.Pairwise.cons (fun i hi => ?_) ih
    obtain ⟨hlt, hup⟩ := mem_toList.1 hi
    rw [isUp_lowerLowest h hlt] at hup
    -- a later flag was up all the time, but it is not the lowest, and below that all are down
    by_contra hle
    rcases Nat.lt_or_eq_of_le (Nat.le_of_not_lt hle) with hbelow | heq
    · rw [if_neg (Nat.ne_of_lt hbelow), isUp_eq_testBit hlt, testBit_of_lt_lowest hbelow] at hup
      exact Bool.false_ne_true hup
    · rw [if_pos heq] at hup
      exact Bool.false_ne_true hup

end FlagWord

/-! ## The flags of all words -/

namespace CellFlags

variable {f : CellFlags}

theorem lt_of_isUp {i : Nat} (h : f.isUp i = true) : i < sectionVolume := by
  by_contra hi
  rw [isUp, dif_neg hi] at h
  exact Bool.false_ne_true h

theorem isUp_of_lt {i : Nat} (hi : i < sectionVolume) :
    f.isUp i = (f.wordOf i hi).isUp (i % 64) := by
  rw [isUp, dif_pos hi, FlagWord.isUp_mod]

theorem isUp_of_word {k b : Nat} (hk : k < sectionVolume / 64) (hb : b < 64) :
    f.isUp (k * 64 + b) = f[k].isUp b := by
  have hi : k * 64 + b < sectionVolume := by
    unfold sectionVolume at hk ⊢
    omega
  have hplace : (k * 64 + b) / 64 = k := by omega
  have hflag : (k * 64 + b) % 64 = b := by omega
  rw [isUp_of_lt hi, hflag]
  simp only [wordOf, hplace]
  rfl

theorem eq_of_isUp_eq {g : CellFlags} (h : ∀ i, f.isUp i = g.isUp i) : f = g := by
  refine Vector.ext fun k hk => FlagWord.eq_of_isUp_eq fun b hb => ?_
  rw [← isUp_of_word hk hb, ← isUp_of_word hk hb, h]

theorem mem_zipIdx_toList {w : FlagWord} {k : Nat} :
    (w, k) ∈ (Vector.toList f).zipIdx ↔ ∃ hk : k < sectionVolume / 64, f[k] = w := by
  rw [List.mem_zipIdx_iff_getElem?, Vector.getElem?_toList, Vector.getElem?_eq_some_iff]

theorem mem_toList {i : Nat} : i ∈ f.toList ↔ f.isUp i = true := by
  simp only [toList, List.mem_flatMap, List.mem_map, Prod.exists, mem_zipIdx_toList]
  constructor
  · rintro ⟨_, k, ⟨hk, rfl⟩, b, hb, rfl⟩
    obtain ⟨hb, hup⟩ := FlagWord.mem_toList.1 hb
    rw [isUp_of_word hk hb, hup]
  · intro hup
    have hi := lt_of_isUp hup
    rw [isUp_of_lt hi] at hup
    exact ⟨_, i / 64, ⟨word_lt hi, rfl⟩, i % 64,
      FlagWord.mem_toList.2 ⟨Nat.mod_lt i (by decide), hup⟩, by omega⟩

theorem pairwise_toList (f : CellFlags) : f.toList.Pairwise (· < ·) := by
  have hplaces : (Vector.toList f).zipIdx.Pairwise fun a b => a.2 < b.2 := by
    rw [← List.pairwise_map, List.zipIdx_map_snd]
    exact List.pairwise_lt_range' 1
  refine List.pairwise_flatMap.2 ⟨fun e _ => ?_, hplaces.imp fun hlt i hi j hj => ?_⟩
  -- first within a word, then from a word to a later one
  · exact e.1.pairwise_toList.map _ fun a b hab => by omega
  · obtain ⟨a, ha, rfl⟩ := List.mem_map.1 hi
    obtain ⟨b, hb, rfl⟩ := List.mem_map.1 hj
    have ha := (FlagWord.mem_toList.1 ha).1
    omega

end CellFlags

/-! ## Members -/

namespace CellSet

theorem contains_empty (i : Nat) : empty.contains i = false := CellFlags.isUp_allDown i

theorem lt_of_contains {s : CellSet} {i : Nat} (h : s.contains i = true) : i < sectionVolume :=
  CellFlags.lt_of_isUp h

theorem contains_insert (s : CellSet) {i : Nat} (hi : i < sectionVolume) (j : Nat) :
    (s.insert i).2.contains j = (s.contains j || decide (j = i)) := by
  by_cases hs : s.contains i = true
  · rw [insert, dif_neg (by simp [hs])]
    by_cases hj : j = i
    · simp [hj, hs]
    · simp [hj]
  · rw [Bool.not_eq_true] at hs
    rw [insert, dif_pos ⟨hi, hs⟩]
    show (s.flags.raise i hi).isUp j = _
    rw [CellFlags.isUp_raise]
    by_cases hj : j = i <;> simp [hj, contains]

/-- The same for any index; those past the section cannot be put in. -/
theorem contains_insert_iff {s : CellSet} {i j : Nat} :
    (s.insert i).2.contains j = true ↔ s.contains j = true ∨ j = i ∧ j < sectionVolume := by
  by_cases hi : i < sectionVolume
  · rw [contains_insert s hi, Bool.or_eq_true, decide_eq_true_eq]
    exact or_congr_right ⟨fun h => ⟨h, h ▸ hi⟩, And.left⟩
  · have hsame : s.insert i = (false, s) := dif_neg fun h => hi h.1
    rw [hsame]
    exact (or_iff_left fun h : j = i ∧ j < sectionVolume => hi (h.1 ▸ h.2)).symm

theorem contains_erase (s : CellSet) (i j : Nat) :
    (s.erase i).2.contains j = (s.contains j && decide (j ≠ i)) := by
  by_cases hs : s.contains i = true
  · have hi := lt_of_contains hs
    rw [erase, dif_pos ⟨hi, hs⟩]
    show (s.flags.lower i hi).isUp j = _
    rw [CellFlags.isUp_lower]
    by_cases hj : j = i <;> simp [hj, contains]
  · rw [erase, dif_neg fun h => hs h.2]
    rw [Bool.not_eq_true] at hs
    by_cases hj : j = i
    · simp [hj, hs]
    · simp [hj]

theorem mem_toList {s : CellSet} {i : Nat} : i ∈ s.toList ↔ s.contains i = true :=
  CellFlags.mem_toList

theorem pairwise_toList (s : CellSet) : s.toList.Pairwise (· < ·) := s.flags.pairwise_toList

theorem nodup_toList (s : CellSet) : s.toList.Nodup := s.pairwise_toList.imp Nat.ne_of_lt

/-- Going from word to word and from flag to flag finds what testing every index finds. -/
theorem toList_eq_filter_range (s : CellSet) :
    s.toList = (List.range sectionVolume).filter s.contains := by
  refine s.pairwise_toList.eq_of_mem_iff (List.pairwise_lt_range.filter _) fun i => ?_
  rw [mem_toList, List.mem_filter, List.mem_range]
  exact ⟨fun h => ⟨lt_of_contains h, h⟩, And.right⟩

/-- The size of a set of cells is the number of its members. -/
theorem size_eq_length_toList (s : CellSet) : s.size = s.toList.length := by
  rw [s.size_eq, toList_eq_filter_range, ← List.countP_eq_length_filter]
  rfl

-- One member in the first word and one in the last, and an index past the section.
example :
    let s := (([4095, 64, 5, 4096, 5].foldl (fun s i => (s.insert i).2) empty).erase 64).2
    s.toList = [5, 4095] ∧ s.size = 2 := by decide +kernel

/-- A set is known by its members. -/
theorem eq_of_contains_eq {s t : CellSet} (h : ∀ i, s.contains i = t.contains i) : s = t := by
  have hflags : s.flags = t.flags := CellFlags.eq_of_isUp_eq h
  have hsize : s.size = t.size := by rw [s.size_eq, t.size_eq, hflags]
  obtain ⟨flags, size, hcount⟩ := s
  subst hflags hsize
  rfl

theorem isEmpty_iff {s : CellSet} : s.isEmpty = true ↔ ∀ i, s.contains i = false := by
  rw [isEmpty, beq_iff_eq, size_eq_length_toList, List.length_eq_zero_iff,
    List.eq_nil_iff_forall_not_mem]
  simp only [mem_toList, Bool.not_eq_true]

theorem eq_empty_of_size_eq_zero {s : CellSet} (h : s.size = 0) : s = empty :=
  eq_of_contains_eq fun i => (isEmpty_iff.1 (beq_iff_eq.2 h) i).trans (contains_empty i).symm

end CellSet

end BlockAutomata.Engine
