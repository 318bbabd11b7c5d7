/-
  What a set of cells holds after any sequence of edits.

  1. **The history.**  A cell was put in last when some edit puts it in and no later one takes it
     out, by itself or together with all others (`PutInLast`).  This looks at the edits and not at
     a set.

  2. **One edit.**  After one more edit a cell was put in last when this edit puts it in, or when it
     was so before and this edit does not take it out (`putInLast_snoc`).  The members of a set
     change by the same rule, as far as the section reaches (`contains_edited`).

  3. **All edits.**  So the members are the cells of the section that were put in last
     (`contains_after`).  The answers, the size and the list are right for every set, whatever its
     history is, and together they say what an edited set is (`after_holds_exactly`).
-/
import Mathlib.Data.Set.Card
import BlockAutomata.Proofs.Engine.CellSets

namespace BlockAutomata.Engine.CellSet

/-! ## Edits -/

/-- A change of a set.  Any index may be named. -/
inductive Edit where
  | insert (index : Nat)
  | erase (index : Nat)
  | drain

/-- The set after an edit. -/
def edited (s : CellSet) : Edit → CellSet
  | .insert index => (s.insert index).2
  | .erase index => (s.erase index).2
  | .drain => s.drain.2

/-- What a set without members becomes by the edits. -/
def after (edits : List Edit) : CellSet := edits.foldl edited empty

/-- The index was put in, and after that neither it nor everything was taken out. -/
def PutInLast (index : Nat) (edits : List Edit) : Prop :=
  ∃ earlier later, edits = earlier ++ .insert index :: later ∧
    .erase index ∉ later ∧ .drain ∉ later

theorem not_putInLast_nil (i : Nat) : ¬ PutInLast i [] := by
  rintro ⟨earlier, later, h, -⟩
  exact List.append_ne_nil_of_right_ne_nil _ (List.cons_ne_nil _ _) h.symm

theorem putInLast_snoc {i : Nat} {edits : List Edit} {e : Edit} :
    PutInLast i (edits ++ [e]) ↔
      e = .insert i ∨ PutInLast i edits ∧ e ≠ .erase i ∧ e ≠ .drain := by
  constructor
  · rintro ⟨earlier, later, h, herase, hdrain⟩
    -- the new edit is the one that puts the index in, or it is the last of the later ones
    rcases later.eq_nil_or_concat with rfl | ⟨rest, last, rfl⟩
    · exact Or.inl (List.singleton_inj.1 (List.append_inj_right' h rfl))
    · rw [List.concat_eq_append, ← List.cons_append, ← List.append_assoc] at h
      obtain ⟨rfl, hlast⟩ := List.append_inj' h rfl
      obtain rfl := List.singleton_inj.1 hlast
      rw [List.concat_eq_append, List.mem_append, List.mem_singleton, not_or] at herase hdrain
      exact Or.inr ⟨⟨earlier, rest, rfl, herase.1, hdrain.1⟩, Ne.symm herase.2,
        Ne.symm hdrain.2⟩
  · rintro (rfl | ⟨⟨earlier, later, rfl, herase, hdrain⟩, hne, hnd⟩)
    · exact ⟨edits, [], rfl, List.not_mem_nil, List.not_mem_nil⟩
    · refine ⟨earlier, later ++ [e], by simp, ?_, ?_⟩
      · simp [herase, Ne.symm hne]
      · simp [hdrain, Ne.symm hnd]

/-! ## Members -/

theorem contains_edited (s : CellSet) (e : Edit) (i : Nat) :
    (s.edited e).contains i = true ↔ i < sectionVolume ∧
      (e = .insert i ∨ s.contains i = true ∧ e ≠ .erase i ∧ e ≠ .drain) := by
  have hlt : s.contains i = true → i < sectionVolume := lt_of_contains
  cases e with
  | insert j =>
    show (s.insert j).2.contains i = true ↔ _
    rw [contains_insert_iff]
    constructor
    · rintro (hs | ⟨rfl, hi⟩)
      · exact ⟨hlt hs, Or.inr ⟨hs, by simp, by simp⟩⟩
      · exact ⟨hi, Or.inl rfl⟩
    · rintro ⟨hi, h | ⟨hs, -⟩⟩
      · exact Or.inr ⟨(Edit.insert.inj h).symm, hi⟩
      · exact Or.inl hs
  | erase j =>
    show (s.erase j).2.contains i = true ↔ _
    rw [contains_erase, Bool.and_eq_true, decide_eq_true_eq]
    constructor
    · rintro ⟨hs, hne⟩
      exact ⟨hlt hs, Or.inr ⟨hs, fun h => hne (Edit.erase.inj h).symm, by simp⟩⟩
    · rintro ⟨-, h | ⟨hs, hne, -⟩⟩
      · exact absurd h (by simp)
      · exact ⟨hs, fun h => hne (h ▸ rfl)⟩
  | drain =>
    show empty.contains i = true ↔ _
    simp [contains_empty]

/-- The members are the cells of the section that were put in last. -/
theorem contains_after (edits : List Edit) (i : Nat) :
    (after edits).contains i = true ↔ i < sectionVolume ∧ PutInLast i edits := by
  induction edits using List.reverseRecOn with
  | nil => simp [after, contains_empty, not_putInLast_nil]
  | append_singleton edits e ih =>
    rw [after, List.foldl_append, List.foldl_cons, List.foldl_nil, ← after, contains_edited, ih,
      putInLast_snoc]
    tauto

/-! ## Answers -/

theorem insert_fst_iff (s : CellSet) (i : Nat) :
    (s.insert i).1 = true ↔ (s.insert i).2.contains ≠ s.contains := by
  by_cases h : i < sectionVolume ∧ s.contains i = false
  · have hnew : (s.insert i).1 = true := by rw [insert, dif_pos h]
    refine iff_of_true hnew fun hsame => ?_
    have hi := congrFun hsame i
    rw [contains_insert s h.1, h.2] at hi
    simp at hi
  · have hsame : s.insert i = (false, s) := dif_neg h
    simp [hsame]

theorem erase_fst_iff (s : CellSet) (i : Nat) :
    (s.erase i).1 = true ↔ (s.erase i).2.contains ≠ s.contains := by
  by_cases h : i < sectionVolume ∧ s.contains i = true
  · have hold : (s.erase i).1 = true := by rw [erase, dif_pos h]
    refine iff_of_true hold fun hsame => ?_
    have hi := congrFun hsame i
    rw [contains_erase, h.2] at hi
    simp at hi
  · have hsame : s.erase i = (false, s) := dif_neg h
    simp [hsame]

theorem size_eq_ncard (s : CellSet) : s.size = {i | s.contains i = true}.ncard := by
  have hmembers : {i | s.contains i = true} = ↑s.toList.toFinset := by
    ext i
    simp [mem_toList]
  rw [hmembers, Set.ncard_coe_finset, List.toFinset_card_of_nodup s.nodup_toList,
    size_eq_length_toList]

theorem count_toList (s : CellSet) (i : Nat) :
    s.toList.count i = if s.contains i then 1 else 0 := by
  rw [s.nodup_toList.count]
  simp only [mem_toList]

/-- An edited set is a finite set of cells of the section, whatever the edits and their indices are.
    Its members are the cells that were put in last.  Putting in and taking out say whether the
    members change, the size is the number of members, and the list has each member once, in
    ascending order.  Draining gives this list and leaves no members. -/
theorem after_holds_exactly (edits : List Edit) :
    let s := after edits
    (∀ i, s.contains i = true ↔ i < sectionVolume ∧ PutInLast i edits) ∧
      (∀ i, (s.insert i).1 = true ↔ (s.insert i).2.contains ≠ s.contains) ∧
      (∀ i, (s.erase i).1 = true ↔ (s.erase i).2.contains ≠ s.contains) ∧
      s.size = {i | s.contains i = true}.ncard ∧
      (s.isEmpty = true ↔ ∀ i, s.contains i = false) ∧
      s.toList.Pairwise (· < ·) ∧
      (∀ i, s.toList.count i = if s.contains i then 1 else 0) ∧
      s.drain = (s.toList, empty) ∧ ∀ i, empty.contains i = false := by
  intro s
  exact ⟨contains_after edits, s.insert_fst_iff, s.erase_fst_iff, s.size_eq_ncard, isEmpty_iff,
    s.pairwise_toList, s.count_toList, rfl, contains_empty⟩

end BlockAutomata.Engine.CellSet
