/-
  How the slot table of a script grows.

  1. Giving a slot to a name adds an entry at the end of the table, or nothing.  So tables only
     grow (`Grows`), and a name keeps the slot that it has once been given.

  2. The entries of a table that grew from nothing are numbered from 1 in order (`Numbered`), and
     the name of the block is not among them.  Then the slots that the table knows are the numbers
     up to its size, and sorting the names by slot changes nothing.

  3. A known slot can be written by name: `nameOf` gives back a name whose slot it is
     (`allocate_nameOf`).
-/
import BlockAutomata.Proofs.Tables
import BlockAutomata.Script.Slots

namespace BlockAutomata.Script.SlotTable

variable {t t' t'' : SlotTable} {name : String} {slot : Nat}

/-! ## Growing -/

/-- The names of the table have the slots 1, 2, … in order of first use, and the name of the block
    is not among them. -/
structure Numbered (t : SlotTable) : Prop where
  values : t.values = List.range' 1 t.size
  block : blockName ∉ t.keys

/-- The second table continues the first. -/
structure Grows (t t' : SlotTable) : Prop where
  entries : t.entries <+: t'.entries
  numbered : t.Numbered → t'.Numbered

theorem Grows.refl (t : SlotTable) : t.Grows t := ⟨List.prefix_refl _, id⟩

theorem Grows.trans (h : t.Grows t') (h' : t'.Grows t'') : t.Grows t'' :=
  ⟨h.entries.trans h'.entries, fun hn => h'.numbered (h.numbered hn)⟩

/-- A name keeps its slot. -/
theorem Grows.find? (h : t.Grows t') (hs : t.find? name = some slot) :
    t'.find? name = some slot :=
  OrderedMap.find?_eq_some_iff.2 (h.entries.subset (OrderedMap.find?_eq_some_iff.1 hs))

theorem numbered_empty : Numbered OrderedMap.empty := ⟨rfl, List.not_mem_nil⟩

/-- The next slot goes to a new name, unless it is that of the block. -/
theorem Numbered.insert (h : t.Numbered) (hname : name ≠ blockName) (hnew : name ∉ t.keys) :
    Numbered (OrderedMap.insert t name (t.size + 1)) := by
  have he := OrderedMap.entries_insert_of_not_mem hnew (t.size + 1)
  have hsize : (OrderedMap.insert t name (t.size + 1)).size = t.size + 1 := by
    rw [OrderedMap.size, he, List.length_append, List.length_singleton]
    rfl
  constructor
  · have hvalues := h.values
    rw [OrderedMap.values] at hvalues
    rw [OrderedMap.values, he, List.map_append, hvalues, hsize, List.range'_1_concat,
      Nat.add_comm 1]
    rfl
  · rw [OrderedMap.keys, he, List.map_append, List.mem_append]
    rintro (hb | hb)
    · exact h.block hb
    · exact hname (List.mem_singleton.1 hb).symm

/-- Asking for the slot of a name continues the table. -/
theorem grows_allocate (t : SlotTable) (name : String) : t.Grows (t.allocate name).2 := by
  rw [allocate]
  split
  · exact Grows.refl t
  · rename_i hname
    split
    · exact Grows.refl t
    · rename_i hnone
      have hnew := OrderedMap.find?_eq_none_iff.1 hnone
      refine ⟨?_, fun h => h.insert hname hnew⟩
      rw [OrderedMap.entries_insert_of_not_mem hnew]
      exact List.prefix_append _ _

/-! ## Known slots -/

/-- The slot is that of the block, or that of a name of the table. -/
def Knows (t : SlotTable) (slot : Nat) : Prop := slot = 0 ∨ ∃ name, t.find? name = some slot

theorem knows_zero (t : SlotTable) : t.Knows 0 := Or.inl rfl

theorem Grows.knows (h : t.Grows t') (hs : t.Knows slot) : t'.Knows slot :=
  hs.imp id fun ⟨name, hname⟩ => ⟨name, h.find? hname⟩

theorem knows_allocate (t : SlotTable) (name : String) :
    (t.allocate name).2.Knows (t.allocate name).1 := by
  rw [allocate]
  split
  · exact knows_zero t
  · split
    · rename_i hfound
      exact Or.inr ⟨name, hfound⟩
    · exact Or.inr ⟨name, by rw [OrderedMap.find?_insert, if_pos rfl]⟩

/-- The slot of a name is its place among the names, counted from 1. -/
theorem Numbered.find?_eq_some_iff (h : t.Numbered) :
    t.find? name = some slot ↔ ∃ i, t.keys[i]? = some name ∧ slot = i + 1 := by
  -- the entry at each place
  have hslot : ∀ i e, t.entries[i]? = some e → e.2 = i + 1 := by
    intro i e he
    have hv : t.values[i]? = some e.2 := by rw [OrderedMap.values, List.getElem?_map, he]; rfl
    rw [h.values, List.getElem?_eq_some_iff] at hv
    obtain ⟨_, hv⟩ := hv
    rw [← hv, List.getElem_range', Nat.one_mul, Nat.add_comm]
  rw [OrderedMap.find?_eq_some_iff, List.mem_iff_getElem?]
  constructor
  · rintro ⟨i, hi⟩
    exact ⟨i, by rw [OrderedMap.keys, List.getElem?_map, hi]; rfl, hslot i _ hi⟩
  · rintro ⟨i, hi, rfl⟩
    rw [OrderedMap.keys, List.getElem?_map, Option.map_eq_some_iff] at hi
    obtain ⟨e, he, rfl⟩ := hi
    exact ⟨i, by rw [he, ← hslot i e he]⟩

/-- Looking for a name among the names finds its slot, less one. -/
theorem Numbered.idxOf?_keys (h : t.Numbered) (name : String) :
    (t.keys.idxOf? name).map (· + 1) = t.find? name := by
  apply Option.ext
  intro slot
  rw [h.find?_eq_some_iff, Option.map_eq_some_iff]
  constructor
  · rintro ⟨i, hi, rfl⟩
    obtain ⟨hlt, hname, -⟩ := List.idxOf?_eq_some_iff.1 hi
    exact ⟨i, List.getElem?_eq_some_iff.2 ⟨hlt, hname⟩, rfl⟩
  · rintro ⟨i, hi, rfl⟩
    obtain ⟨hlt, hname⟩ := List.getElem?_eq_some_iff.1 hi
    refine ⟨i, List.idxOf?_eq_some_iff.2 ⟨hlt, hname, fun j hj hsame => ?_⟩, rfl⟩
    exact List.pairwise_iff_getElem.1 t.keys_nodup j i (Nat.lt_trans hj hlt) hlt hj
      (hsame.trans hname.symm)

/-- The known slots are the numbers up to the size of the table. -/
theorem Numbered.knows_iff (h : t.Numbered) : t.Knows slot ↔ slot ≤ t.size := by
  have hlength : t.keys.length = t.size := List.length_map ..
  constructor
  · rintro (rfl | ⟨name, hname⟩)
    · exact Nat.zero_le _
    · obtain ⟨i, hi, rfl⟩ := h.find?_eq_some_iff.1 hname
      obtain ⟨hlt, _⟩ := List.getElem?_eq_some_iff.1 hi
      omega
  · intro hle
    by_cases hz : slot = 0
    · exact Or.inl hz
    · have hlt : slot - 1 < t.keys.length := by omega
      exact Or.inr ⟨t.keys[slot - 1], h.find?_eq_some_iff.2
        ⟨slot - 1, List.getElem?_eq_getElem hlt, by omega⟩⟩

/-- Sorting the names by slot leaves them in order of first use. -/
theorem Numbered.namesBySlot_eq (h : t.Numbered) : t.namesBySlot = t.keys := by
  have hsorted : t.entries.Pairwise fun a b => a.2 ≤ b.2 := by
    have hv : t.values.Pairwise (· ≤ ·) := by
      rw [h.values]
      exact (List.pairwise_lt_range' 1).imp Nat.le_of_lt
    exact List.pairwise_map.1 hv
  rw [namesBySlot, List.mergeSort_of_pairwise (hsorted.imp fun hle => decide_eq_true hle)]
  rfl

/-! ## Names of known slots -/

/-- A name of the slot. -/
def nameOf (t : SlotTable) (slot : Nat) : String :=
  if slot = 0 then blockName
  else ((t.entries.find? fun e => e.2 == slot).map Prod.fst).getD blockName

/-- A known slot has a name, and asking for its slot gives the slot again and no new entry. -/
theorem allocate_nameOf (hblock : blockName ∉ t.keys) (hs : t.Knows slot) :
    t.allocate (t.nameOf slot) = (slot, t) := by
  by_cases hz : slot = 0
  · rw [allocate, nameOf, if_pos hz, if_pos rfl, hz]
  · obtain ⟨name, hname⟩ := hs.resolve_left hz
    obtain ⟨e, he⟩ : ∃ e, (t.entries.find? fun e => e.2 == slot) = some e := by
      rw [← Option.isSome_iff_exists, List.find?_isSome]
      exact ⟨_, OrderedMap.find?_eq_some_iff.1 hname, beq_self_eq_true slot⟩
    have hslot : e.2 = slot := by simpa using List.find?_some he
    have hmem : e ∈ t.entries := List.mem_of_find?_eq_some he
    have hfind : t.find? e.1 = some slot := OrderedMap.find?_eq_some_iff.2 (hslot ▸ hmem)
    have hne : e.1 ≠ blockName := fun hb => hblock (hb ▸ List.mem_map_of_mem hmem)
    rw [nameOf, if_neg hz, he, Option.map_some, Option.getD_some, allocate, if_neg hne, hfind]

end BlockAutomata.Script.SlotTable
