/-
  Looking things up in tables and in channel maps.

  1. The keys of a list of entries are distinct, so a look-up finds the only entry with its key.
     The order of a table is invisible to whoever only looks things up.

  2. For each way of changing a table there is one equation that says what a look-up finds
     afterwards: the changed value at the key, the old value at every other key.

  3. The slots of a channel map ascend, so they are distinct, and the same holds for it.
-/
import BlockAutomata.OrderedMap
import BlockAutomata.SlotMap

namespace BlockAutomata

/-! ## Lists of entries -/

section Entries

variable {κ ν : Type} [DecidableEq κ]

theorem lookup_cons_if (a k : κ) (v : ν) (rest : List (κ × ν)) :
    ((a, v) :: rest).lookup k = if k = a then some v else rest.lookup k := by
  by_cases h : k = a
  · simp [h]
  · simp [List.lookup_cons, beq_eq_false_iff_ne.2 h, h]

/-- Among distinct keys, an entry is found under its key. -/
theorem lookup_eq_some_iff_mem {l : List (κ × ν)} (hn : (l.map Prod.fst).Nodup) {k : κ} {v : ν} :
    l.lookup k = some v ↔ (k, v) ∈ l := by
  induction l with
  | nil => simp
  | cons e rest ih =>
    obtain ⟨a, b⟩ := e
    rw [List.map_cons, List.nodup_cons] at hn
    obtain ⟨ha, hrest⟩ := hn
    rw [lookup_cons_if, List.mem_cons, Prod.mk.injEq]
    by_cases h : k = a
    · subst h
      have hk : (k, v) ∉ rest := fun hm => ha (List.mem_map.2 ⟨_, hm, rfl⟩)
      simp [hk, eq_comm]
    · simp only [h, if_false, false_and, false_or]
      exact ih hrest

theorem lookup_eq_none_iff_not_mem {l : List (κ × ν)} {k : κ} :
    l.lookup k = none ↔ k ∉ l.map Prod.fst := by
  simp only [List.lookup_eq_none_iff, List.mem_map, not_exists, not_and]
  constructor
  · intro h e he hk
    exact absurd hk.symm (by simpa using h e he)
  · intro h e he
    simpa using fun hk : k = e.1 => h e he hk.symm

end Entries

/-! ## Tables -/

namespace OrderedMap

variable {κ ν : Type} [DecidableEq κ]

theorem find?_eq_some_iff {m : OrderedMap κ ν} {k : κ} {v : ν} :
    m.find? k = some v ↔ (k, v) ∈ m.entries :=
  lookup_eq_some_iff_mem m.nodup

theorem find?_eq_none_iff {m : OrderedMap κ ν} {k : κ} : m.find? k = none ↔ k ∉ m.keys :=
  lookup_eq_none_iff_not_mem

/-- Tables with the same keys are of the same size. -/
theorem size_eq_of_contains_eq {m₁ m₂ : OrderedMap κ ν} (h : ∀ k, m₁.contains k = m₂.contains k) :
    m₁.size = m₂.size := by
  have hperm : m₁.keys.Perm m₂.keys := by
    rw [List.perm_ext_iff_of_nodup m₁.keys_nodup m₂.keys_nodup]
    intro k
    rw [← contains_iff_mem_keys, ← contains_iff_mem_keys, h]
  have hlength := hperm.length_eq
  rw [keys, keys, List.length_map, List.length_map] at hlength
  exact hlength

@[simp] theorem find?_empty (k : κ) : (empty : OrderedMap κ ν).find? k = none := rfl

theorem find?_insert (m : OrderedMap κ ν) (k a : κ) (v : ν) :
    (m.insert k v).find? a = if a = k then some v else m.find? a := by
  show (put k v m.entries).lookup a = if a = k then some v else m.entries.lookup a
  induction m.entries with
  | nil => simp [put, lookup_cons_if]
  | cons e rest ih =>
    obtain ⟨b, w⟩ := e
    by_cases hk : b = k
    · subst hk
      by_cases h : a = b <;> simp [put, lookup_cons_if, h]
    · simp only [put, hk, if_false, lookup_cons_if, ih]
      by_cases h : a = b
      · simp [h, hk]
      · simp [h]

/-- An entry with a new key goes to the end. -/
theorem entries_insert_of_not_mem {m : OrderedMap κ ν} {k : κ} (h : k ∉ m.keys) (v : ν) :
    (m.insert k v).entries = m.entries ++ [(k, v)] := by
  have hput : ∀ l : List (κ × ν), k ∉ l.map Prod.fst → put k v l = l ++ [(k, v)] := by
    intro l hl
    induction l with
    | nil => rfl
    | cons e rest ih =>
      rw [List.map_cons, List.mem_cons, not_or] at hl
      rw [put, if_neg (Ne.symm hl.1), ih hl.2, List.cons_append]
  exact hput m.entries h

theorem find?_modify (m : OrderedMap κ ν) (k a : κ) (f : ν → ν) :
    (m.modify k f).find? a = if a = k then (m.find? k).map f else m.find? a := by
  show (adjust k f m.entries).lookup a =
    if a = k then (m.entries.lookup k).map f else m.entries.lookup a
  induction m.entries with
  | nil => simp [adjust]
  | cons e rest ih =>
    obtain ⟨b, v⟩ := e
    by_cases hk : b = k
    · subst hk
      by_cases h : a = b <;> simp [adjust, lookup_cons_if, h]
    · simp only [adjust, hk, if_false, lookup_cons_if, ih, Ne.symm hk]
      by_cases h : a = b
      · simp [h, hk]
      · simp [h]

/-- Changing a value and asking for something along with it is asking, and changing the value. -/
theorem modifyGet_eq {β : Type} (m : OrderedMap κ ν) (k : κ) (f : ν → β × ν) :
    m.modifyGet k f = ((m.find? k).map fun v => (f v).1, m.modify k fun v => (f v).2) := by
  have h : ∀ l : List (κ × ν),
      adjustGet k f l = ((l.lookup k).map fun v => (f v).1, adjust k (fun v => (f v).2) l) := by
    intro l
    induction l with
    | nil => rfl
    | cons e rest ih =>
      obtain ⟨a, v⟩ := e
      by_cases ha : a = k
      · subst ha; simp [adjustGet, adjust]
      · simp [adjustGet, adjust, ha, lookup_cons_if, Ne.symm ha, ih]
  simp only [modifyGet, modify, find?, h]

/-- Changing a value into itself changes nothing. -/
theorem modify_eq_self {m : OrderedMap κ ν} {k : κ} {f : ν → ν}
    (h : ∀ v, m.find? k = some v → f v = v) : m.modify k f = m := by
  have hl : ∀ l : List (κ × ν), (∀ v, l.lookup k = some v → f v = v) → adjust k f l = l := by
    intro l
    induction l with
    | nil => intro _; rfl
    | cons e rest ih =>
      obtain ⟨a, v⟩ := e
      intro hv
      by_cases ha : a = k
      · subst ha; simp [adjust, hv v]
      · simp only [lookup_cons_if, Ne.symm ha, if_false] at hv
        simp [adjust, ha, ih hv]
  obtain ⟨entries, nodup⟩ := m
  simp only [modify, mk.injEq]
  exact hl entries h

omit [DecidableEq κ] in
/-- Mapping every value to itself changes nothing. -/
theorem map_eq_self {m : OrderedMap κ ν} {f : κ → ν → ν} (h : ∀ e ∈ m.entries, f e.1 e.2 = e.2) :
    m.map f = m := by
  have hl : m.entries.map (fun e => (e.1, f e.1 e.2)) = m.entries := by
    refine (List.map_congr_left fun e he => ?_).trans (List.map_id _)
    rw [h e he]
    rfl
  obtain ⟨entries, nodup⟩ := m
  simp only [map, mk.injEq]
  exact hl

theorem find?_map {μ : Type} (m : OrderedMap κ ν) (f : κ → ν → μ) (k : κ) :
    (m.map f).find? k = (m.find? k).map (f k) := by
  show (m.entries.map fun e => (e.1, f e.1 e.2)).lookup k = (m.entries.lookup k).map (f k)
  induction m.entries with
  | nil => rfl
  | cons e rest ih =>
    obtain ⟨a, v⟩ := e
    by_cases h : k = a
    · subst h; simp
    · simp [lookup_cons_if, h, ih]

theorem find?_upsert (m : OrderedMap κ ν) (k a : κ) (fallback : ν) (f : ν → ν) :
    (m.upsert k fallback f).find? a =
      if a = k then some (f ((m.find? k).getD fallback)) else m.find? a := by
  unfold upsert
  cases hk : m.find? k with
  | some v => simp [contains, hk, find?_modify]
  | none => simp [contains, hk, find?_insert]

theorem find?_swapRemove (m : OrderedMap κ ν) (k a : κ) :
    (m.swapRemove k).find? a = if a = k then none else m.find? a := by
  have hp := swapErase_perm k m.entries
  -- the list with its first entry of `k` dropped, which is the only one
  have hl : ∀ l : List (κ × ν), (l.map Prod.fst).Nodup →
      (l.eraseP fun e => e.1 = k).lookup a = if a = k then none else l.lookup a := by
    intro l hn
    induction l with
    | nil => simp
    | cons e rest ih =>
      obtain ⟨b, v⟩ := e
      rw [List.map_cons, List.nodup_cons] at hn
      by_cases hb : b = k
      · subst hb
        by_cases h : a = b
        · subst h; simpa using lookup_eq_none_iff_not_mem.2 hn.1
        · simp [lookup_cons_if, h]
      · simp only [List.eraseP_cons, hb, decide_false, cond_false, lookup_cons_if, ih hn.2]
        by_cases h : a = b
        · simp [h, hb]
        · simp [h]
  have hn := List.Sublist.nodup ((List.eraseP_sublist (p := fun e => e.1 = k)).map Prod.fst) m.nodup
  refine Eq.trans ?_ (hl m.entries m.nodup)
  apply Option.ext
  intro v
  rw [find?_eq_some_iff, lookup_eq_some_iff_mem hn]
  exact hp.mem_iff

/-- Up to order, removing a key leaves the entries of the other keys. -/
theorem entries_swapRemove_perm (m : OrderedMap κ ν) (k : κ) :
    (m.swapRemove k).entries.Perm (m.entries.filter fun e => e.1 ≠ k) := by
  -- the list with its first entry of `k` dropped, which is the only one
  have hl : ∀ l : List (κ × ν), (l.map Prod.fst).Nodup →
      (l.eraseP fun e => e.1 = k) = l.filter fun e => e.1 ≠ k := by
    intro l hn
    induction l with
    | nil => rfl
    | cons e rest ih =>
      rw [List.map_cons, List.nodup_cons] at hn
      by_cases he : e.1 = k
      · have hrest : ∀ a ∈ rest, a.1 ≠ k := fun a ha hak =>
          hn.1 (List.mem_map.2 ⟨a, ha, hak.trans he.symm⟩)
        rw [List.eraseP_cons_of_pos (by simpa using he),
          List.filter_cons_of_neg (by simpa using he),
          List.filter_eq_self.2 fun a ha => by simpa using hrest a ha]
      · rw [List.eraseP_cons_of_neg (by simpa using he),
          List.filter_cons_of_pos (by simpa using he), ih hn.2]
  rw [← hl m.entries m.nodup]
  exact swapErase_perm k m.entries

end OrderedMap

/-! ## Channel maps -/

namespace SlotMap

theorem slots_nodup (m : SlotMap) : (m.entries.map Prod.fst).Nodup :=
  List.Pairwise.map Prod.fst (fun _ _ h => Nat.ne_of_lt h) m.ascending

theorem get?_eq_some_iff {m : SlotMap} {slot : Nat} {value : Int64} :
    m.get? slot = some value ↔ (slot, value) ∈ m.entries :=
  lookup_eq_some_iff_mem m.slots_nodup

@[simp] theorem get?_empty (slot : Nat) : empty.get? slot = none := rfl

theorem get?_insert (m : SlotMap) (slot a : Nat) (value : Int64) :
    (m.insert slot value).get? a = if a = slot then some value else m.get? a := by
  show (put slot value m.entries).lookup a = if a = slot then some value else m.entries.lookup a
  induction m.entries with
  | nil => simp [put, lookup_cons_if]
  | cons e rest ih =>
    obtain ⟨b, v⟩ := e
    simp only [put]
    split
    · simp [lookup_cons_if]
    · split
      · rename_i hs
        subst hs
        by_cases h : a = slot <;> simp [lookup_cons_if, h]
      · rename_i hs
        simp only [lookup_cons_if, ih]
        by_cases h : a = b
        · simp [h, Ne.symm hs]
        · simp [h]

theorem get?_filter (m : SlotMap) (keep : Nat → Int64 → Bool) (slot : Nat) :
    (m.filter keep).get? slot = (m.get? slot).filter (keep slot) := by
  apply Option.ext
  intro value
  rw [get?_eq_some_iff, Option.filter_eq_some_iff, get?_eq_some_iff, filter, List.mem_filter]

theorem isEmpty_iff {m : SlotMap} : m.isEmpty = true ↔ ∀ slot, m.get? slot = none := by
  constructor
  · intro h slot
    rw [isEmpty, List.isEmpty_iff] at h
    rw [get?, h, List.lookup_nil]
  · intro h
    cases he : m.entries with
    | nil => rw [isEmpty, he]; rfl
    | cons e rest =>
      have hm : m.get? e.1 = some e.2 := get?_eq_some_iff.2 (by rw [he]; exact List.mem_cons_self)
      rw [h] at hm
      cases hm

end SlotMap

end BlockAutomata
