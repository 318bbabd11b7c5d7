/-
  Finite maps from channel slots to values.

  A cell carries numbered channels: slot 0 is its block, higher slots are what rules keep about it.
  A channel map names some of the slots and a value for each.  Its entries stand in ascending order
  of slots, each slot once, so two maps are equal exactly when they agree on every slot, and reading
  the entries out gives a canonical list.
-/

namespace BlockAutomata

/-- A map from slots to values, ascending by slot. -/
structure SlotMap where
  entries : List (Nat × Int64)
  ascending : entries.Pairwise fun a b => a.1 < b.1
  deriving DecidableEq, Repr

namespace SlotMap

/-- The map that names no slot. -/
def empty : SlotMap := ⟨[], List.Pairwise.nil⟩

instance : Inhabited SlotMap := ⟨empty⟩

/-- Whether the map names no slot. -/
def isEmpty (m : SlotMap) : Bool := m.entries.isEmpty

/-- The value that the map names for the slot. -/
def get? (m : SlotMap) (slot : Nat) : Option Int64 := m.entries.lookup slot

/-- Put a value into an ascending list of entries, replacing the one with the same slot. -/
def put (slot : Nat) (value : Int64) : List (Nat × Int64) → List (Nat × Int64)
  | [] => [(slot, value)]
  | e :: rest =>
    if slot < e.1 then (slot, value) :: e :: rest
    else if slot = e.1 then (slot, value) :: rest
    else e :: put slot value rest

theorem mem_put {slot : Nat} {value : Int64} {l : List (Nat × Int64)} {a : Nat × Int64}
    (h : a ∈ put slot value l) : a = (slot, value) ∨ a ∈ l := by
  induction l with
  | nil => simpa [put] using h
  | cons e rest ih =>
    simp only [put] at h
    split at h
    · rcases List.mem_cons.1 h with h | h
      · exact Or.inl h
      · exact Or.inr h
    · split at h
      · rcases List.mem_cons.1 h with h | h
        · exact Or.inl h
        · exact Or.inr (List.mem_cons_of_mem _ h)
      · rcases List.mem_cons.1 h with h | h
        · exact Or.inr (h ▸ List.mem_cons_self)
        · rcases ih h with h | h
          · exact Or.inl h
          · exact Or.inr (List.mem_cons_of_mem _ h)

theorem put_ascending (slot : Nat) (value : Int64) {l : List (Nat × Int64)}
    (hl : l.Pairwise fun a b => a.1 < b.1) :
    (put slot value l).Pairwise fun a b => a.1 < b.1 := by
  induction l with
  | nil => exact List.pairwise_singleton _ _
  | cons e rest ih =>
    rw [List.pairwise_cons] at hl
    simp only [put]
    split
    · rename_i hlt
      refine List.pairwise_cons.2 ⟨?_, List.pairwise_cons.2 hl⟩
      intro b hb
      rcases List.mem_cons.1 hb with rfl | hb
      · exact hlt
      · exact Nat.lt_trans hlt (hl.1 b hb)
    · split
      · rename_i heq
        refine List.pairwise_cons.2 ⟨?_, hl.2⟩
        intro b hb
        have := hl.1 b hb
        simp only; omega
      · refine List.pairwise_cons.2 ⟨?_, ih hl.2⟩
        intro b hb
        rcases mem_put hb with rfl | hb
        · simp only; omega
        · exact hl.1 b hb

/-- Name a value for the slot, in place of an earlier one. -/
def insert (m : SlotMap) (slot : Nat) (value : Int64) : SlotMap :=
  ⟨put slot value m.entries, put_ascending slot value m.ascending⟩

/-- The map that results from writing the entries one after the other. -/
def ofList (l : List (Nat × Int64)) : SlotMap :=
  l.foldl (fun m e => m.insert e.1 e.2) empty

/-- The entries that satisfy the condition. -/
def filter (m : SlotMap) (keep : Nat → Int64 → Bool) : SlotMap :=
  ⟨m.entries.filter fun e => keep e.1 e.2, m.ascending.filter _⟩

/-- Renumber the slots, dropping those without a new number.  Entries are written in ascending
    order of their old slots, so of two that meet in one slot the higher one stays. -/
def renumber (m : SlotMap) (slot? : Nat → Option Nat) : SlotMap :=
  ofList (m.entries.filterMap fun e => (slot? e.1).map fun s => (s, e.2))

end SlotMap

end BlockAutomata
