/-
  Tables that remember the order in which their keys came.

  1. A table is a list of entries no two of which have the same key.  A new key goes to the end; a
     key that is written again keeps its place.

  2. Removal is a swap: the last entry takes the place of the removed one.  This disturbs the order
     of the others as little as one move can, and the disturbed order is visible to whoever iterates
     over the table afterwards, so it is part of what the table is.

  3. The crux is `swapErase_perm`: up to order, swapping out is the same as dropping the entry.
     Distinctness of the keys and every statement about look-ups follow from it.
-/

namespace BlockAutomata

/-- A table from keys to values in order of first insertion. -/
structure OrderedMap (κ : Type) (ν : Type) where
  entries : List (κ × ν)
  nodup : (entries.map Prod.fst).Nodup

namespace OrderedMap

variable {κ ν : Type}

/-- The table without entries. -/
def empty : OrderedMap κ ν := ⟨[], List.nodup_nil⟩

instance : Inhabited (OrderedMap κ ν) := ⟨empty⟩

/-- Number of entries. -/
def size (m : OrderedMap κ ν) : Nat := m.entries.length

/-- Whether the table has no entry. -/
def isEmpty (m : OrderedMap κ ν) : Bool := m.entries.isEmpty

/-- The keys in order. -/
def keys (m : OrderedMap κ ν) : List κ := m.entries.map Prod.fst

/-- The values in order. -/
def values (m : OrderedMap κ ν) : List ν := m.entries.map Prod.snd

theorem keys_nodup (m : OrderedMap κ ν) : m.keys.Nodup := m.nodup

theorem length_keys (m : OrderedMap κ ν) : m.keys.length = m.size := List.length_map _

/-- The same keys with every value mapped. -/
def map {μ : Type} (m : OrderedMap κ ν) (f : κ → ν → μ) : OrderedMap κ μ where
  entries := m.entries.map fun e => (e.1, f e.1 e.2)
  nodup := by
    have h := m.nodup
    simpa [List.map_map, Function.comp_def] using h

variable [DecidableEq κ]

/-- The value stored under `k`. -/
def find? (m : OrderedMap κ ν) (k : κ) : Option ν := m.entries.lookup k

/-- Whether `k` has a value. -/
def contains (m : OrderedMap κ ν) (k : κ) : Bool := (m.find? k).isSome

theorem contains_iff_mem_keys {m : OrderedMap κ ν} {k : κ} : m.contains k = true ↔ k ∈ m.keys := by
  rw [contains, find?, List.lookup_isSome_iff, keys, List.mem_map]
  exact exists_congr fun e => and_congr_right' (beq_iff_eq.trans eq_comm)

/-! ## Writing -/

/-- Put `v` under `k` in a list of entries: in place when the key is there, else at the end. -/
def put (k : κ) (v : ν) : List (κ × ν) → List (κ × ν)
  | [] => [(k, v)]
  | e :: rest => if e.1 = k then (k, v) :: rest else e :: put k v rest

theorem keys_put (k : κ) (v : ν) (l : List (κ × ν)) :
    (put k v l).map Prod.fst =
      if k ∈ l.map Prod.fst then l.map Prod.fst else l.map Prod.fst ++ [k] := by
  induction l with
  | nil => simp [put]
  | cons e rest ih =>
    by_cases h : e.1 = k
    · simp [put, h]
    · have h' : ¬ k = e.1 := fun hk => h hk.symm
      simp only [put, h, if_false, List.map_cons, ih, List.mem_cons, h', false_or]
      split <;> simp

/-- Store `v` under `k`. -/
def insert (m : OrderedMap κ ν) (k : κ) (v : ν) : OrderedMap κ ν where
  entries := put k v m.entries
  nodup := by
    have h := m.nodup
    rw [keys_put]
    split
    · exact h
    · rename_i hk
      rw [List.nodup_append]
      refine ⟨h, List.pairwise_singleton _ _, ?_⟩
      intro a ha b hb hab
      simp only [List.mem_singleton] at hb
      subst hb; subst hab
      exact hk ha

theorem keys_insert (m : OrderedMap κ ν) (k : κ) (v : ν) :
    (m.insert k v).keys = if k ∈ m.keys then m.keys else m.keys ++ [k] :=
  keys_put k v m.entries

/-- A new key makes the table larger by one. -/
theorem size_insert {m : OrderedMap κ ν} {k : κ} (h : k ∉ m.keys) (v : ν) :
    (m.insert k v).size = m.size + 1 := by
  rw [← length_keys, keys_insert, if_neg h, List.length_append, List.length_singleton, length_keys]

/-- Apply `f` to the value under `k`, in a list of entries. -/
def adjust (k : κ) (f : ν → ν) : List (κ × ν) → List (κ × ν)
  | [] => []
  | (a, v) :: rest => if a = k then (a, f v) :: rest else (a, v) :: adjust k f rest

theorem keys_adjust (k : κ) (f : ν → ν) (l : List (κ × ν)) :
    (adjust k f l).map Prod.fst = l.map Prod.fst := by
  induction l with
  | nil => rfl
  | cons e rest ih =>
    obtain ⟨a, v⟩ := e
    by_cases h : a = k <;> simp [adjust, h, ih]

/-- Apply `f` to the value under `k`; nothing happens when there is none. -/
def modify (m : OrderedMap κ ν) (k : κ) (f : ν → ν) : OrderedMap κ ν where
  entries := adjust k f m.entries
  nodup := by rw [keys_adjust]; exact m.nodup

/-- Apply `f` to the value under `k`, in a list of entries, and return what else it gives. -/
def adjustGet {β : Type} (k : κ) (f : ν → β × ν) :
    List (κ × ν) → Option β × List (κ × ν)
  | [] => (none, [])
  | (a, v) :: rest =>
    if a = k then
      let (b, v) := f v
      (some b, (a, v) :: rest)
    else
      let (b, rest) := adjustGet k f rest
      (b, (a, v) :: rest)

theorem keys_adjustGet {β : Type} (k : κ) (f : ν → β × ν) (l : List (κ × ν)) :
    (adjustGet k f l).2.map Prod.fst = l.map Prod.fst := by
  induction l with
  | nil => rfl
  | cons e rest ih =>
    obtain ⟨a, v⟩ := e
    by_cases h : a = k <;> simp [adjustGet, h, ih]

/-- Apply `f` to the value under `k` and return what else it gives; nothing when there is none. -/
def modifyGet {β : Type} (m : OrderedMap κ ν) (k : κ) (f : ν → β × ν) :
    Option β × OrderedMap κ ν :=
  let r := adjustGet k f m.entries
  (r.1, ⟨r.2, by rw [keys_adjustGet]; exact m.nodup⟩)

/-- Apply `f` to the value under `k`, or to `fallback` when there is none. -/
def upsert (m : OrderedMap κ ν) (k : κ) (fallback : ν) (f : ν → ν) : OrderedMap κ ν :=
  if m.contains k then m.modify k f else m.insert k (f fallback)

/-- The table that results from storing the entries one after the other. -/
def ofList (l : List (κ × ν)) : OrderedMap κ ν :=
  l.foldl (fun m e => m.insert e.1 e.2) empty

/-! ## Swapping out -/

/-- Drop the entry of `k` from a list of entries; the last entry moves into its place. -/
def swapErase (k : κ) : List (κ × ν) → List (κ × ν)
  | [] => []
  | e :: rest =>
    if e.1 = k then
      match rest.getLast? with
      | none => []
      | some last => last :: rest.dropLast
    else e :: swapErase k rest

/-- Up to order, swapping out drops the first entry of the key and nothing else. -/
theorem swapErase_perm (k : κ) (l : List (κ × ν)) :
    (swapErase k l).Perm (l.eraseP fun e => e.1 = k) := by
  induction l with
  | nil => exact List.Perm.refl _
  | cons e rest ih =>
    by_cases h : e.1 = k
    · simp only [swapErase, h, if_true, List.eraseP_cons, decide_true, cond_true]
      cases hl : rest.getLast? with
      | none =>
        rw [List.getLast?_eq_none_iff] at hl
        simp [hl]
      | some last =>
        obtain ⟨pre, rfl⟩ := List.getLast?_eq_some_iff.1 hl
        simp only [List.dropLast_concat]
        exact (List.perm_append_singleton last pre).symm
    · simp only [swapErase, h, if_false, List.eraseP_cons, decide_false, cond_false]
      exact List.Perm.cons _ ih

/-- Drop the entry of `k`; the last entry moves into its place. -/
def swapRemove (m : OrderedMap κ ν) (k : κ) : OrderedMap κ ν where
  entries := swapErase k m.entries
  nodup := by
    have hp := (swapErase_perm k m.entries).map Prod.fst
    refine hp.nodup_iff.2 ?_
    exact List.Sublist.nodup ((List.eraseP_sublist).map Prod.fst) m.nodup

/-- Dropping a key that is there makes the table smaller by one. -/
theorem size_swapRemove {m : OrderedMap κ ν} {k : κ} (h : k ∈ m.keys) :
    (m.swapRemove k).size + 1 = m.size := by
  obtain ⟨e, he, hk⟩ := List.mem_map.1 h
  have hpos := List.length_pos_of_mem he
  have hperm := (swapErase_perm k m.entries).length_eq
  rw [List.length_eraseP_of_mem he (by simpa using hk)] at hperm
  show (swapErase k m.entries).length + 1 = m.entries.length
  omega

theorem mem_keys_of_swapRemove {m : OrderedMap κ ν} {k a : κ} (h : a ∈ (m.swapRemove k).keys) :
    a ∈ m.keys := by
  have hp := (swapErase_perm k m.entries).map Prod.fst
  have hs := (List.eraseP_sublist (p := fun e => e.1 = k) (l := m.entries)).map Prod.fst
  exact hs.subset (hp.mem_iff.1 h)

end OrderedMap

end BlockAutomata
