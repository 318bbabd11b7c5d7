/-
  Which block a name stands for.

  1. A name may have the namespace in front of it.  Looking a name up takes the namespace off, once
     (`plainName_append`, `plainName_of_bare`); the names that blocks declare stay as they are.

  2. The names of a palette are distinct, so a name finds the one block that declares what is left
     of it (`find?_eq_some_iff`).

  3. Hence each block is found by its declared name with the namespace in front.  By the declared
     name itself it is found just if this does not begin with the namespace: from a name that does,
     the look-up would take off what belongs to it (`found_by_name`).
-/
import BlockAutomata.Proofs.Palette.Lenses
import BlockAutomata.Proofs.Palette.Partition
import Mathlib.Data.List.Nodup

namespace BlockAutomata.Palette

/-! ## The namespace -/

/-- The name begins with the namespace. -/
def InNamespace (name : String) : Prop := ∃ rest, name = "minecraft:" ++ rest

/-- The characters begin with those of another text if the text does. -/
theorem isPrefixOf_toList_iff {first name : String} :
    first.toList.isPrefixOf name.toList = true ↔ ∃ rest, name = first ++ rest := by
  rw [List.isPrefixOf_iff_prefix]
  constructor
  · rintro ⟨rest, hrest⟩
    refine ⟨String.ofList rest, String.toList_inj.1 ?_⟩
    rw [String.toList_append, String.toList_ofList, hrest]
  · rintro ⟨rest, rfl⟩
    exact ⟨rest.toList, String.toList_append.symm⟩

theorem plainName_eq (name : String) :
    plainName name =
      if "minecraft:".toList.isPrefixOf name.toList then
        String.ofList (name.toList.drop "minecraft:".toList.length)
      else name := rfl

/-- The namespace is taken off. -/
theorem plainName_append (name : String) : plainName ("minecraft:" ++ name) = name := by
  rw [plainName_eq, if_pos (isPrefixOf_toList_iff.2 ⟨name, rfl⟩), String.toList_append,
    List.drop_left, String.ofList_toList]

/-- A name without the namespace stays as it is. -/
theorem plainName_of_bare {name : String} (h : ¬ InNamespace name) : plainName name = name := by
  rw [plainName_eq, if_neg (mt isPrefixOf_toList_iff.1 h)]

/-- A name with the namespace does not stay as it is. -/
theorem plainName_ne {name : String} (h : InNamespace name) : plainName name ≠ name := by
  obtain ⟨rest, rfl⟩ := h
  rw [plainName_append]
  intro heq
  have hlength := congrArg (fun s => s.toList.length) heq
  rw [String.toList_append, List.length_append] at hlength
  have hpos : 0 < "minecraft:".toList.length := by decide
  omega

/-! ## Looking up -/

section

variable {blocks : List Block} {p : Palette} {e f : Entry} {name : String} {s : Int64}

/-- A palette has one entry for each name. -/
theorem eq_of_name_eq (h : ofBlocks blocks = .ok p) (he : e ∈ p.entries) (hf : f ∈ p.entries)
    (hname : e.block.name = f.block.name) : e = f := by
  have hnodup := (exists_ofBlocks_eq_ok_iff.1 ⟨p, h⟩).2.2
  rw [← (isPartition_of_ofBlocks h).inOrder, List.map_map] at hnodup
  exact List.inj_on_of_nodup_map hnodup he hf hname

/-- A name finds the block that declares it without its namespace. -/
theorem find?_eq_some_iff (h : ofBlocks blocks = .ok p) :
    p.find? name = some s ↔
      ∃ e ∈ p.entries, e.block.name = plainName name ∧ s = Int64.ofNat e.first := by
  unfold find?
  rw [Option.map_eq_some_iff]
  constructor
  · rintro ⟨e, he, rfl⟩
    exact ⟨e, List.mem_of_find?_eq_some he, by simpa using List.find?_some he, rfl⟩
  · rintro ⟨e, he, hname, rfl⟩
    -- the entry that is found has the same name, and so is the same
    cases hfind : p.entries.find? fun e => e.block.name = plainName name with
    | none => exact absurd hname (by simpa using List.find?_eq_none.1 hfind e he)
    | some f =>
      have hf : f.block.name = plainName name := by simpa using List.find?_some hfind
      rw [eq_of_name_eq h (List.mem_of_find?_eq_some hfind) he (hf.trans hname.symm)]
      exact ⟨e, rfl, rfl⟩

theorem size_pos_of_mem (h : ofBlocks blocks = .ok p) (he : e ∈ p.entries) : 0 < e.block.size := by
  refine size_pos_iff.2 ((exists_ofBlocks_eq_ok_iff.1 ⟨p, h⟩).2.1 e.block ?_)
  rw [← (isPartition_of_ofBlocks h).inOrder]
  exact List.mem_map_of_mem he

/-- The first number of a block is its first state. -/
theorem isNth_first (h : ofBlocks blocks = .ok p) (hfits : p.size < 2 ^ 63) (he : e ∈ p.entries) :
    p.IsNth (Int64.ofNat e.first) e 0 := by
  have hpos := size_pos_of_mem h he
  obtain rfl := eq_of_ofBlocks h
  exact isNth_nth hfits he hpos

theorem IsNth.name? (h : (assign blocks).IsNth s e n) :
    (assign blocks).name? s = some e.block.name := by
  rw [Palette.name?, h.block?]
  rfl

/-- The first numbers of two blocks differ. -/
theorem eq_of_first_eq (h : ofBlocks blocks = .ok p) (hfits : p.size < 2 ^ 63)
    (he : e ∈ p.entries) (hf : f ∈ p.entries)
    (hfirst : Int64.ofNat e.first = Int64.ofNat f.first) : e = f := by
  have hse := isNth_first h hfits he
  have hsf := isNth_first h hfits hf
  rw [← hfirst] at hsf
  obtain rfl := eq_of_ofBlocks h
  exact Option.some.inj (hse.owner?.symm.trans hsf.owner?)

/-- As long as the numbers are of 64 bits, the first number of each block has the declared name of
    the block, and is found by it with the namespace in front.  By the declared name itself it is
    found just if this does not begin with the namespace.  What a name finds is called by it, or by
    what follows the namespace in it. -/
theorem found_by_name (h : ofBlocks blocks = .ok p) (hfits : p.size < 2 ^ 63) :
    (∀ e ∈ p.entries,
      p.name? (Int64.ofNat e.first) = some e.block.name ∧
        p.find? ("minecraft:" ++ e.block.name) = some (Int64.ofNat e.first) ∧
        (p.find? e.block.name = some (Int64.ofNat e.first) ↔ ¬ InNamespace e.block.name)) ∧
      ∀ name s, p.find? name = some s →
        ∃ declared, p.name? s = some declared ∧
          ((declared = name ∧ ¬ InNamespace name) ∨ "minecraft:" ++ declared = name) := by
  have hname : ∀ e ∈ p.entries, p.name? (Int64.ofNat e.first) = some e.block.name := by
    intro e he
    have hfirst := isNth_first h hfits he
    obtain rfl := eq_of_ofBlocks h
    exact hfirst.name?
  refine ⟨fun e he => ⟨hname e he, ?_, ?_⟩, fun name s hs => ?_⟩
  · exact (find?_eq_some_iff h).2 ⟨e, he, (plainName_append _).symm, rfl⟩
  · rw [find?_eq_some_iff h]
    constructor
    · rintro ⟨f, hf, hplain, hfirst⟩ hin
      -- the block that is found is this one, whose name would have lost the namespace
      obtain rfl := eq_of_first_eq h hfits he hf hfirst
      exact plainName_ne hin hplain.symm
    · exact fun hbare => ⟨e, he, (plainName_of_bare hbare).symm, rfl⟩
  · obtain ⟨e, he, hplain, rfl⟩ := (find?_eq_some_iff h).1 hs
    refine ⟨e.block.name, hname e he, ?_⟩
    by_cases hin : InNamespace name
    · obtain ⟨rest, rfl⟩ := hin
      rw [plainName_append] at hplain
      exact .inr (congrArg _ hplain)
    · rw [plainName_of_bare hin] at hplain
      exact .inl ⟨hplain, hin⟩

/-- Air, and a stone that is declared with the namespace. -/
def namespacedStone : List Block := [⟨"air", []⟩, ⟨"minecraft:stone", []⟩]

/-- The stone has the name it is declared with, and is found by the namespace in front of that. -/
theorem found_by_name_namespacedStone :
    ∃ p, ofBlocks namespacedStone = .ok p ∧ p.size < 2 ^ 63 ∧
      p.name? 1 = some "minecraft:stone" ∧ p.find? "minecraft:minecraft:stone" = some 1 ∧
      p.find? "minecraft:stone" ≠ some 1 ∧ p.find? "minecraft:air" = some 0 := by
  have hp : ofBlocks namespacedStone = .ok (assign namespacedStone) := by rfl
  have hstone : (⟨⟨"minecraft:stone", []⟩, 1⟩ : Entry) ∈ (assign namespacedStone).entries := by
    decide
  have hair : (⟨⟨"air", []⟩, 0⟩ : Entry) ∈ (assign namespacedStone).entries := by decide
  obtain ⟨hfound, -⟩ := found_by_name hp (by decide)
  obtain ⟨hname, hprefixed, hdeclared⟩ := hfound _ hstone
  refine ⟨_, hp, by decide, hname, hprefixed, fun hsome => ?_, (hfound _ hair).2.1⟩
  exact hdeclared.1 hsome ⟨"stone", rfl⟩

/-- The stone that is declared with the namespace is not found by its declared name, nor without the
    namespace. -/
theorem exists_not_found_by_name :
    ∃ p, ofBlocks namespacedStone = .ok p ∧ p.name? 1 = some "minecraft:stone" ∧
      p.find? "minecraft:stone" = none ∧ p.find? "stone" = none :=
  ⟨assign namespacedStone, rfl, by decide, by decide, by decide⟩

end

end BlockAutomata.Palette
