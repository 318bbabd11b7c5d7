/-
  Counting the blocks of the terrain.

  Only finitely many cells are not air (`mem_solid`).  The census takes their blocks together, each
  as often as it occurs.  A terrain has the blocks of another, moved about, if its solid cells can
  be matched with cells of the other one by one; what is left unmatched there is what is missing
  here (`census_add_of_matching`).
-/
import Mathlib.Data.Finset.Filter
import Mathlib.Data.Finset.Image
import BlockAutomata.Engine.Terrain

namespace BlockAutomata.Engine.Terrain

/-- The cells that are not air. -/
def solid (t : Terrain) : Finset Cell :=
  ((t.nonAir.filter fun e => e.2 ≠ air).map Prod.fst).toFinset

theorem mem_solid {t : Terrain} {p : Cell} : p ∈ t.solid ↔ t.block p ≠ air := by
  rw [solid, List.mem_toFinset, List.mem_map, block, Std.TreeMap.getD_eq_getD_getElem?]
  constructor
  · rintro ⟨⟨q, b⟩, he, rfl⟩
    obtain ⟨hmem, hb⟩ := List.mem_filter.1 he
    rw [Std.TreeMap.mem_toList_iff_getElem?_eq_some.1 hmem]
    exact of_decide_eq_true hb
  · intro hb
    cases hp : t.blocks[p]? with
    | none => rw [hp] at hb; exact absurd rfl hb
    | some b =>
      rw [hp] at hb
      exact ⟨(p, b), List.mem_filter.2
        ⟨Std.TreeMap.mem_toList_iff_getElem?_eq_some.2 hp, decide_eq_true hb⟩, rfl⟩

/-- The blocks of the cells that are not air, each as often as it occurs. -/
def census (t : Terrain) : Multiset Int64 := t.solid.val.map t.block

/-- Match each solid cell of one terrain with a solid cell of the other, in which the same block is,
    so that just the marked cells of the other one are left over.  Then the first terrain lacks the
    blocks of the marked cells. -/
theorem census_add_of_matching {t t' : Terrain} {marked : Cell → Bool}
    (source target : Cell → Cell)
    (hsource : ∀ p, t'.block p ≠ air →
      t'.block p = t.block (source p) ∧ marked (source p) = false ∧ target (source p) = p)
    (htarget : ∀ p, t.block p ≠ air → marked p = false →
      t'.block (target p) ≠ air ∧ source (target p) = p) :
    t'.census + (t.solid.val.filter fun p => marked p = true).map t.block = t.census := by
  have hmoved : t'.census = (t.solid.val.filter fun p => ¬ marked p = true).map t.block := by
    refine Multiset.map_eq_map_of_bij_of_nodup _ _ t'.solid.nodup (t.solid.nodup.filter _)
      (fun p _ => source p) ?_ ?_ ?_ ?_
    · intro p hp
      obtain ⟨hblock, hmarked, -⟩ := hsource p (mem_solid.1 hp)
      refine Multiset.mem_filter.2 ⟨mem_solid.2 ?_, by rw [hmarked]; exact Bool.false_ne_true⟩
      rw [← hblock]
      exact mem_solid.1 hp
    · intro p hp q hq heq
      rw [← (hsource p (mem_solid.1 hp)).2.2, ← (hsource q (mem_solid.1 hq)).2.2, heq]
    · intro p hp
      obtain ⟨hsolid, hmarked⟩ := Multiset.mem_filter.1 hp
      obtain ⟨hblock, hback⟩ := htarget p (mem_solid.1 hsolid) (Bool.eq_false_iff.2 hmarked)
      exact ⟨target p, mem_solid.2 hblock, hback⟩
    · exact fun p hp => (hsource p (mem_solid.1 hp)).1
  rw [hmoved, ← Multiset.map_add, Multiset.add_comm, Multiset.filter_add_not]
  rfl

end BlockAutomata.Engine.Terrain
