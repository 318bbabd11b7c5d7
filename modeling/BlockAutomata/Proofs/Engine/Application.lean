/-
  Applying an action.

  1. A world admits a request when its section has storage and its guard holds there.  Whether it
     does, what then is in the cell's channels (`attempted`), and whether that counts as a
     modification, depends on nothing but the channels of this one cell.

  2. A request that is not admitted is counted, and that is all (`apply_of_not_admits`).

  3. For everything that can be asked of a turn there is one equation that says what applying a
     request makes of it.  They come in three kinds: what belongs to the cell itself (`read_apply`,
     `block_apply`), what belongs to the woken cells (`channelsAt_apply`, `tracks_apply`), and what
     is written down (`events_apply`, `changes_apply`, `report_apply`).  All else stays as it is
     (`apply_frame`).
-/
import BlockAutomata.Proofs.Engine.Sections

namespace BlockAutomata.Engine

/-! ## The terrain -/

namespace Terrain

theorem block_put (t : Terrain) (p : Cell) (value : Int64) (q : Cell) :
    (t.put p value).block q = if q = p then value else t.block q := by
  unfold put block
  by_cases hv : value = air
  · by_cases hq : q = p
    · subst hq; simp [hv]
    · simp [hv, hq, Std.TreeMap.getD_erase, Ne.symm hq]
  · by_cases hq : q = p
    · subst hq; simp [hv]
    · simp [hv, hq, Std.TreeMap.getD_insert, Ne.symm hq]

theorem block_takeOver (t : Terrain) (p : Cell) (value : Int64) (q : Cell) :
    (t.takeOver p value).block q =
      if q = p ∧ t.isLoaded p.home = true then value else t.block q := by
  unfold takeOver
  cases t.isLoaded p.home with
  | false => simp
  | true => simp [block_put]

theorem isLoaded_takeOver (t : Terrain) (p : Cell) (value : Int64) (s : Section) :
    (t.takeOver p value).isLoaded s = t.isLoaded s := by
  unfold takeOver
  split <;> rfl

end Terrain

/-! ## Admission -/

namespace World

/-- Whether the request would be applied: its section has storage, and its guard holds. -/
def admits (w : World) (r : Request) : Bool :=
  (w.channelsAt r.cell.home).isSome && r.action.guardHolds (w.read r.cell)

/-- The channels of the cell once the request has been dealt with. -/
def attempted (w : World) (r : Request) : Nat → Int64 :=
  r.action.attempt ((w.channelsAt r.cell.home).getD 0) (w.read r.cell)

/-- Whether applying the request counts as a modification. -/
def modifiedBy (w : World) (r : Request) : Bool :=
  r.action.modifies ((w.channelsAt r.cell.home).getD 0) (w.read r.cell)

/-- A request that is not admitted leaves the channels of its cell as they are. -/
theorem attempted_of_not_admits {w : World} {r : Request} (h : w.admits r = false) :
    w.attempted r = w.read r.cell := by
  rw [admits, Bool.and_eq_false_iff] at h
  rw [attempted, Action.attempt]
  rcases h with h | h
  · rw [Option.isSome_eq_false_iff, Option.isNone_iff_eq_none] at h
    rw [h]
    simp
  · rw [h]
    rfl

/-- The world after the request has been written into its cell, before anybody is woken. -/
def rewritten (w : World) (r : Request) : World :=
  { w with
    sections := w.sections.modify r.cell.home fun s => (s.perform r.cell.index r.action).2
    terrain :=
      if w.attempted r 0 ≠ w.read r.cell 0 then w.terrain.takeOver r.cell (w.attempted r 0)
      else w.terrain
    events := w.events ++ (r.action.events.map fun e => ⟨w.tick, r.cell, e⟩).toArray }

theorem channelsAt_rewritten (w : World) (r : Request) (s : Section) :
    (w.rewritten r).channelsAt s = w.channelsAt s := by
  rw [channelsAt, rewritten, OrderedMap.find?_modify]
  by_cases h : s = r.cell.home
  · rw [if_pos h, h, Option.map_map, channelsAt]
    congr 1
    funext storage
    exact Storage.channels_perform storage _ _
  · rw [if_neg h, channelsAt]

theorem tracks_rewritten (w : World) (r : Request) (q : Cell) :
    (w.rewritten r).tracks q = w.tracks q := by
  rw [tracks, tracks, rewritten, OrderedMap.find?_modify]
  by_cases h : q.home = r.cell.home
  · rw [if_pos h, h]
    cases w.sections.find? r.cell.home with
    | none => rfl
    | some storage => simp only [Option.map_some, Storage.tracked_perform]
  · rw [if_neg h]

theorem isLoaded_rewritten (w : World) (r : Request) (s : Section) :
    (w.rewritten r).terrain.isLoaded s = w.terrain.isLoaded s := by
  unfold rewritten
  split
  · exact Terrain.isLoaded_takeOver _ _ _ _
  · rfl

theorem keeps_rewritten (w : World) (r : Request) (s : Section) :
    (w.rewritten r).keeps s = w.keeps s := by
  rw [keeps, keeps, channelsAt_rewritten, isLoaded_rewritten]

theorem block_rewritten (w : World) (r : Request) (q : Cell) :
    (w.rewritten r).terrain.block q =
      if q = r.cell ∧ w.terrain.isLoaded q.home = true ∧ w.attempted r 0 ≠ w.read q 0
      then w.attempted r 0 else w.terrain.block q := by
  unfold rewritten
  by_cases hq : q = r.cell
  · subst hq
    by_cases hb : w.attempted r 0 = w.read r.cell 0
    · simp [hb]
    · simp [hb, Terrain.block_takeOver]
  · split <;> simp [hq, Terrain.block_takeOver]

/-- The request is written into its cell, and nowhere else. -/
theorem read_rewritten (w : World) {r : Request} (h : (w.channelsAt r.cell.home).isSome = true)
    (q : Cell) (slot : Nat) :
    (w.rewritten r).read q slot = if q = r.cell then w.attempted r slot else w.read q slot := by
  obtain ⟨n, hn⟩ := Option.isSome_iff_exists.1 h
  obtain ⟨storage, hs, rfl⟩ := Option.map_eq_some_iff.1 hn
  by_cases hh : q.home = r.cell.home
  · have hafter : (w.rewritten r).sections.find? q.home =
        some (storage.perform r.cell.index r.action).2 := by
      rw [rewritten, OrderedMap.find?_modify, if_pos hh, hs]
      rfl
    have hqr : q.index = r.cell.index ↔ q = r.cell :=
      ⟨fun hi => Cell.eq_of_home_of_index hh hi, fun h => congrArg Cell.index h⟩
    have hown : w.read r.cell = storage.read r.cell.index := funext (read_of_find? hs)
    rw [← hh] at hs
    rw [read_of_find? hafter, Storage.read_perform _ r.cell.index_lt, attempted, hn, hown,
      read_of_find? hs]
    simp only [hqr, Option.getD_some]
  · have hne : q ≠ r.cell := fun h => hh (congrArg Cell.home h)
    rw [if_neg hne, read, read, readCell, readCell, block_rewritten, rewritten,
      OrderedMap.find?_modify, if_neg hh]
    simp only [hne, false_and, if_false]

end World

/-! ## What happens when a request is applied -/

namespace Turn

theorem foldl_raise (t : Turn) (p : Cell) (events : List Event) :
    events.foldl (fun t e => t.raise p e) t =
      { t with
        world :=
          { t.world with
            events := t.world.events ++ (events.map fun e => ⟨t.world.tick, p, e⟩).toArray }
        report := { t.report with events := t.report.events + events.length } } := by
  induction events generalizing t with
  | nil => simp
  | cons e rest ih =>
    rw [List.foldl_cons, ih, raise]
    simp [Nat.add_assoc, Nat.add_comm 1]

/-- The records after a request has been dealt with. -/
def changesAfter (t : Turn) (r : Request) : OrderedMap Section (Array Int64) :=
  if t.world.attempted r 0 ≠ t.world.read r.cell 0 then
    t.changes.upsert r.cell.home #[] fun records =>
      records.push (ChangeRecord.encode r.cell (t.world.attempted r 0))
  else t.changes

/-- A request that is not admitted is counted and has no other effect. -/
theorem apply_of_not_admits {t : Turn} {r : Request} (h : t.world.admits r = false) :
    t.apply r = (false, t.countStale) := by
  rw [World.admits, Bool.and_eq_false_iff, World.channelsAt, Option.isSome_map] at h
  have hkeep : (t.world.sections.modify r.cell.home fun s =>
      (s.perform r.cell.index r.action).2) = t.world.sections := by
    refine OrderedMap.modify_eq_self fun storage hs => ?_
    rcases h with h | h
    · rw [hs] at h; cases h
    · rw [funext (World.read_of_find? hs)] at h
      rw [Storage.perform_of_not_guardHolds h]
  unfold apply
  rw [OrderedMap.modifyGet_eq, hkeep]
  cases hs : t.world.sections.find? r.cell.home with
  | none => rfl
  | some storage =>
    rw [hs, funext (World.read_of_find? hs)] at h
    rcases h with h | h
    · cases h
    · simp only [Option.map_some, Storage.perform_of_not_guardHolds h]

/-- A request that is admitted is written, what it changes is passed on and counted, its events are
    raised, and its cells are woken. -/
theorem apply_of_admits {t : Turn} {r : Request} (h : t.world.admits r = true) :
    t.apply r =
      (true,
        { world := (t.world.rewritten r).wake r.cell r.action.wake
          changes := t.changesAfter r
          report :=
            { t.report with
              modified :=
                if t.world.modifiedBy r then t.report.modified + 1 else t.report.modified
              applied := t.report.applied + 1
              events := t.report.events + r.action.events.length } }) := by
  rw [World.admits, Bool.and_eq_true] at h
  obtain ⟨n, hn⟩ := Option.isSome_iff_exists.1 h.1
  obtain ⟨storage, hs, rfl⟩ := Option.map_eq_some_iff.1 hn
  have hown : t.world.read r.cell = storage.read r.cell.index := funext (World.read_of_find? hs)
  have hguard := h.2
  rw [hown] at hguard
  unfold apply
  rw [OrderedMap.modifyGet_eq, hs, Option.map_some, Storage.perform_fst _ r.cell.index_lt,
    if_pos hguard]
  simp only [follow, changesAfter, World.rewritten, World.attempted, World.modifiedBy, hn, hown,
    Option.getD_some, foldl_raise]
  split <;> rfl

variable (t : Turn) (r : Request)

theorem apply_fst : (t.apply r).1 = t.world.admits r := by
  cases h : t.world.admits r with
  | false => rw [apply_of_not_admits h]
  | true => rw [apply_of_admits h]

/-- The rule, the settings, the wheel, the placements and the time are not touched. -/
theorem apply_frame :
    (t.apply r).2.world =
      { t.world with
        sections := (t.apply r).2.world.sections
        terrain := (t.apply r).2.world.terrain
        events := (t.apply r).2.world.events } := by
  cases h : t.world.admits r with
  | false => rw [apply_of_not_admits h]; rfl
  | true => rw [apply_of_admits h, World.wake_eq]; rfl

theorem rule_apply : (t.apply r).2.world.rule = t.world.rule := by
  rw [apply_frame]

theorem isLoaded_apply (s : Section) :
    (t.apply r).2.world.terrain.isLoaded s = t.world.terrain.isLoaded s := by
  cases h : t.world.admits r with
  | false => rw [apply_of_not_admits h]; rfl
  | true =>
    rw [apply_of_admits h, World.wake_eq]
    exact World.isLoaded_rewritten _ _ _

/-- Only the channels of the cell itself change. -/
theorem read_apply (q : Cell) (slot : Nat) :
    (t.apply r).2.world.read q slot =
      if q = r.cell then t.world.attempted r slot else t.world.read q slot := by
  cases h : t.world.admits r with
  | false =>
    rw [apply_of_not_admits h, World.attempted_of_not_admits h]
    split
    · rename_i hq; rw [hq]; rfl
    · rfl
  | true =>
    rw [apply_of_admits h]
    rw [World.admits, Bool.and_eq_true] at h
    exact (World.read_wake _ _ _ _ _).trans (World.read_rewritten _ h.1 _ _)

/-- A changed block is passed on to the terrain of a loaded section. -/
theorem block_apply (q : Cell) :
    (t.apply r).2.world.terrain.block q =
      if q = r.cell ∧ t.world.terrain.isLoaded q.home = true ∧
        t.world.attempted r 0 ≠ t.world.read q 0
      then t.world.attempted r 0 else t.world.terrain.block q := by
  cases h : t.world.admits r with
  | false =>
    rw [apply_of_not_admits h, World.attempted_of_not_admits h, if_neg]
    · rfl
    · rintro ⟨rfl, -, hne⟩
      exact hne rfl
  | true =>
    rw [apply_of_admits h, World.wake_eq]
    exact World.block_rewritten _ _ _

/-- No batch is passed on before the end of a step. -/
theorem batches_apply : (t.apply r).2.world.terrain.batches = t.world.terrain.batches := by
  cases h : t.world.admits r with
  | false => rw [apply_of_not_admits h]; rfl
  | true =>
    rw [apply_of_admits h, World.wake_eq]
    show (World.rewritten _ r).terrain.batches = _
    unfold World.rewritten Terrain.takeOver
    split
    · split <;> rfl
    · rfl

/-- Storage comes into being in the loaded sections of woken cells. -/
theorem channelsAt_apply (a : Section) :
    (t.apply r).2.world.channelsAt a =
      if t.world.channelsAt a = none ∧ t.world.terrain.isLoaded a = true ∧
        t.world.admits r = true ∧ ∃ o ∈ r.action.wake, (r.cell.move o).home = a
      then some (max t.world.rule.channels 1) else t.world.channelsAt a := by
  cases h : t.world.admits r with
  | false =>
    rw [apply_of_not_admits h, if_neg]
    · rfl
    · rintro ⟨-, -, hf, -⟩
      cases hf
  | true =>
    rw [apply_of_admits h]
    show ((t.world.rewritten r).wake r.cell r.action.wake).channelsAt a = _
    simp only [World.channelsAt_wake, World.channelsAt_rewritten, World.isLoaded_rewritten,
      true_and]
    rfl

theorem keeps_apply (a : Section) : (t.apply r).2.world.keeps a = t.world.keeps a := by
  rw [World.keeps, World.keeps, channelsAt_apply, isLoaded_apply]
  split
  · rename_i h
    rw [h.2.1, Bool.or_true, Bool.or_true]
  · rfl

/-- The woken cells are tracked. -/
theorem tracks_apply (q : Cell) :
    (t.apply r).2.world.tracks q = true ↔
      t.world.tracks q = true ∨
        (t.world.admits r = true ∧ t.world.keeps q.home = true ∧
          ∃ o ∈ r.action.wake, r.cell.move o = q) := by
  cases h : t.world.admits r with
  | false =>
    rw [apply_of_not_admits h]
    constructor
    · exact Or.inl
    · rintro (hq | ⟨hf, -⟩)
      · exact hq
      · cases hf
  | true =>
    rw [apply_of_admits h]
    show ((t.world.rewritten r).wake r.cell r.action.wake).tracks q = true ↔ _
    simp only [World.tracks_wake, World.tracks_rewritten, World.keeps_rewritten, true_and]

/-- The events of an applied action are raised at its cell. -/
theorem events_apply :
    (t.apply r).2.world.events.toList =
      t.world.events.toList ++
        if t.world.admits r then r.action.events.map fun e => ⟨t.world.tick, r.cell, e⟩
        else [] := by
  cases h : t.world.admits r with
  | false => rw [apply_of_not_admits h]; simp [countStale]
  | true => rw [apply_of_admits h, World.wake_eq]; simp [World.rewritten]

/-- A changed block is recorded. -/
theorem changes_apply : (t.apply r).2.changes = t.changesAfter r := by
  cases h : t.world.admits r with
  | false =>
    rw [apply_of_not_admits h, changesAfter, World.attempted_of_not_admits h]
    simp [countStale]
  | true => rw [apply_of_admits h]

theorem contains_changes_apply (s : Section) :
    (t.apply r).2.changes.contains s =
      (t.changes.contains s ||
        decide (s = r.cell.home ∧ t.world.attempted r 0 ≠ t.world.read r.cell 0)) := by
  rw [changes_apply, changesAfter, OrderedMap.contains, OrderedMap.contains]
  by_cases hb : t.world.attempted r 0 ≠ t.world.read r.cell 0
  · rw [if_pos hb, OrderedMap.find?_upsert]
    by_cases hs : s = r.cell.home
    · simp [hs, hb]
    · simp [hs]
  · rw [if_neg hb]
    simp [hb]

/-- The records of a section so far. -/
def recordsIn (t : Turn) (s : Section) : List Int64 := ((t.changes.find? s).getD #[]).toList

theorem recordsIn_apply (s : Section) :
    (t.apply r).2.recordsIn s =
      if s = r.cell.home ∧ t.world.attempted r 0 ≠ t.world.read r.cell 0
      then t.recordsIn s ++ [ChangeRecord.encode r.cell (t.world.attempted r 0)]
      else t.recordsIn s := by
  rw [recordsIn, changes_apply, changesAfter]
  by_cases hb : t.world.attempted r 0 ≠ t.world.read r.cell 0
  · rw [if_pos hb, OrderedMap.find?_upsert]
    by_cases hs : s = r.cell.home
    · rw [if_pos hs, if_pos ⟨hs, hb⟩, hs]
      exact Array.toList_push
    · rw [if_neg hs, if_neg fun h => hs h.1, recordsIn]
  · rw [if_neg hb, if_neg fun h => hb h.2, recordsIn]

/-- An application is counted with what came of it; everything else is stale. -/
theorem report_apply :
    (t.apply r).2.report =
      if t.world.admits r then
        { t.report with
          modified := if t.world.modifiedBy r then t.report.modified + 1 else t.report.modified
          applied := t.report.applied + 1
          events := t.report.events + r.action.events.length }
      else { t.report with stale := t.report.stale + 1 } := by
  cases h : t.world.admits r with
  | false => rw [apply_of_not_admits h]; rfl
  | true => rw [apply_of_admits h]; rfl

/-- What comes of a request is counted in four places. -/
theorem report_apply_frame :
    (t.apply r).2.report =
      { t.report with
        modified := (t.apply r).2.report.modified
        applied := (t.apply r).2.report.applied
        stale := (t.apply r).2.report.stale
        events := (t.apply r).2.report.events } := by
  rw [report_apply]
  split <;> rfl

end Turn

end BlockAutomata.Engine
