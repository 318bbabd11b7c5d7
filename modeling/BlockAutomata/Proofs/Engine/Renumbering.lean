/-
  Slots are renumbered by name.

  1. A slot of the old rule and a slot of the new one are the same channel when both are the block,
     or when both rules have the same name there (`SameChannel`).  Storage is laid out along this
     relation, looking for the old slot of a new one, and requests are renumbered along it in the
     other direction.  Distinct names make it one-to-one, so the two agree
     (`sourceSlots_eq_some_iff`, `newSlot?_eq_some_iff`).

  2. Renumbering a map one-to-one moves every value and loses none but those without a new slot
     (`get?_renumber`).

  3. A request is carried over unless its guard names a slot that is no channel of the new rule
     (`forall₂_filterMap_renumberRequest`).  Between rules with the same names nothing changes in a
     request that names channels only (`CarriedOver.eq_of_namesChannels`).
-/
import Mathlib.Data.List.Forall2
import Mathlib.Data.List.Nodup
import BlockAutomata.Engine.Replacement
import BlockAutomata.Proofs.Tables

namespace BlockAutomata

/-! ## Maps -/

namespace SlotMap

/-- Maps that name the same values are the same. -/
theorem ext_get? {m m' : SlotMap} (h : ∀ slot, m.get? slot = m'.get? slot) : m = m' := by
  have hperm : m.entries.Perm m'.entries := by
    refine (List.perm_ext_iff_of_nodup m.slots_nodup.of_map m'.slots_nodup.of_map).2 ?_
    rintro ⟨slot, v⟩
    rw [← get?_eq_some_iff, ← get?_eq_some_iff, h]
  have hentries : m.entries = m'.entries :=
    hperm.eq_of_pairwise (fun a b _ _ hab hba => absurd hab (Nat.lt_asymm hba)) m.ascending
      m'.ascending
  rcases m with ⟨l, hl⟩
  rcases m' with ⟨l', hl'⟩
  obtain rfl : l = l' := hentries
  rfl

/-- Of entries with distinct slots, all are there once they have been written. -/
theorem get?_ofList {l : List (Nat × Int64)} (hn : (l.map Prod.fst).Nodup) {slot : Nat}
    {v : Int64} : (ofList l).get? slot = some v ↔ (slot, v) ∈ l := by
  have hfold : ∀ (l : List (Nat × Int64)) (m : SlotMap), (l.map Prod.fst).Nodup →
      ((l.foldl (fun m e => m.insert e.1 e.2) m).get? slot = some v ↔
        (slot, v) ∈ l ∨ (slot ∉ l.map Prod.fst ∧ m.get? slot = some v)) := by
    intro l
    induction l with
    | nil => simp
    | cons e rest ih =>
      intro m hn
      obtain ⟨a, x⟩ := e
      rw [List.map_cons, List.nodup_cons] at hn
      rw [List.foldl_cons, ih _ hn.2, get?_insert]
      by_cases hslot : slot = a
      · subst hslot
        have hrest : (slot, v) ∉ rest := fun hc => hn.1 (List.mem_map.2 ⟨_, hc, rfl⟩)
        simp [hn.1, hrest, eq_comm]
      · simp [hslot]
  rw [ofList, hfold l empty hn]
  simp

/-- A value is found in its new slot, if no two slots get the same one. -/
theorem get?_renumber (m : SlotMap) {slot? : Nat → Option Nat}
    (hinj : ∀ a b c, slot? a = some c → slot? b = some c → a = b) {c : Nat} {v : Int64} :
    (m.renumber slot?).get? c = some v ↔ ∃ a, slot? a = some c ∧ m.get? a = some v := by
  have hslots : (m.entries.filterMap fun e => (slot? e.1).map fun s => (s, e.2)).map Prod.fst =
      (m.entries.map Prod.fst).filterMap slot? := by
    rw [List.map_filterMap, List.filterMap_map]
    congr 1
    funext e
    show Option.map _ (Option.map _ _) = slot? e.1
    cases slot? e.1 <;> rfl
  have hnodup := m.slots_nodup.filterMap fun a b c ha hb => hinj a b c ha hb
  rw [← hslots] at hnodup
  rw [renumber, get?_ofList hnodup, List.mem_filterMap]
  constructor
  · rintro ⟨⟨a, x⟩, he, hc⟩
    obtain ⟨c', hc', heq⟩ := Option.map_eq_some_iff.1 hc
    cases heq
    exact ⟨a, hc', get?_eq_some_iff.2 he⟩
  · rintro ⟨a, ha, hv⟩
    exact ⟨(a, v), get?_eq_some_iff.1 hv, by rw [ha]; rfl⟩

end SlotMap

namespace Engine

/-! ## The same channel of two rules -/

/-- The first slot under the old rule and the second under the new one are the same channel: the
    block, or one that both rules know by the same name. -/
inductive SameChannel (old new : LocalRule) : Nat → Nat → Prop where
  | block : SameChannel old new 0 0
  | named {i j : Nat} {name : String} (hold : old.names[i]? = some name)
      (hnew : new.names[j]? = some name) : SameChannel old new (i + 1) (j + 1)

variable {old new : LocalRule}

/-- Among distinct names, a name is found where it stands. -/
theorem slot?_eq_some_iff {rule : LocalRule} (h : rule.names.Nodup) {name : String} {i : Nat} :
    rule.slot? name = some (i + 1) ↔ rule.names[i]? = some name := by
  have hslot : rule.slot? name = some (i + 1) ↔ rule.names.idxOf? name = some i := by
    rw [LocalRule.slot?, Option.map_eq_some_iff]
    simp
  rw [hslot, List.idxOf?_eq_some_iff]
  constructor
  · rintro ⟨hi, rfl, -⟩
    exact List.getElem?_eq_getElem hi
  · intro hi
    obtain ⟨hlt, rfl⟩ := List.getElem?_eq_some_iff.1 hi
    refine ⟨hlt, rfl, fun j hj heq => ?_⟩
    exact Nat.ne_of_lt hj ((List.Nodup.getElem_inj_iff h).1 heq)

/-- A position is the only one of its name. -/
theorem eq_of_getElem?_names {rule : LocalRule} (h : rule.names.Nodup) {name : String} {i j : Nat}
    (hi : rule.names[i]? = some name) (hj : rule.names[j]? = some name) : i = j := by
  rw [← slot?_eq_some_iff h] at hi hj
  rw [hi] at hj
  exact Nat.succ.inj (Option.some.inj hj)

theorem SameChannel.eq_of_source (h : new.names.Nodup) {slot a b : Nat}
    (ha : SameChannel old new slot a) (hb : SameChannel old new slot b) : a = b := by
  cases ha with
  | block => cases hb; rfl
  | named hold hnew =>
    cases hb with
    | named hold' hnew' =>
      obtain rfl := Option.some.inj (hold.symm.trans hold')
      rw [eq_of_getElem?_names h hnew hnew']

theorem SameChannel.eq_of_target (h : old.names.Nodup) {slot a b : Nat}
    (ha : SameChannel old new a slot) (hb : SameChannel old new b slot) : a = b := by
  cases ha with
  | block => cases hb; rfl
  | named hold hnew =>
    cases hb with
    | named hold' hnew' =>
      obtain rfl := Option.some.inj (hnew.symm.trans hnew')
      rw [eq_of_getElem?_names h hold hold']

/-- Between rules with the same distinct names, each channel is the same as itself only. -/
theorem sameChannel_iff_of_names_eq (hnames : new.names = old.names) (h : old.names.Nodup)
    {slot slot' : Nat} :
    SameChannel old new slot slot' ↔ slot = slot' ∧ slot ≤ old.names.length := by
  constructor
  · rintro (_ | ⟨hold, hnew⟩)
    · exact ⟨rfl, Nat.zero_le _⟩
    · rw [hnames] at hnew
      exact ⟨congrArg (· + 1) (eq_of_getElem?_names h hold hnew),
        (List.getElem?_eq_some_iff.1 hold).1⟩
  · rintro ⟨rfl, hle⟩
    cases slot with
    | zero => exact SameChannel.block
    | succ i =>
      have hi := List.getElem?_eq_getElem hle
      exact SameChannel.named hi (by rw [hnames]; exact hi)

/-- The layout looks for the source of a new slot. -/
theorem sourceSlots_eq_some_iff (h : old.names.Nodup) {slot slot' : Nat} :
    (sourceSlots old new)[slot']? = some (some slot) ↔ SameChannel old new slot slot' := by
  cases slot' with
  | zero =>
    constructor
    · intro hs
      obtain rfl : 0 = slot := Option.some.inj (Option.some.inj hs)
      exact SameChannel.block
    · rintro ⟨⟩
      rfl
  | succ j =>
    rw [sourceSlots, List.getElem?_cons_succ, List.getElem?_map, Option.map_eq_some_iff]
    constructor
    · rintro ⟨name, hname, hslot⟩
      cases slot with
      | zero =>
        obtain ⟨i, -, hi⟩ := Option.map_eq_some_iff.1 hslot
        cases hi
      | succ i => exact SameChannel.named ((slot?_eq_some_iff h).1 hslot) hname
    · rintro (_ | ⟨hold, hnew⟩)
      exact ⟨_, hnew, (slot?_eq_some_iff h).2 hold⟩

/-- Renumbering follows the layout backwards. -/
theorem newSlot?_eq_some_iff (hold : old.names.Nodup) (hnew : new.names.Nodup)
    {slot slot' : Nat} :
    newSlot? (sourceSlots old new) slot = some slot' ↔ SameChannel old new slot slot' := by
  have hmem : ∀ j, (some slot, j) ∈ (sourceSlots old new).zipIdx.reverse ↔
      SameChannel old new slot j := by
    intro j
    rw [List.mem_reverse, List.mem_zipIdx_iff_getElem?]
    exact sourceSlots_eq_some_iff hold
  rw [newSlot?]
  constructor
  · intro h
    obtain ⟨⟨source, j⟩, he, rfl⟩ := Option.map_eq_some_iff.1 h
    obtain rfl : source = some slot := by simpa using List.find?_some he
    exact (hmem j).1 (List.mem_of_find?_eq_some he)
  · intro h
    cases hfind : (sourceSlots old new).zipIdx.reverse.find? fun e => e.1 == some slot with
    | none =>
      have hno := List.find?_eq_none.1 hfind _ ((hmem slot').2 h)
      simp at hno
    | some e =>
      obtain ⟨source, j⟩ := e
      obtain rfl : source = some slot := by simpa using List.find?_some hfind
      have hj := (hmem j).1 (List.mem_of_find?_eq_some hfind)
      exact congrArg some (hj.eq_of_source hnew h)

/-! ## Requests that are carried over -/

/-- Whether the slot is a channel of the new rule, too. -/
def survives (old new : LocalRule) : Nat → Bool
  | 0 => true
  | i + 1 => (old.names[i]?).any new.names.contains

theorem survives_iff {slot : Nat} :
    survives old new slot = true ↔ ∃ slot', SameChannel old new slot slot' := by
  cases slot with
  | zero => exact ⟨fun _ => ⟨0, SameChannel.block⟩, fun _ => rfl⟩
  | succ i =>
    rw [survives, Option.any_eq_true]
    constructor
    · rintro ⟨name, hname, hmem⟩
      obtain ⟨j, hj⟩ := List.mem_iff_getElem?.1 (List.contains_iff_mem.1 hmem)
      exact ⟨j + 1, SameChannel.named hname hj⟩
    · rintro ⟨_, _ | ⟨hold, hnew⟩⟩
      exact ⟨_, hold, List.contains_iff_mem.2 (List.mem_of_getElem? hnew)⟩

/-- Whether the guard of the request, if it has one, names surviving channels only. -/
def guardSurvives (old new : LocalRule) (r : Request) : Bool :=
  match r.action.guard with
  | none => true
  | some guard => guard.entries.all fun e => survives old new e.1

/-- The second map has the values of the first one, each at the same channel, as far as the channel
    survives. -/
def MovedTo (old new : LocalRule) (m m' : SlotMap) : Prop :=
  ∀ slot' v, m'.get? slot' = some v ↔
    ∃ slot, SameChannel old new slot slot' ∧ m.get? slot = some v

/-- The second request is the first one with the slots of writes and guard moved. -/
structure CarriedOver (old new : LocalRule) (r r' : Request) : Prop where
  frame : r' = { r with
    action := { r.action with writes := r'.action.writes, guard := r'.action.guard } }
  writes : MovedTo old new r.action.writes r'.action.writes
  guard : Option.Rel (MovedTo old new) r.action.guard r'.action.guard

section

variable (hold : old.names.Nodup) (hnew : new.names.Nodup)
include hold hnew

theorem movedTo_renumber (m : SlotMap) :
    MovedTo old new m (m.renumber (newSlot? (sourceSlots old new))) := by
  intro slot' v
  have hinj : ∀ a b c, newSlot? (sourceSlots old new) a = some c →
      newSlot? (sourceSlots old new) b = some c → a = b := by
    intro a b c ha hb
    rw [newSlot?_eq_some_iff hold hnew] at ha hb
    exact ha.eq_of_target hold hb
  rw [SlotMap.get?_renumber m hinj]
  simp only [newSlot?_eq_some_iff hold hnew]

theorem isSome_newSlot? (slot : Nat) :
    (newSlot? (sourceSlots old new) slot).isSome = survives old new slot := by
  rw [Bool.eq_iff_iff, survives_iff, Option.isSome_iff_exists]
  simp only [newSlot?_eq_some_iff hold hnew]

/-- A request is carried over, or dropped when its guard does not survive. -/
theorem renumberRequest_spec (r : Request) :
    if guardSurvives old new r then
      ∃ r', renumberRequest (newSlot? (sourceSlots old new)) r = some r' ∧ CarriedOver old new r r'
    else renumberRequest (newSlot? (sourceSlots old new)) r = none := by
  have hmoved := movedTo_renumber hold hnew
  obtain ⟨p, a⟩ := r
  unfold renumberRequest renumberAction guardSurvives
  cases hguard : a.guard with
  | none =>
    refine ⟨_, rfl, rfl, hmoved _, ?_⟩
    show Option.Rel _ a.guard none
    rw [hguard]
    exact Option.Rel.none
  | some guard =>
    simp only [isSome_newSlot? hold hnew]
    cases guard.entries.all fun e => survives old new e.1 with
    | false => rfl
    | true =>
      refine ⟨_, rfl, rfl, hmoved _, ?_⟩
      show Option.Rel _ a.guard _
      rw [hguard]
      exact Option.Rel.some (hmoved guard)

/-- Of a list of requests, those whose guards survive are carried over in order. -/
theorem forall₂_filterMap_renumberRequest (l : List Request) :
    List.Forall₂ (CarriedOver old new) (l.filter (guardSurvives old new))
      (l.filterMap (renumberRequest (newSlot? (sourceSlots old new)))) := by
  induction l with
  | nil => exact List.Forall₂.nil
  | cons r rest ih =>
    have hr := renumberRequest_spec hold hnew r
    split at hr
    · rename_i hkept
      obtain ⟨r', hr', hcarried⟩ := hr
      rw [List.filter_cons_of_pos hkept, List.filterMap_cons_some hr']
      exact List.Forall₂.cons hcarried ih
    · rename_i hdropped
      rw [List.filter_cons_of_neg hdropped, List.filterMap_cons_none hr]
      exact ih

end

/-! ## Rules with the same names -/

/-- Whether the request names no slot but channels of the rule. -/
def NamesChannels (rule : LocalRule) (r : Request) : Prop :=
  ∀ slot, ((r.action.writes.get? slot).isSome ∨
    ∃ guard, r.action.guard = some guard ∧ (guard.get? slot).isSome) →
      slot ≤ rule.names.length

section

variable (hnames : new.names = old.names) (h : old.names.Nodup)
include hnames h

theorem MovedTo.eq_of_names_eq {m m' : SlotMap} (hmoved : MovedTo old new m m')
    (hslots : ∀ slot, (m.get? slot).isSome → slot ≤ old.names.length) : m' = m := by
  refine SlotMap.ext_get? fun slot => Option.ext fun v => ?_
  rw [hmoved]
  simp only [sameChannel_iff_of_names_eq hnames h]
  constructor
  · rintro ⟨_, ⟨rfl, -⟩, hv⟩
    exact hv
  · intro hv
    exact ⟨slot, ⟨rfl, hslots slot (by rw [hv]; rfl)⟩, hv⟩

/-- A request that names channels only does not change. -/
theorem CarriedOver.eq_of_namesChannels {r r' : Request} (hr : CarriedOver old new r r')
    (hnamed : NamesChannels old r) : r' = r := by
  have hwrites := hr.writes.eq_of_names_eq hnames h fun slot hs => hnamed slot (Or.inl hs)
  have hguard : r'.action.guard = r.action.guard := by
    generalize hg : r.action.guard = g, hg' : r'.action.guard = g'
    have hrel := hr.guard
    rw [hg, hg'] at hrel
    cases hrel with
    | none => rfl
    | some hmoved =>
      refine congrArg some (hmoved.eq_of_names_eq hnames h fun slot hs => ?_)
      exact hnamed slot (Or.inr ⟨_, hg, hs⟩)
  rw [hr.frame, hwrites, hguard]

/-- The guard of a request that names channels only survives. -/
theorem guardSurvives_of_namesChannels {r : Request} (hnamed : NamesChannels old r) :
    guardSurvives old new r = true := by
  unfold guardSurvives
  cases hg : r.action.guard with
  | none => rfl
  | some guard =>
    refine List.all_eq_true.2 fun e he => ?_
    have hslot : (guard.get? e.1).isSome := by
      rw [SlotMap.get?_eq_some_iff.2 he]
      rfl
    refine survives_iff.2 ⟨e.1, (sameChannel_iff_of_names_eq hnames h).2 ⟨rfl, ?_⟩⟩
    exact hnamed e.1 (Or.inr ⟨guard, hg, hslot⟩)

end

end Engine

end BlockAutomata
