/-
  Slots from the first line of a script to the running rules.

  1. Three parties count slots on their own: the reader of lines, which hands them out; the rules,
     whose highest slot says how many channels they need; and the interpreter, which sorts the names
     by slot and is asked for slots by the place of a name.

  2. A rule of the grammar's shape refers to known slots only (`Rule.IsShaped.knows_of_mem_slots`).
     So in a draft that is in order all three arrive at the same numbers: there is one channel for
     each name, and one for the block (`Draft.Orderly.consistent`).

  3. All drafts that can be reached are in order, so this is true of every program that is read, be
     it up to the first bad line or around the bad lines (`consistent_ofSource`,
     `consistent_ofGoodLines`).
-/
import BlockAutomata.Proofs.Script.Footprint
import BlockAutomata.Proofs.Script.Numbering

namespace BlockAutomata.Script

/-! ## Slots of rules -/

section Known

variable {known : Nat → Prop} {s : Nat}

/-- Every slot among the expressions is known. -/
def KnowsSlots (known : Nat → Prop) (es : List Expr) : Prop :=
  ∀ e ∈ es, ∀ s, e.slot? = some s → known s

theorem knowsSlots_append {es fs : List Expr} (he : KnowsSlots known es)
    (hf : KnowsSlots known fs) : KnowsSlots known (es ++ fs) :=
  List.forall_mem_append.2 ⟨he, hf⟩

theorem knowsSlots_cons {e : Expr} {es : List Expr} (he : ∀ s, e.slot? = some s → known s)
    (hes : KnowsSlots known es) : KnowsSlots known (e :: es) :=
  List.forall_mem_cons.2 ⟨he, hes⟩

theorem knowsSlots_nil : KnowsSlots known [] := fun _ he => absurd he List.not_mem_nil

theorem Expr.IsOperand.knowsSlots {e : Expr} (h : e.IsOperand known) :
    KnowsSlots known e.subterms := by
  cases h with
  | literal n => exact knowsSlots_cons (fun _ hs => by cases hs) knowsSlots_nil
  | channel hs => exact knowsSlots_cons (fun _ h => by cases h; exact hs) knowsSlots_nil
  | neighbor o hs => exact knowsSlots_cons (fun _ h => by cases h; exact hs) knowsSlots_nil

theorem Expr.IsChain.knowsSlots {binds : Operator → Bool} {part : Expr → Prop}
    (hpart : ∀ e, part e → KnowsSlots known e.subterms) {e : Expr} (h : e.IsChain binds part) :
    KnowsSlots known e.subterms := by
  induction h with
  | one he => exact hpart _ he
  | more _ _ hr ih =>
    exact knowsSlots_cons (fun _ hs => by cases hs) (knowsSlots_append ih (hpart _ hr))

theorem Expr.IsSum.knowsSlots {e : Expr} (h : e.IsSum known) : KnowsSlots known e.subterms :=
  IsChain.knowsSlots (fun _ hp => IsChain.knowsSlots (fun _ ho => ho.knowsSlots) hp) h

/-- A comparison refers to the slots of its sides. -/
theorem Cond.Compares.knowsSlots {l r : Expr} {c : Cond} (h : Cond.Compares l r c)
    (hl : KnowsSlots known l.subterms) (hr : KnowsSlots known r.subterms) :
    KnowsSlots known c.subterms := by
  have hsign (n : Int64) : KnowsSlots known (Cond.equal (.sign l r) (.literal n)).subterms :=
    knowsSlots_append (knowsSlots_cons (fun _ hs => by cases hs) (knowsSlots_append hl hr))
      (Expr.IsOperand.literal n).knowsSlots
  cases h with
  | equal => exact knowsSlots_append hl hr
  | differ => exact knowsSlots_append hl hr
  | greater => exact hsign 1
  | less => exact hsign (-1)

theorem Cond.IsSimple.knowsSlots {c : Cond} (h : c.IsSimple known) :
    KnowsSlots known c.subterms := by
  induction h with
  | own hs he hc => exact hc.knowsSlots (Expr.IsOperand.channel hs).knowsSlots he.knowsSlots
  | counted _ _ hc ih =>
    exact hc.knowsSlots (knowsSlots_cons (fun _ hs => by cases hs) ih)
      (Expr.IsOperand.literal _).knowsSlots

theorem Cond.IsConjunction.knowsSlots {c : Cond} (h : c.IsConjunction known) :
    KnowsSlots known c.subterms := by
  cases h with
  | one hc => exact hc.knowsSlots
  | @several cs _ hcs =>
    rw [Cond.subterms]
    clear * - hcs
    induction cs with
    | nil => exact knowsSlots_nil
    | cons c cs ih =>
      rw [List.forall_mem_cons] at hcs
      exact knowsSlots_append hcs.1.knowsSlots (ih hcs.2)

theorem Effect.IsShaped.knowsSlots {e : Effect} (h : e.IsShaped known) :
    KnowsSlots known e.subterms ∧ ∀ s, e.slot? = some s → known s := by
  cases h with
  | set hs he => exact ⟨he.knowsSlots, fun _ h => by cases h; exact hs⟩
  | copy o => exact ⟨knowsSlots_nil, fun _ h => by cases h⟩
  | announce name => exact ⟨knowsSlots_nil, fun _ h => by cases h⟩
  | report name he => exact ⟨he.knowsSlots, fun _ h => by cases h⟩

/-- A rule of the grammar's shape refers to known slots only. -/
theorem Rule.IsShaped.knows_of_mem_slots {r : Rule} (h : r.IsShaped known) (hs : s ∈ r.slots) :
    known s := by
  rcases List.mem_append.1 hs with hs | hs
  · obtain ⟨x, hx, hslot⟩ := List.mem_filterMap.1 hs
    rcases List.mem_append.1 hx with hx | hx
    · exact h.condition.knowsSlots x hx s hslot
    · obtain ⟨e, he, hx⟩ := List.mem_flatMap.1 hx
      exact (h.effects e he).knowsSlots.1 x hx s hslot
  · obtain ⟨e, he, hslot⟩ := List.mem_filterMap.1 hs
    exact (h.effects e he).knowsSlots.2 s hslot

end Known

/-! ## Programs -/

/-- The slot table of a program, its rules and its interpreter agree about slots. -/
structure Program.Consistent (p : Program) : Prop where
  /-- the names have the slots 1, 2, … in their order -/
  values : p.slots.values = List.range' 1 p.slots.size
  block : blockName ∉ p.slots.keys
  /-- the rules refer to slots of the table, or to the block -/
  slots_le : ∀ r ∈ p.rules, ∀ s ∈ r.slots, s ≤ p.slots.size
  channels : p.channels = p.slots.size + 1
  channels_localRule : p.interpreter.localRule.channels = p.slots.size + 1
  names_localRule : p.interpreter.localRule.names = p.names
  /-- the name at each place has the slot after it -/
  name_at : ∀ i name, p.names[i]? = some name ↔ p.slots.find? name = some (i + 1)
  slot?_localRule : ∀ name, p.interpreter.localRule.slot? name = p.slots.find? name
  writes_le : ∀ v, ∀ a ∈ (p.interpreter.localRule.outcome v).actions, ∀ s,
    (a.writes.get? s).isSome → s ≤ p.slots.size
  reads_le : ∀ v, ∀ r ∈ p.interpreter.reads v, r.2 ≤ p.slots.size
  /-- what other slots hold makes no difference -/
  outcome_congr : ∀ v₁ v₂ : View, (∀ o, ∀ s ≤ p.slots.size, v₁.read o s = v₂.read o s) →
    p.interpreter.localRule.outcome v₁ = p.interpreter.localRule.outcome v₂

/-- In a draft that is in order, there is a channel for each name and one for the block. -/
theorem Draft.Orderly.consistent {d : Draft} (h : d.Orderly) : (Program.ofDraft d).Consistent := by
  have hnumbered : d.slots.Numbered := h.numbered
  have hslots : ∀ r ∈ d.rules, ∀ s ∈ r.slots, s ≤ d.slots.size := fun r hr s hs =>
    hnumbered.knows_iff.1 ((h.shaped r hr).knows_of_mem_slots hs)
  have hneeded : channelsNeeded d.rules ≤ d.slots.size + 1 := channelsNeeded_le_iff.2 hslots
  have hnames : d.slots.namesBySlot = d.slots.keys := hnumbered.namesBySlot_eq
  have hchannels : (Program.ofDraft d).interpreter.channels = d.slots.size + 1 :=
    Interpreter.channels_ofRules hslots
  have hcovers : (Program.ofDraft d).interpreter.Covers := Interpreter.covers_ofRules _ _
  have hle : ∀ s, s < (Program.ofDraft d).interpreter.channels → s ≤ d.slots.size := fun s hs =>
    Nat.le_of_lt_succ (Nat.lt_of_lt_of_eq hs hchannels)
  have hreads : ∀ v, ∀ r ∈ (Program.ofDraft d).interpreter.reads v, r.2 ≤ d.slots.size :=
    fun v r hr => hle r.2 (Interpreter.lt_channels_of_mem_reads hcovers hr)
  exact {
    values := hnumbered.values
    block := hnumbered.block
    slots_le := hslots
    channels := Nat.max_eq_right hneeded
    channels_localRule := hchannels
    names_localRule := hnames
    name_at := fun i name => by
      show d.slots.keys[i]? = some name ↔ d.slots.find? name = some (i + 1)
      rw [hnumbered.find?_eq_some_iff]
      exact ⟨fun hi => ⟨i, hi, rfl⟩, fun ⟨k, hk, hik⟩ => Nat.succ.inj hik ▸ hk⟩
    slot?_localRule := fun name => by
      show (d.slots.namesBySlot.idxOf? name).map (· + 1) = d.slots.find? name
      rw [hnames, hnumbered.idxOf?_keys]
    writes_le := fun v a ha s hs => hle s (Interpreter.lt_channels_of_write hcovers ha hs)
    reads_le := hreads
    outcome_congr := fun v₁ v₂ hagree =>
      Interpreter.outcome_of_agreeOn fun r hr => hagree r.1 r.2 (hreads v₁ r hr) }

namespace Draft

/-- Whatever lines are read, good or bad, the program at the end is consistent, and a name keeps its
    slot when more lines are read: later names come after the earlier ones. -/
theorem slots_consistent (palette : Palette) (entries : List Entry) :
    (Program.ofDraft (after palette entries)).Consistent ∧
      ∀ later, (after palette entries).slots.entries <+:
          (after palette (entries ++ later)).slots.entries ∧
        ∀ name slot, (after palette entries).slots.find? name = some slot →
          (after palette (entries ++ later)).slots.find? name = some slot :=
  ⟨(orderly_after palette entries).consistent, fun later =>
    ⟨(grows_after palette entries later).entries, fun _ _ =>
      (grows_after palette entries later).find?⟩⟩

/-! ## Sources -/

variable (palette : Palette) {d d' : Draft}

theorem orderly_addLine (h : d.Orderly) (l : String) : (d.addLine palette l).2.Orderly :=
  (step_add palette d (.text l)).2 h

theorem orderly_addLines (h : d.Orderly) (ls : List String) (hd' : d.addLines palette ls = .ok d') :
    d'.Orderly := by
  induction ls generalizing d with
  | nil => cases hd'; exact h
  | cons l ls ih =>
    have hl := orderly_addLine palette h l
    rw [addLines] at hd'
    split at hd'
    · cases hd'
    · rename_i heq
      rw [heq] at hl
      exact ih hl hd'

theorem orderly_addGoodLines (h : d.Orderly) (ls : List String) :
    (d.addGoodLines palette ls).1.Orderly := by
  induction ls generalizing d with
  | nil => exact h
  | cons l ls ih =>
    have hl := orderly_addLine palette h l
    rw [addGoodLines]
    split
    · rename_i heq
      rw [heq] at hl
      exact ih hl
    · rename_i heq
      rw [heq] at hl
      exact ih hl

end Draft

/-- A source text without bad lines is read as a consistent program. -/
theorem Program.consistent_ofSource {palette : Palette} {source : String} {p : Program}
    (h : Program.ofSource palette source = .ok p) : p.Consistent := by
  rw [ofSource] at h
  cases hd : Draft.empty.addLines palette (sourceLines source) with
  | error e => rw [hd] at h; cases h
  | ok d =>
    rw [hd] at h
    cases h
    exact (Draft.orderly_addLines palette Draft.orderly_empty _ hd).consistent

/-- The good lines of any source text are read as a consistent program. -/
theorem Program.consistent_ofGoodLines (palette : Palette) (source : String) :
    (Program.ofGoodLines palette source).1.Consistent :=
  (Draft.orderly_addGoodLines palette Draft.orderly_empty (sourceLines source)).consistent

end BlockAutomata.Script
