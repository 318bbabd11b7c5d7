/-
  What a combined rule has from its parts.

  1. Two lists of names can be merged just if one of them begins with the other, and the longer one
     is the result (`mergeNames_eq_ok_iff`).  So the merged names of many rules begin with the names
     of each rule, and every one of them is the name that some rule has for the slot; where the
     merging fails, two rules differ in the name of a slot (`AreNames.foldlM`).

  2. Rules stand for other rules if they have the names of these and no others, watch the same
     blocks, and ask together for the same actions in the same order (`StandFor`).  A combined rule
     stands for its parts, whatever the parts answer (`CombinedRule.ofParts_spec`).

  3. Standing for others is transitive, and lists of rules may be put one after the other.  So by
     induction over the nesting, rules that have been combined of combined rules stand for the rules
     at the bottom, and they can be combined just if all of those agree (`Nest.build_spec`).
-/
import BlockAutomata.CombinedRule
import Mathlib.Data.List.Infix

namespace BlockAutomata

/-! ## Tables of blocks -/

/-- The table has exactly the numbers below the limit that satisfy the condition. -/
theorem BlockSet.contains_ofPredicate {limit : Nat} {p : Int64 → Bool} {block : Int64}
    (hpos : 0 ≤ block.toInt) (hlt : block.toInt < limit) :
    (ofPredicate limit p).contains block = p block := by
  have hindex : block.toInt.toNat < limit := by omega
  have hblock : Int64.ofNat block.toInt.toNat = block := by
    rw [← Int64.ofInt_eq_ofNat, Int.toNat_of_nonneg hpos, Int64.ofInt_toInt]
  rw [contains, decide_eq_true hpos, Bool.true_and, ofPredicate, Array.getD_eq_getD_getElem?,
    List.getElem?_toArray, List.getElem?_map, List.getElem?_range hindex]
  exact congrArg p hblock

/-! ## Names of slots -/

/-- The name that the rule has for the slot. -/
def LocalRule.nameOf? (r : LocalRule) : Nat → Option String
  | 0 => none
  | i + 1 => r.names[i]?

/-- No two of the rules have different names for the same slot. -/
def Agree (rules : List LocalRule) : Prop :=
  ∀ r ∈ rules, ∀ r' ∈ rules, ∀ slot a b,
    r.nameOf? slot = some a → r'.nameOf? slot = some b → a = b

/-- Two of the rules have these different names for the slot. -/
structure SlotConflict.Between (e : SlotConflict) (rules : List LocalRule) : Prop where
  settled : ∃ r ∈ rules, r.nameOf? e.slot = some e.settled
  proposed : ∃ r ∈ rules, r.nameOf? e.slot = some e.proposed
  differ : e.settled ≠ e.proposed

theorem SlotConflict.Between.not_agree {e : SlotConflict} {rules : List LocalRule}
    (h : e.Between rules) : ¬ Agree rules := by
  intro hagree
  obtain ⟨r, hr, ha⟩ := h.settled
  obtain ⟨r', hr', hb⟩ := h.proposed
  exact h.differ (hagree r hr r' hr' _ _ _ ha hb)

theorem SlotConflict.Between.mono {e : SlotConflict} {rules rules' : List LocalRule}
    (hsub : ∀ r ∈ rules, r ∈ rules') (h : e.Between rules) : e.Between rules' where
  settled := let ⟨r, hr, hname⟩ := h.settled; ⟨r, hsub r hr, hname⟩
  proposed := let ⟨r, hr, hname⟩ := h.proposed; ⟨r, hsub r hr, hname⟩
  differ := h.differ

/-- Where the names of one rule begin with those of another, the slots of this have the same names
    in both. -/
theorem LocalRule.nameOf?_of_prefix {r r' : LocalRule} (h : r.names <+: r'.names) {slot : Nat}
    {name : String} (hname : r.nameOf? slot = some name) : r'.nameOf? slot = some name := by
  cases slot with
  | zero => cases hname
  | succ i =>
    obtain ⟨hi, hget⟩ := List.getElem?_eq_some_iff.1 hname
    exact (List.prefix_iff_getElem?.1 h i hi).trans (congrArg some hget)

/-- It also finds these names in the same slots. -/
theorem LocalRule.slot?_of_prefix {r r' : LocalRule} (h : r.names <+: r'.names) {name : String}
    (hname : name ∈ r.names) : r'.slot? name = r.slot? name := by
  obtain ⟨i, hi⟩ := Option.isSome_iff_exists.1 (List.isSome_idxOf?.2 hname)
  rw [slot?, slot?, hi, List.idxOf?, h.findIdx?_eq_some hi]

namespace CombinedRule

/-! ## Merging names -/

/-- Lists of names can be merged just if one begins with the other. -/
theorem mergeNames_eq_ok_iff {slot : Nat} {names more merged : List String} :
    mergeNames slot names more = .ok merged ↔
      (names <+: more ∧ merged = more) ∨ (more <+: names ∧ merged = names) := by
  induction slot, names, more using mergeNames.induct generalizing merged with
  | case1 slot more =>
    rw [mergeNames]
    constructor
    · exact fun h => Or.inl ⟨List.nil_prefix, (Except.ok.inj h).symm⟩
    · rintro (⟨-, rfl⟩ | ⟨hle, rfl⟩)
      · rfl
      · rw [List.prefix_nil.1 hle]
  | case2 slot names hne =>
    rw [mergeNames]
    · constructor
      · exact fun h => Or.inr ⟨List.nil_prefix, (Except.ok.inj h).symm⟩
      · rintro (⟨hle, rfl⟩ | ⟨-, rfl⟩)
        · rw [List.prefix_nil.1 hle]
        · rfl
    · exact hne
  | case3 slot names b more ih =>
    rw [mergeNames, if_pos rfl, List.cons_prefix_cons, List.cons_prefix_cons]
    constructor
    · intro h
      cases hrest : mergeNames (slot + 1) names more with
      | error e => rw [hrest] at h; cases h
      | ok rest =>
        rw [hrest] at h
        cases h
        rcases ih.1 hrest with ⟨hle, rfl⟩ | ⟨hle, rfl⟩
        · exact Or.inl ⟨⟨rfl, hle⟩, rfl⟩
        · exact Or.inr ⟨⟨rfl, hle⟩, rfl⟩
    · rintro (⟨⟨-, hle⟩, rfl⟩ | ⟨⟨-, hle⟩, rfl⟩)
      · rw [ih.2 (Or.inl ⟨hle, rfl⟩)]; rfl
      · rw [ih.2 (Or.inr ⟨hle, rfl⟩)]; rfl
  | case4 slot a names b more hne =>
    rw [mergeNames, if_neg hne, List.cons_prefix_cons, List.cons_prefix_cons]
    constructor
    · exact fun h => nomatch h
    · rintro (⟨⟨heq, -⟩, -⟩ | ⟨⟨heq, -⟩, -⟩)
      · exact absurd heq hne
      · exact absurd heq.symm hne

/-- Where merging fails, the lists have different names at the same place. -/
theorem conflict_of_mergeNames {slot : Nat} {names more : List String} {e : SlotConflict}
    (h : mergeNames slot names more = .error e) :
    ∃ i, e.slot = slot + i ∧ names[i]? = some e.settled ∧ more[i]? = some e.proposed ∧
      e.settled ≠ e.proposed := by
  induction slot, names, more using mergeNames.induct with
  | case1 slot more => rw [mergeNames] at h; cases h
  | case2 slot names hne =>
    rw [mergeNames] at h
    · cases h
    · exact hne
  | case3 slot names b more ih =>
    rw [mergeNames, if_pos rfl] at h
    cases hrest : mergeNames (slot + 1) names more with
    | ok rest => rw [hrest] at h; cases h
    | error e' =>
      rw [hrest] at h
      cases h
      obtain ⟨i, hslot, hrest⟩ := ih hrest
      exact ⟨i + 1, by rw [hslot, Nat.add_assoc, Nat.add_comm 1 i], hrest⟩
  | case4 slot a names b more hne =>
    rw [mergeNames, if_neg hne] at h
    cases h
    exact ⟨0, rfl, rfl, rfl, hne⟩

/-- The names of the rules, put together: the list begins with the names of each, and a name in it
    is one that some rule has for the slot. -/
structure AreNames (rules : List LocalRule) (names : List String) : Prop where
  begins : ∀ r ∈ rules, r.names <+: names
  named : ∀ i name, names[i]? = some name → ∃ r ∈ rules, r.nameOf? (i + 1) = some name

/-- One more rule. -/
theorem AreNames.snoc {rules : List LocalRule} {names merged : List String} {r : LocalRule}
    (h : AreNames rules names) (hm : mergeNames 1 names r.names = .ok merged) :
    AreNames (rules ++ [r]) merged := by
  have hboth : names <+: merged ∧ r.names <+: merged := by
    rcases mergeNames_eq_ok_iff.1 hm with ⟨hle, rfl⟩ | ⟨hle, rfl⟩
    · exact ⟨hle, List.prefix_refl _⟩
    · exact ⟨List.prefix_refl _, hle⟩
  constructor
  · intro r' hr'
    rcases List.mem_append.1 hr' with hr' | hr'
    · exact (h.begins r' hr').trans hboth.1
    · rw [List.mem_singleton.1 hr']
      exact hboth.2
  · intro i name hname
    rcases mergeNames_eq_ok_iff.1 hm with ⟨-, rfl⟩ | ⟨-, rfl⟩
    · exact ⟨r, List.mem_append_right rules (List.mem_singleton_self r), hname⟩
    · obtain ⟨r', hr', hname'⟩ := h.named i name hname
      exact ⟨r', List.mem_append_left [r] hr', hname'⟩

/-- A conflict with one more rule is one between the rules. -/
theorem AreNames.conflict {rules : List LocalRule} {names : List String} {r : LocalRule}
    {e : SlotConflict} (h : AreNames rules names) (hm : mergeNames 1 names r.names = .error e) :
    e.Between (rules ++ [r]) := by
  obtain ⟨i, hslot, hsettled, hproposed, hdiffer⟩ := conflict_of_mergeNames hm
  rw [Nat.add_comm] at hslot
  obtain ⟨r', hr', hname⟩ := h.named i e.settled hsettled
  refine ⟨⟨r', List.mem_append_left [r] hr', ?_⟩,
    ⟨r, List.mem_append_right rules (List.mem_singleton_self r), ?_⟩, hdiffer⟩
  · rw [hslot]; exact hname
  · rw [hslot]; exact hproposed

/-- Merging goes on to the names of all rules, or ends with a conflict between two of them. -/
theorem AreNames.foldlM {done : List LocalRule} {names : List String} (h : AreNames done names)
    (rest : List LocalRule) :
    (∃ merged, rest.foldlM (fun names r => mergeNames 1 names r.names) names = .ok merged ∧
        AreNames (done ++ rest) merged) ∨
      ∃ e, rest.foldlM (fun names r => mergeNames 1 names r.names) names = .error e ∧
        e.Between (done ++ rest) := by
  -- with each rule, what has been merged so far are the names of the rules up to it
  induction rest generalizing done names with
  | nil =>
    rw [List.append_nil]
    exact Or.inl ⟨names, rfl, h⟩
  | cons r rest ih =>
    rw [List.foldlM_cons, List.append_cons]
    cases hm : mergeNames 1 names r.names with
    | ok merged => exact ih (h.snoc hm)
    | error e => exact Or.inr ⟨e, rfl, (h.conflict hm).mono fun r' => List.mem_append_left rest⟩

theorem areNames_nil : AreNames [] [] :=
  ⟨fun _ hr => absurd hr List.not_mem_nil, fun _ _ h => nomatch h⟩

end CombinedRule

/-! ## Rules that stand for others -/

open CombinedRule (anyWatches)

/-- The actions that the rules ask for, one rule after the other. -/
def actionsOf (rules : List LocalRule) (v : View) : List Action :=
  rules.flatMap fun r => (r.outcome v).actions

/-- The names of the rules are among those of the parts and the other way round, and otherwise they
    are together the same to an engine. -/
structure StandFor (parts rules : List LocalRule) : Prop where
  begins : ∀ r ∈ rules, ∃ part ∈ parts, r.names <+: part.names
  named : ∀ part ∈ parts, ∀ slot name, part.nameOf? slot = some name →
    ∃ r ∈ rules, r.nameOf? slot = some name
  watches : ∀ block, anyWatches parts block = anyWatches rules block
  actions : ∀ v, actionsOf parts v = actionsOf rules v

namespace StandFor

variable {first second parts parts' rules rules' : List LocalRule} {r : LocalRule}

theorem refl (rules : List LocalRule) : StandFor rules rules where
  begins r hr := ⟨r, hr, List.prefix_refl _⟩
  named r hr _ _ hname := ⟨r, hr, hname⟩
  watches _ := rfl
  actions _ := rfl

theorem trans (h : StandFor first second) (h' : StandFor second rules) : StandFor first rules where
  begins r hr := by
    obtain ⟨part, hpart, hle⟩ := h'.begins r hr
    obtain ⟨part', hpart', hle'⟩ := h.begins part hpart
    exact ⟨part', hpart', hle.trans hle'⟩
  named part hpart slot name hname := by
    obtain ⟨part', hpart', hname'⟩ := h.named part hpart slot name hname
    exact h'.named part' hpart' slot name hname'
  watches block := (h.watches block).trans (h'.watches block)
  actions v := (h.actions v).trans (h'.actions v)

theorem append (h : StandFor parts rules) (h' : StandFor parts' rules') :
    StandFor (parts ++ parts') (rules ++ rules') where
  begins r hr := by
    rcases List.mem_append.1 hr with hr | hr
    · obtain ⟨part, hpart, hle⟩ := h.begins r hr
      exact ⟨part, List.mem_append_left parts' hpart, hle⟩
    · obtain ⟨part, hpart, hle⟩ := h'.begins r hr
      exact ⟨part, List.mem_append_right parts hpart, hle⟩
  named part hpart slot name hname := by
    rcases List.mem_append.1 hpart with hpart | hpart
    · obtain ⟨r, hr, hname⟩ := h.named part hpart slot name hname
      exact ⟨r, List.mem_append_left rules' hr, hname⟩
    · obtain ⟨r, hr, hname⟩ := h'.named part hpart slot name hname
      exact ⟨r, List.mem_append_right rules hr, hname⟩
  watches block := by
    rw [anyWatches, anyWatches, List.any_append, List.any_append]
    exact congrArg₂ or (h.watches block) (h'.watches block)
  actions v := by
    rw [actionsOf, actionsOf, List.flatMap_append, List.flatMap_append]
    exact congrArg₂ _ (h.actions v) (h'.actions v)

/-- A conflict between the parts is one between the rules that they stand for. -/
theorem between (h : StandFor parts rules) {e : SlotConflict} (he : e.Between parts) :
    e.Between rules where
  settled := let ⟨part, hpart, hname⟩ := he.settled; h.named part hpart _ _ hname
  proposed := let ⟨part, hpart, hname⟩ := he.proposed; h.named part hpart _ _ hname
  differ := he.differ

theorem names_prefix (h : StandFor [r] rules) {part : LocalRule} (hpart : part ∈ rules) :
    part.names <+: r.names := by
  obtain ⟨r', hr', hle⟩ := h.begins part hpart
  rwa [List.mem_singleton.1 hr'] at hle

/-- Rules for which one rule stands agree. -/
theorem agree (h : StandFor [r] rules) : Agree rules := by
  intro part hpart part' hpart' slot a b ha hb
  have ha' := LocalRule.nameOf?_of_prefix (h.names_prefix hpart) ha
  have hb' := LocalRule.nameOf?_of_prefix (h.names_prefix hpart') hb
  exact Option.some.inj (ha'.symm.trans hb')

end StandFor

/-! ## Combined rules -/

namespace CombinedRule

/-- Whether the answer is looked up or the parts are asked makes no difference. -/
theorem watches_of_table (parts : List LocalRule) (names : List String) (block : Int64) :
    watches ⟨parts, names, BlockSet.ofPredicate tableBound (anyWatches parts)⟩ block =
      anyWatches parts block := by
  rw [watches]
  split
  · rename_i hsmall
    exact BlockSet.contains_ofPredicate hsmall.1 hsmall.2
  · rfl

theorem actions_outcome (c : CombinedRule) (v : View) :
    (c.outcome v).actions = actionsOf c.parts v := by
  have hfold : ∀ (parts : List LocalRule) (acc : Outcome),
      (parts.foldl (fun acc part => acc ++ part.outcome v) acc).actions =
        acc.actions ++ actionsOf parts v := by
    intro parts
    induction parts with
    | nil => exact fun acc => (List.append_nil _).symm
    | cons part parts ih =>
      intro acc
      rw [List.foldl_cons, ih, Outcome.actions_append, List.append_assoc]
      rfl
  exact hfold c.parts .idle

/-- A combined rule stands for its parts; if there is none, two of the parts are in conflict. -/
theorem ofParts_spec (parts : List LocalRule) :
    (∃ c, ofParts parts = .ok c ∧ StandFor [c.localRule] parts) ∨
      ∃ e, ofParts parts = .error e ∧ e.Between parts := by
  rcases areNames_nil.foldlM parts with ⟨names, hmerged, hnames⟩ | ⟨e, hmerged, he⟩
  · have hok : ofParts parts =
        .ok ⟨parts, names, BlockSet.ofPredicate tableBound (anyWatches parts)⟩ := by
      rw [ofParts, mergedNames, hmerged]
      rfl
    refine Or.inl ⟨_, hok, ?_, ?_, ?_, ?_⟩
    · exact fun r hr => ⟨_, List.mem_singleton_self _, hnames.begins r hr⟩
    · intro part hpart slot name hname
      rw [List.mem_singleton.1 hpart] at hname
      cases slot with
      | zero => cases hname
      | succ i => exact hnames.named i name hname
    · intro block
      rw [anyWatches, List.any_cons, List.any_nil, Bool.or_false]
      exact watches_of_table parts names block
    · intro v
      rw [actionsOf, List.flatMap_cons, List.flatMap_nil, List.append_nil]
      exact actions_outcome _ v
  · refine Or.inr ⟨e, ?_, he⟩
    rw [ofParts, mergedNames, hmerged]
    rfl

end CombinedRule

/-! ## Combined rules of combined rules -/

/-- Rules, some of which are to be combined of others. -/
inductive Nest where
  | single (rule : LocalRule)
  | combined (nests : List Nest)

namespace Nest

mutual

/-- Combine the rules from the inside out. -/
def build : Nest → Except SlotConflict LocalRule
  | .single r => .ok r
  | .combined nests => do
    let parts ← buildAll nests
    let c ← CombinedRule.ofParts parts
    return c.localRule

/-- Combine what is to be combined in each. -/
def buildAll : List Nest → Except SlotConflict (List LocalRule)
  | [] => .ok []
  | nest :: nests => do
    let r ← nest.build
    let parts ← buildAll nests
    return r :: parts

end

mutual

/-- The rules at the bottom, from left to right. -/
def rules : Nest → List LocalRule
  | .single r => [r]
  | .combined nests => rulesAll nests

/-- The rules at the bottom of all, from left to right. -/
def rulesAll : List Nest → List LocalRule
  | [] => []
  | nest :: nests => nest.rules ++ rulesAll nests

end

mutual

/-- What has been built stands for the rules at the bottom, and where the building fails, two of
    these are in conflict. -/
theorem build_spec : ∀ nest : Nest,
    (∃ r, nest.build = .ok r ∧ StandFor [r] nest.rules) ∨
      ∃ e, nest.build = .error e ∧ e.Between nest.rules
  | .single r => Or.inl ⟨r, rfl, StandFor.refl [r]⟩
  | .combined nests => by
    rw [build, rules]
    rcases buildAll_spec nests with ⟨parts, hparts, hstand⟩ | ⟨e, he, hbetween⟩
    · rw [hparts]
      rcases CombinedRule.ofParts_spec parts with ⟨c, hc, hc'⟩ | ⟨e, he, hbetween⟩
      · exact Or.inl ⟨c.localRule, congrArg (CombinedRule.localRule <$> ·) hc, hc'.trans hstand⟩
      · exact Or.inr ⟨e, congrArg (CombinedRule.localRule <$> ·) he, hstand.between hbetween⟩
    · rw [he]
      exact Or.inr ⟨e, rfl, hbetween⟩

theorem buildAll_spec : ∀ nests : List Nest,
    (∃ parts, buildAll nests = .ok parts ∧ StandFor parts (rulesAll nests)) ∨
      ∃ e, buildAll nests = .error e ∧ e.Between (rulesAll nests)
  | [] => Or.inl ⟨[], rfl, StandFor.refl []⟩
  | nest :: nests => by
    rw [buildAll, rulesAll]
    rcases nest.build_spec with ⟨r, hr, hstand⟩ | ⟨e, he, hbetween⟩
    · rw [hr]
      rcases buildAll_spec nests with ⟨parts, hparts, hstand'⟩ | ⟨e, he, hbetween⟩
      · rw [hparts]
        exact Or.inl ⟨r :: parts, rfl, hstand.append hstand'⟩
      · rw [he]
        exact Or.inr ⟨e, rfl, hbetween.mono fun r' => List.mem_append_right nest.rules⟩
    · rw [he]
      exact Or.inr ⟨e, rfl, hbetween.mono fun r' => List.mem_append_left (rulesAll nests)⟩

end

end Nest

/-! ## The union of rules -/

/-- The rule has the names of the rules with their slots and no others, watches what any of them
    watches, and asks for what they ask for in turn. -/
structure LocalRule.Unites (r : LocalRule) (rules : List LocalRule) : Prop where
  names : ∀ part ∈ rules, part.names <+: r.names
  named : ∀ slot name, r.nameOf? slot = some name → ∃ part ∈ rules, part.nameOf? slot = some name
  slots : ∀ part ∈ rules, ∀ name ∈ part.names, r.slot? name = part.slot? name
  watches : ∀ block, r.watches block = true ↔ ∃ part ∈ rules, part.watches block = true
  actions : ∀ v, (r.outcome v).actions = rules.flatMap fun part => (part.outcome v).actions

theorem StandFor.unites {r : LocalRule} {rules : List LocalRule} (h : StandFor [r] rules) :
    r.Unites rules where
  names _ hpart := h.names_prefix hpart
  named := h.named r (List.mem_singleton_self r)
  slots _ hpart _ hname := LocalRule.slot?_of_prefix (h.names_prefix hpart) hname
  watches block := by
    have hwatches := h.watches block
    rw [anyWatches, List.any_cons, List.any_nil, Bool.or_false] at hwatches
    rw [hwatches, anyWatches, List.any_eq_true]
  actions v := by
    have hactions := h.actions v
    rwa [actionsOf, List.flatMap_cons, List.flatMap_nil, List.append_nil] at hactions

/-- Where there is a result that stands for the rules, or else a conflict between them, there is one
    just if they agree. -/
theorem unites_of_spec {α : Type} {x : Except SlotConflict α} {f : α → LocalRule}
    {rules : List LocalRule}
    (h : (∃ a, x = .ok a ∧ StandFor [f a] rules) ∨ ∃ e, x = .error e ∧ e.Between rules) :
    ((∃ a, x = .ok a) ↔ Agree rules) ∧ ∀ a, x = .ok a → (f a).Unites rules := by
  rcases h with ⟨a, rfl, hstand⟩ | ⟨e, rfl, hbetween⟩
  · refine ⟨⟨fun _ => hstand.agree, fun _ => ⟨a, rfl⟩⟩, ?_⟩
    rintro _ ⟨⟩
    exact hstand.unites
  · refine ⟨⟨?_, fun hagree => absurd hagree hbetween.not_agree⟩, ?_⟩
    · rintro ⟨_, ⟨⟩⟩
    · rintro _ ⟨⟩

/-- Rules can be combined just if no two of them have different names for the same slot, and the
    combined rule unites them.  The same holds of the rules at the bottom, where combined rules are
    combined. -/
theorem combined_unites :
    (∀ rules, ((∃ c, CombinedRule.ofParts rules = .ok c) ↔ Agree rules) ∧
        ∀ c, CombinedRule.ofParts rules = .ok c → c.localRule.Unites rules) ∧
      ∀ nest : Nest, ((∃ r, nest.build = .ok r) ↔ Agree nest.rules) ∧
        ∀ r, nest.build = .ok r → r.Unites nest.rules :=
  ⟨fun rules => unites_of_spec (CombinedRule.ofParts_spec rules),
    fun nest => unites_of_spec (f := id) nest.build_spec⟩

/-- Watches a negative number and answers with an empty list of actions. -/
def hushed : LocalRule := ⟨["heat"], 2, (· == -1), fun _ => .many []⟩

/-- Watches a number that is not in the table. -/
def marking : LocalRule :=
  ⟨["heat", "age"], 3, (· == 0x8000), fun _ => .one (Action.announce [⟨"seen", none⟩])⟩

/-- Two rules side by side, and the same two inside of another combined rule. -/
theorem combined_unites_marking :
    Agree [hushed, marking] ∧
      (∃ c, CombinedRule.ofParts [marking, hushed] = .ok c ∧
        c.localRule.slot? "heat" = some 1 ∧ c.localRule.slot? "age" = some 2 ∧
        c.localRule.watches (-1) = true ∧ c.localRule.watches 0x8000 = true ∧
        ∀ v, (c.localRule.outcome v).actions = [Action.announce [⟨"seen", none⟩]]) ∧
      ∃ r, (Nest.combined [.combined [.single hushed, .single marking], .combined [],
          .single marking]).build = .ok r ∧
        r.watches (-1) = true ∧
        ∀ v, (r.outcome v).actions =
          [Action.announce [⟨"seen", none⟩], Action.announce [⟨"seen", none⟩]] := by
  obtain ⟨hflat, hnest⟩ := combined_unites
  have hagree : Agree [hushed, marking] := (hflat _).1.1 ⟨_, rfl⟩
  have hagree' : Agree [marking, hushed] := fun r hr r' hr' =>
    hagree r (List.mem_reverse.1 hr) r' (List.mem_reverse.1 hr')
  obtain ⟨c, hc⟩ := (hflat [marking, hushed]).1.2 hagree'
  obtain ⟨-, -, hslots, hwatches, hactions⟩ := (hflat _).2 c hc
  refine ⟨hagree, ⟨c, hc, ?_, ?_, ?_, ?_, hactions⟩, ?_⟩
  · exact hslots marking (by simp) "heat" (by decide)
  · exact hslots marking (by simp) "age" (by decide)
  · exact (hwatches (-1)).2 ⟨hushed, by simp, by decide⟩
  · exact (hwatches 0x8000).2 ⟨marking, by simp, by decide⟩
  · have hbottom : Agree [hushed, marking, marking] := fun r hr r' hr' =>
      hagree r (by simpa using hr) r' (by simpa using hr')
    obtain ⟨r, hr⟩ := (hnest (.combined [.combined [.single hushed, .single marking],
      .combined [], .single marking])).1.2 hbottom
    obtain ⟨-, -, -, hwatches, hactions⟩ := (hnest _).2 r hr
    exact ⟨r, hr, (hwatches (-1)).2 ⟨hushed, List.mem_cons_self, by decide⟩, hactions⟩

end BlockAutomata
