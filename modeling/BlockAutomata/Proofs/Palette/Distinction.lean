/-
  Whether the states of a block can be told apart by its properties.

  1. **Places.**  Each property of a block, also one that shares its name with an earlier one, has a
     place in the number of a state.  The digits at all places make up the number
     (`eq_of_digit_eq`).

  2. **Names.**  A name leads to the first property that has it.  So reading or writing by name
     either concerns a place or is apart from it (`Place.weighted?_cases`).

  3. **What names do not show.**  Two digits read alike if the property is hidden behind an earlier
     one of its name, or if they stand for the same value.  Then no reading tells the one from the
     other (`Place.get?_turn`), and no writing leads to the later one (`Place.digit_of_put`).

  4. So states are told apart, and all of them are reached by writing, just if no two digits read
     alike (`told_apart`).  Declarations are not checked for this.
-/
import BlockAutomata.Proofs.Palette.Names

namespace BlockAutomata

/-! ## Places -/

theorem choices_append (before after : List Block.Property) :
    choices (before ++ after) = choices before * choices after := by
  induction before with
  | nil => exact (Nat.one_mul _).symm
  | cons prop before ih => rw [List.cons_append, choices, choices, ih, Nat.mul_assoc]

/-- What a place spans divides the number of choices. -/
theorem place_dvd_choices (before : List Block.Property) (prop : Block.Property)
    (after : List Block.Property) :
    choices after * prop.values.length ∣ choices (before ++ prop :: after) := by
  rw [choices_append, choices, Nat.mul_comm (choices after)]
  exact Nat.dvd_mul_left _ _

namespace Palette

/-- What is above a place does not change its digit. -/
theorem digit_mod {bound weight size : Nat} (h : weight * size ∣ bound) (n : Nat) :
    digit (n % bound) weight size = digit n weight size := by
  rw [digit_eq_mod_div, digit_eq_mod_div, Nat.mod_mod_of_dvd _ h]

/-- Writing the digit that is there changes nothing. -/
theorem withDigit_digit (n weight size : Nat) :
    withDigit n weight size (digit n weight size) = n := by
  have hadd := withDigit_add n weight size (digit n weight size)
  omega

end Palette

open Palette in
/-- The digits at all places make up the number. -/
theorem eq_of_digit_eq {props : List Block.Property} {n m : Nat} (hn : n < choices props)
    (hm : m < choices props)
    (h : ∀ before prop after, props = before ++ prop :: after →
      digit n (choices after) prop.values.length = digit m (choices after) prop.values.length) :
    n = m := by
  induction props generalizing n m with
  | nil =>
    rw [choices] at hn hm
    omega
  | cons prop rest ih =>
    have hrest : 0 < choices rest :=
      Nat.pos_of_ne_zero fun h0 => by rw [choices, h0, Nat.mul_zero] at hn; omega
    -- the first property has the highest digit
    have hhigh : n / choices rest = m / choices rest := by
      have hdigit := h [] prop rest rfl
      rwa [digit, digit, Nat.mod_eq_of_lt ((Nat.div_lt_iff_lt_mul hrest).2 hn),
        Nat.mod_eq_of_lt ((Nat.div_lt_iff_lt_mul hrest).2 hm)] at hdigit
    have hlow : n % choices rest = m % choices rest := by
      refine ih (Nat.mod_lt _ hrest) (Nat.mod_lt _ hrest) fun before other after hsplit => ?_
      have hspan : choices after * other.values.length ∣ choices rest :=
        hsplit ▸ place_dvd_choices before other after
      rw [digit_mod hspan, digit_mod hspan]
      exact h (prop :: before) other after (by rw [hsplit]; rfl)
    rw [← Nat.div_add_mod n (choices rest), ← Nat.div_add_mod m (choices rest), hhigh, hlow]

/-! ## Names -/

section

open Palette

variable {before after : List Block.Property} {prop own : Block.Property} {name : String}
  {weight : Nat}

/-- A name leads to the first property that has it. -/
theorem weighted?_append_cons (h : ∀ earlier ∈ before, earlier.name ≠ own.name) :
    weighted? own.name (before ++ own :: after) = some (own, choices after) := by
  induction before with
  | nil => exact if_pos rfl
  | cons first before ih =>
    rw [List.cons_append, weighted?, if_neg (h first List.mem_cons_self)]
    exact ih fun earlier hmem => h earlier (List.mem_cons_of_mem _ hmem)

/-- A name leads to a given place, or to one that is apart from it. -/
theorem weighted?_cases (h : weighted? name (before ++ own :: after) = some (prop, weight)) :
    (own.name = name ∧ (∀ earlier ∈ before, earlier.name ≠ name) ∧ prop = own ∧
        weight = choices after) ∨
      Apart weight prop.values.length (choices after) own.values.length := by
  induction before with
  | nil =>
    rw [List.nil_append, weighted?] at h
    split at h
    · rename_i hname
      obtain ⟨rfl, rfl⟩ := Prod.mk.inj (Option.some.inj h)
      exact .inl ⟨hname, fun _ hmem => absurd hmem List.not_mem_nil, rfl, rfl⟩
    · exact .inr (.inl (weight_mul_dvd_choices h))
  | cons first before ih =>
    rw [List.cons_append, weighted?] at h
    split at h
    · obtain ⟨rfl, rfl⟩ := Prod.mk.inj (Option.some.inj h)
      exact .inr (.inr (place_dvd_choices _ _ _))
    · rename_i hfirst
      rcases ih h with ⟨hname, hbefore, hplace⟩ | hapart
      · exact .inl ⟨hname, List.forall_mem_cons.2 ⟨hfirst, hbefore⟩, hplace⟩
      · exact .inr hapart

end

namespace Block

open Palette

/-- One of the properties of a block, among those before and those after it. -/
structure Place (b : Block) where
  before : List Property
  prop : Property
  after : List Property
  properties_eq : b.properties = before ++ prop :: after

variable {b : Block} {n m : Nat} {name value : String}

theorem exists_place {prop : Property} (h : prop ∈ b.properties) :
    ∃ x : b.Place, x.prop = prop := by
  obtain ⟨before, after, hsplit⟩ := List.append_of_mem h
  exact ⟨⟨before, prop, after, hsplit⟩, rfl⟩

namespace Place

variable (x : b.Place)

/-- The weight of the place. -/
def weight : Nat := choices x.after

/-- How many digits there are for the place. -/
def size : Nat := x.prop.values.length

/-- The digit of the number at the place. -/
def digit (n : Nat) : Nat := Palette.digit n x.weight x.size

/-- The number with another digit at the place. -/
def turn (n k : Nat) : Nat := withDigit n x.weight x.size k

/-- An earlier property has the same name. -/
def Hidden : Prop := ∃ earlier ∈ x.before, earlier.name = x.prop.name

/-- The two digits cannot be told apart by name: the property is not the one that its name leads to,
    or they stand for the same value. -/
def ReadAlike (j k : Nat) : Prop := x.Hidden ∨ x.prop.values[j]? = x.prop.values[k]?

theorem mem_properties : x.prop ∈ b.properties := by
  rw [x.properties_eq]
  exact List.mem_append_right _ List.mem_cons_self

theorem span_dvd : x.weight * x.size ∣ b.size := by
  rw [Block.size, x.properties_eq]
  exact place_dvd_choices _ _ _

theorem span_pos (hn : n < b.size) : 0 < x.weight * x.size :=
  Nat.pos_of_dvd_of_pos x.span_dvd (Nat.lt_of_le_of_lt (Nat.zero_le n) hn)

theorem weight_pos (hn : n < b.size) : 0 < x.weight := Nat.pos_of_mul_pos_right (x.span_pos hn)

theorem digit_lt (hn : n < b.size) : x.digit n < x.size :=
  Nat.mod_lt _ (Nat.pos_of_mul_pos_left (x.span_pos hn))

variable {x} {j k : Nat}

theorem digit_turn (hn : n < b.size) (hk : k < x.size) : x.digit (x.turn n k) = k :=
  digit_withDigit (x.weight_pos hn) hk

theorem turn_lt (hn : n < b.size) (hk : k < x.size) : x.turn n k < b.size :=
  withDigit_lt x.span_dvd (x.weight_pos hn) hk hn

theorem weighted?_of_not_hidden (h : ¬ x.Hidden) :
    weighted? x.prop.name b.properties = some (x.prop, x.weight) := by
  rw [x.properties_eq]
  exact weighted?_append_cons fun earlier hmem hname => h ⟨earlier, hmem, hname⟩

theorem cases_of_weighted? {prop : Property} {weight : Nat}
    (h : weighted? name b.properties = some (prop, weight)) :
    (x.prop.name = name ∧ ¬ x.Hidden ∧ prop = x.prop ∧ weight = x.weight) ∨
      Apart weight prop.values.length x.weight x.size := by
  rw [x.properties_eq] at h
  refine (weighted?_cases h).imp_left fun ⟨hname, hbefore, hplace⟩ => ⟨hname, ?_, hplace⟩
  rintro ⟨earlier, hmem, hsame⟩
  exact hbefore earlier hmem (hsame.trans hname)

/-- A property that its name leads to shows the value of its digit. -/
theorem get?_of_not_hidden (h : ¬ x.Hidden) (n : Nat) :
    b.get? n x.prop.name = x.prop.values[x.digit n]? := by
  rw [get?, weighted?_of_not_hidden h]
  rfl

/-- Digits that read alike are not told apart by any name. -/
theorem get?_turn (hn : n < b.size) (hj : j < x.size) (hk : k < x.size) (h : x.ReadAlike j k)
    (name : String) : b.get? (x.turn n j) name = b.get? (x.turn n k) name := by
  have hweight := x.weight_pos hn
  rw [get?, get?]
  cases hplace : weighted? name b.properties with
  | none => rfl
  | some place =>
    obtain ⟨prop, weight⟩ := place
    rw [Option.bind_some, Option.bind_some]
    rcases x.cases_of_weighted? hplace with ⟨-, hshown, rfl, rfl⟩ | hapart
    · have hvalue := h.resolve_left hshown
      rwa [← digit_turn hn hj, ← digit_turn hn hk] at hvalue
    · dsimp only
      rw [turn, turn, hapart.symm.digit_withDigit hweight hj,
        hapart.symm.digit_withDigit hweight hk]

/-- Of two digits that read alike, the later one is not written. -/
theorem digit_of_put (hn : n < b.size) (hjk : j < k) (h : x.ReadAlike j k)
    (hput : b.put n name value = .ok m) (hm : x.digit m = k) : x.digit n = k := by
  obtain ⟨prop, weight, v, hplace, hv, rfl⟩ := exists_of_put_eq_ok hput
  obtain ⟨hlt, hget, hfirst⟩ := List.idxOf?_eq_some_iff.1 hv
  have hweight := Block.weight_pos hplace hn
  rcases x.cases_of_weighted? hplace with ⟨-, hshown, rfl, rfl⟩ | hapart
  · -- the value that was written is found at the earlier digit
    obtain rfl : v = k := (digit_withDigit hweight hlt).symm.trans hm
    have hvalue := h.resolve_left hshown
    rw [List.getElem?_eq_getElem hlt, hget, List.getElem?_eq_getElem (hjk.trans hlt)] at hvalue
    exact absurd (Option.some.inj hvalue) (hfirst j hjk)
  · exact (hapart.digit_withDigit hweight hlt).symm.trans hm

theorem ReadAlike.symm (h : x.ReadAlike j k) : x.ReadAlike k j := h.imp_right Eq.symm

end Place

/-! ## Unambiguous blocks -/

/-- No value of a property repeats, and a property that is hidden behind another one of its name
    leaves nothing to choose. -/
structure Unambiguous (b : Block) : Prop where
  values : ∀ prop ∈ b.properties, prop.values.Nodup
  names : b.properties.Pairwise fun earlier later =>
    earlier.name = later.name → later.values.length ≤ 1

/-- No property that its name leads to has a value twice. -/
def ValuesDistinct (b : Block) : Prop :=
  ∀ name, ∀ prop ∈ b.properties.find? fun prop => prop.name = name, prop.values.Nodup

theorem Unambiguous.valuesDistinct (h : b.Unambiguous) : b.ValuesDistinct :=
  fun _ prop hprop => h.values prop (List.mem_of_find?_eq_some hprop)

theorem pairwise_of_append_cons {α : Type} {R : α → α → Prop} {l : List α}
    (h : ∀ before x after, l = before ++ x :: after → ∀ earlier ∈ before, R earlier x) :
    l.Pairwise R := by
  induction l with
  | nil => exact .nil
  | cons first rest ih =>
    refine .cons (fun later hlater => ?_) (ih fun before x after hsplit earlier hmem => ?_)
    · obtain ⟨before, after, rfl⟩ := List.append_of_mem hlater
      exact h (first :: before) later after rfl first List.mem_cons_self
    · exact h (first :: before) x after (by rw [hsplit]; rfl) earlier
        (List.mem_cons_of_mem _ hmem)

/-- In an unambiguous block no two digits of a place read alike. -/
theorem unambiguous_iff :
    b.Unambiguous ↔ ∀ x : b.Place, ∀ j k, j < k → k < x.size → ¬ x.ReadAlike j k := by
  constructor
  · rintro h x j k hjk hk (⟨earlier, hmem, hname⟩ | hvalue)
    · have hpairs := h.names
      rw [x.properties_eq, List.pairwise_append] at hpairs
      have hle : x.size ≤ 1 := hpairs.2.2 earlier hmem x.prop List.mem_cons_self hname
      omega
    · exact List.nodup_iff_getElem?_ne_getElem?.1 (h.values x.prop x.mem_properties) j k hjk hk
        hvalue
  · intro h
    constructor
    · intro prop hprop
      obtain ⟨x, rfl⟩ := exists_place hprop
      exact List.nodup_iff_getElem?_ne_getElem?.2 fun j k hjk hk hvalue =>
        h x j k hjk hk (.inr hvalue)
    · refine pairwise_of_append_cons fun before prop after hsplit earlier hmem hname => ?_
      by_contra hlong
      exact h ⟨before, prop, after, hsplit⟩ 0 1 Nat.zero_lt_one (Nat.lt_of_not_le hlong)
        (.inl ⟨earlier, hmem, hname⟩)

/-- States of an unambiguous block with the same values are the same. -/
theorem Unambiguous.eq_of_get?_eq (h : b.Unambiguous) (hn : n < b.size) (hm : m < b.size)
    (hsame : ∀ prop ∈ b.properties, b.get? n prop.name = b.get? m prop.name) : n = m := by
  refine eq_of_digit_eq hn hm fun before prop after hsplit => ?_
  let x : b.Place := ⟨before, prop, after, hsplit⟩
  have halike : x.ReadAlike (x.digit n) (x.digit m) := by
    by_cases hhidden : x.Hidden
    · exact .inl hhidden
    · refine .inr ?_
      rw [← x.get?_of_not_hidden hhidden, ← x.get?_of_not_hidden hhidden]
      exact hsame x.prop x.mem_properties
  rcases Nat.lt_trichotomy (x.digit n) (x.digit m) with hlt | heq | hgt
  · exact absurd halike (unambiguous_iff.1 h x _ _ hlt (x.digit_lt hm))
  · exact heq
  · exact absurd halike.symm (unambiguous_iff.1 h x _ _ hgt (x.digit_lt hn))

/-- The states of a block are told apart by the values of its properties just if the block is
    unambiguous. -/
theorem unambiguous_iff_told_apart (hsize : 0 < b.size) :
    b.Unambiguous ↔ ∀ n < b.size, ∀ m < b.size,
      (∀ prop ∈ b.properties, b.get? n prop.name = b.get? m prop.name) → n = m := by
  constructor
  · exact fun h n hn m hm hsame => h.eq_of_get?_eq hn hm hsame
  · refine fun h => unambiguous_iff.2 fun x j k hjk hk halike => ?_
    have hj := hjk.trans hk
    have hturn : x.turn 0 j = x.turn 0 k :=
      h _ (Place.turn_lt hsize hj) _ (Place.turn_lt hsize hk) fun prop _ =>
        Place.get?_turn hsize hj hk halike prop.name
    have hdigit := congrArg x.digit hturn
    rw [Place.digit_turn hsize hj, Place.digit_turn hsize hk] at hdigit
    omega

/-! ### Reaching states -/

/-- The second state differs from the first by writing one property. -/
def Writes (b : Block) (n m : Nat) : Prop := ∃ name value, b.put n name value = .ok m

/-- A declared property has a value, which can be written. -/
theorem exists_get? (hn : n < b.size) {prop : Property} (hprop : prop ∈ b.properties) :
    ∃ value, b.get? n prop.name = some value ∧ ∀ k, ∃ m, b.put k prop.name value = .ok m := by
  cases hplace : weighted? prop.name b.properties with
  | none => exact absurd rfl (weighted?_eq_none_iff.1 hplace prop hprop)
  | some place =>
    obtain ⟨found, weight⟩ := place
    have hspan : 0 < weight * found.values.length :=
      Nat.pos_of_dvd_of_pos (weight_mul_dvd_choices hplace) (Nat.zero_lt_of_lt hn)
    have hlt : Palette.digit n weight found.values.length < found.values.length :=
      Nat.mod_lt _ (Nat.pos_of_mul_pos_left hspan)
    refine ⟨found.values[Palette.digit n weight found.values.length], ?_, fun k => ?_⟩
    · rw [get?, hplace, Option.bind_some, List.getElem?_eq_getElem hlt]
    · obtain ⟨v, hv⟩ := Option.isSome_iff_exists.1
        (List.isSome_idxOf?.2 (List.getElem_mem hlt))
      exact ⟨_, put_of_idxOf? hplace hv k⟩

/-- Writing some properties one after the other makes them the same as in another state. -/
theorem exists_agreeing (hn : n < b.size) (hm : m < b.size) (props : List Property)
    (hprops : ∀ prop ∈ props, prop ∈ b.properties) :
    ∃ k < b.size, Relation.ReflTransGen b.Writes n k ∧
      ∀ prop ∈ props, b.get? k prop.name = b.get? m prop.name := by
  induction props with
  | nil => exact ⟨n, hn, .refl, fun _ h => absurd h List.not_mem_nil⟩
  | cons prop rest ih =>
    rw [List.forall_mem_cons] at hprops
    obtain ⟨k, hk, hreach, hagree⟩ := ih hprops.2
    obtain ⟨value, hvalue, hput⟩ := exists_get? hm hprops.1
    obtain ⟨k', hk'⟩ := hput k
    refine ⟨k', put_lt hk hk', hreach.tail ⟨_, _, hk'⟩, List.forall_mem_cons.2 ⟨?_, ?_⟩⟩
    · rw [get?_put hk hk', hvalue]
    · intro other hother
      by_cases hname : other.name = prop.name
      · rw [hname, get?_put hk hk', hvalue]
      · rw [get?_put_of_ne hk hk' hname, hagree other hother]

/-- In an unambiguous block every state is reached from every other. -/
theorem Unambiguous.reaches (h : b.Unambiguous) (hn : n < b.size) (hm : m < b.size) :
    Relation.ReflTransGen b.Writes n m := by
  obtain ⟨k, hk, hreach, hagree⟩ := exists_agreeing hn hm b.properties fun _ hprop => hprop
  rwa [h.eq_of_get?_eq hk hm hagree] at hreach

/-- Writing keeps to the block, and never leads to the later of two digits that read alike. -/
theorem digit_of_reaches {x : b.Place} {j k : Nat} (hn : n < b.size) (hjk : j < k)
    (halike : x.ReadAlike j k) (h : Relation.ReflTransGen b.Writes n m) :
    m < b.size ∧ (x.digit m = k → x.digit n = k) := by
  induction h with
  | refl => exact ⟨hn, id⟩
  | tail _ hwrites ih =>
    obtain ⟨name, value, hput⟩ := hwrites
    exact ⟨put_lt ih.1 hput, fun hm => ih.2 (Place.digit_of_put ih.1 hjk halike hput hm)⟩

/-- All states of a block are reached from its first one just if the block is unambiguous. -/
theorem unambiguous_iff_reached (hsize : 0 < b.size) :
    b.Unambiguous ↔ ∀ n < b.size, Relation.ReflTransGen b.Writes 0 n := by
  constructor
  · exact fun h n hn => h.reaches hsize hn
  · refine fun h => unambiguous_iff.2 fun x j k hjk hk halike => ?_
    have hreach := h _ (Place.turn_lt hsize hk)
    have hdigit := (digit_of_reaches hsize hjk halike hreach).2 (Place.digit_turn hsize hk)
    have hzero : x.digit 0 = 0 := by rw [Place.digit, Palette.digit, Nat.zero_div, Nat.zero_mod]
    omega

/-! ### Writing what is read -/

theorem mem_find?_iff {prop : Property} :
    (prop ∈ b.properties.find? fun prop => prop.name = name) ↔
      ∃ weight, weighted? name b.properties = some (prop, weight) := by
  rw [find?_eq_map_weighted?, Option.mem_def, Option.map_eq_some_iff]
  constructor
  · rintro ⟨place, hplace, rfl⟩
    exact ⟨_, hplace⟩
  · exact fun ⟨weight, hplace⟩ => ⟨_, hplace, rfl⟩

/-- Writing a value changes nothing just if the digit that is there is the first one for it. -/
theorem put_eq_self_iff {prop : Property} {weight : Nat}
    (hplace : weighted? name b.properties = some (prop, weight)) (hn : n < b.size) :
    b.put n name value = .ok n ↔
      prop.values.idxOf? value = some (Palette.digit n weight prop.values.length) := by
  constructor
  · intro hput
    obtain ⟨_, _, v, hplace', hv, hkeeps⟩ := exists_of_put_eq_ok hput
    obtain ⟨rfl, rfl⟩ := Prod.mk.inj (Option.some.inj (hplace.symm.trans hplace'))
    obtain ⟨hlt, -⟩ := List.idxOf?_eq_some_iff.1 hv
    have hdigit : Palette.digit (withDigit n weight prop.values.length v) weight
        prop.values.length = v := digit_withDigit (weight_pos hplace hn) hlt
    rw [hkeeps] at hdigit
    rw [hv, hdigit]
  · intro hv
    rw [put_of_idxOf? hplace hv, withDigit_digit]

/-- Writing the value that is read changes nothing just if no value that can be read repeats. -/
theorem valuesDistinct_iff (hsize : 0 < b.size) :
    b.ValuesDistinct ↔ ∀ n < b.size, ∀ prop ∈ b.properties,
      ∃ value, b.get? n prop.name = some value ∧ b.put n prop.name value = .ok n := by
  constructor
  · intro h n hn prop hprop
    obtain ⟨value, hvalue, -⟩ := exists_get? hn hprop
    refine ⟨value, hvalue, ?_⟩
    obtain ⟨⟨found, weight⟩, hplace, hget⟩ := Option.bind_eq_some_iff.1 hvalue
    obtain ⟨hlt, rfl⟩ := List.getElem?_eq_some_iff.1 hget
    have hnodup := h _ found (mem_find?_iff.2 ⟨weight, hplace⟩)
    exact (put_eq_self_iff hplace hn).2 (List.idxOf?_eq_some_iff.2 ⟨hlt, rfl, fun j hj hsame =>
      Nat.ne_of_lt hj (hnodup.getElem_inj_iff.1 hsame)⟩)
  · intro h name found hfound
    obtain ⟨weight, hplace⟩ := mem_find?_iff.1 hfound
    obtain rfl : found.name = name := by simpa using List.find?_some hfound
    refine List.nodup_iff_getElem?_ne_getElem?.2 fun j k hjk hk hsame => ?_
    -- in the state with the later digit, the value that is read is found at the earlier one
    have hweight := weight_pos hplace hsize
    have hbound := withDigit_lt (weight_mul_dvd_choices hplace) hweight hk hsize
    obtain ⟨value, hvalue, hput⟩ := h _ hbound found (List.mem_of_find?_eq_some hfound)
    have hdigit := (put_eq_self_iff hplace hbound).1 hput
    rw [digit_withDigit hweight hk] at hdigit
    rw [get?, hplace, Option.bind_some, digit_withDigit hweight hk, ← hsame,
      List.getElem?_eq_getElem (hjk.trans hk)] at hvalue
    obtain ⟨_, -, hfirst⟩ := List.idxOf?_eq_some_iff.1 hdigit
    exact hfirst j hjk (Option.some.inj hvalue)

end Block

/-! ## States -/

namespace Palette

open Relation (ReflTransGen)

/-- The second state differs from the first by writing one property. -/
def Writes (p : Palette) (s t : Int64) : Prop := ∃ name value, p.setProperty s name value = .ok t

section

variable {blocks : List Block} {p : Palette} {s t : Int64} {e : Entry} {n m : Nat}

theorem reaches_of_writes (hfits : (assign blocks).size < 2 ^ 63)
    (hs : (assign blocks).IsNth s e n) (h : ReflTransGen e.block.Writes n m) :
    ∃ t, (assign blocks).IsNth t e m ∧ ReflTransGen (assign blocks).Writes s t := by
  induction h with
  | refl => exact ⟨s, hs, .refl⟩
  | tail _ hwrites ih =>
    obtain ⟨t, ht, hreach⟩ := ih
    obtain ⟨name, value, hput⟩ := hwrites
    refine ⟨_, isNth_nth hfits hs.1 (Block.put_lt ht.2.1 hput), hreach.tail ⟨name, value, ?_⟩⟩
    rw [ht.setProperty_eq, hput]
    rfl

theorem exists_of_reaches (hfits : (assign blocks).size < 2 ^ 63)
    (hs : (assign blocks).IsNth s e n) (h : ReflTransGen (assign blocks).Writes s t) :
    ∃ m, (assign blocks).IsNth t e m ∧ ReflTransGen e.block.Writes n m := by
  induction h with
  | refl => exact ⟨n, hs, .refl⟩
  | tail _ hwrites ih =>
    obtain ⟨m, ht, hreach⟩ := ih
    obtain ⟨name, value, hset⟩ := hwrites
    obtain ⟨k, hput, rfl⟩ := ht.exists_of_setProperty_eq_ok hset
    exact ⟨k, isNth_nth hfits hs.1 (Block.put_lt ht.2.1 hput), hreach.tail ⟨name, value, hput⟩⟩

/-- What is true of all states of a block is true of all places in it. -/
theorem forall_states_iff (h : ofBlocks blocks = .ok p) (hfits : p.size < 2 ^ 63)
    (he : e ∈ p.entries) {P : Int64 → Prop} :
    (∀ s, p.block? s = some e.block → P s) ↔ ∀ n < e.block.size, P (e.nth n) := by
  have hp := eq_of_ofBlocks h
  subst hp
  constructor
  · exact fun hall n hn => hall _ (isNth_nth hfits he hn).block?
  · intro hall s hs
    obtain ⟨f, howner, hblock⟩ := Option.map_eq_some_iff.1 hs
    obtain ⟨-, hf, -⟩ := owner?_eq_some_iff.1 howner
    obtain rfl := eq_of_name_eq h hf he (congrArg Block.name hblock)
    obtain ⟨n, hn⟩ := exists_isNth howner
    rw [hn.eq (isNth_nth hfits he hn.2.1)]
    exact hall n hn.2.1

section

variable (hfits : (assign blocks).size < 2 ^ 63) (he : e ∈ (assign blocks).entries)
  (hn : n < e.block.size)

include hfits he hn

theorem nth_eq_nth_iff (hm : m < e.block.size) : e.nth n = e.nth m ↔ n = m := by
  refine ⟨fun heq => ?_, congrArg e.nth⟩
  rw [← (isNth_nth hfits he hn).toNat_sub_first, heq, (isNth_nth hfits he hm).toNat_sub_first]

/-- A state is reached by writing just if its place is. -/
theorem reaches_nth_iff (hm : m < e.block.size) :
    ReflTransGen (assign blocks).Writes (e.nth n) (e.nth m) ↔ ReflTransGen e.block.Writes n m := by
  constructor
  · intro h
    obtain ⟨k, hk, hreach⟩ := exists_of_reaches hfits (isNth_nth hfits he hn) h
    rwa [← hk.toNat_sub_first, (isNth_nth hfits he hm).toNat_sub_first] at hreach
  · intro h
    obtain ⟨t, ht, hreach⟩ := reaches_of_writes hfits (isNth_nth hfits he hn) h
    rwa [ht.eq (isNth_nth hfits he hm)] at hreach

theorem setProperty_nth_iff (name value : String) :
    (assign blocks).setProperty (e.nth n) name value = .ok (e.nth n) ↔
      e.block.put n name value = .ok n := by
  rw [(isNth_nth hfits he hn).setProperty_eq]
  cases hput : e.block.put n name value with
  | error error => exact ⟨nofun, nofun⟩
  | ok m =>
    have hiff := nth_eq_nth_iff hfits he (Block.put_lt hn hput) hn
    exact ⟨fun heq => congrArg Except.ok (hiff.1 (Except.ok.inj heq)),
      fun heq => congrArg Except.ok (hiff.2 (Except.ok.inj heq))⟩

end

/-- As long as the numbers are of 64 bits: the states of a block are told apart by the values of its
    properties just if the block is unambiguous, and just then all of them are reached from its
    first state by writing properties.  Writing the value that a property has leaves every state as
    it is just if no property has a value twice, but for those that are hidden behind another of
    their name; so it is in an unambiguous block. -/
theorem told_apart (h : ofBlocks blocks = .ok p) (hfits : p.size < 2 ^ 63) (he : e ∈ p.entries) :
    (e.block.Unambiguous ↔
      ∀ s, p.block? s = some e.block → ∀ t, p.block? t = some e.block →
        (∀ prop ∈ e.block.properties, p.property? s prop.name = p.property? t prop.name) →
          s = t) ∧
      (e.block.Unambiguous ↔
        ∀ s, p.block? s = some e.block → ReflTransGen p.Writes (Int64.ofNat e.first) s) ∧
      (e.block.ValuesDistinct ↔
        ∀ s, p.block? s = some e.block → ∀ prop ∈ e.block.properties,
          ∃ value, p.property? s prop.name = some value ∧
            p.setProperty s prop.name value = .ok s) ∧
      (e.block.Unambiguous → e.block.ValuesDistinct) := by
  have hsize := size_pos_of_mem h he
  have hstates {P : Int64 → Prop} := forall_states_iff (P := P) h hfits he
  obtain rfl := eq_of_ofBlocks h
  refine ⟨?_, ?_, ?_, Block.Unambiguous.valuesDistinct⟩
  · rw [Block.unambiguous_iff_told_apart hsize, hstates]
    refine forall₂_congr fun n hn => ?_
    rw [hstates]
    refine forall₂_congr fun m hm => ?_
    simp only [(isNth_nth hfits he hn).property?_eq, (isNth_nth hfits he hm).property?_eq,
      nth_eq_nth_iff hfits he hn hm]
  · rw [Block.unambiguous_iff_reached hsize, hstates]
    exact forall₂_congr fun n hn => (reaches_nth_iff hfits he hsize hn).symm
  · rw [Block.valuesDistinct_iff hsize, hstates]
    refine forall₂_congr fun n hn => ?_
    simp only [(isNth_nth hfits he hn).property?_eq, setProperty_nth_iff hfits he hn]

/-- The lamp of `lampBlocks` and its first number. -/
def lampEntry : Entry := ⟨lampBlocks[1], 1⟩

/-- Colour, level and light tell the states of the lamp apart and lead from its first state to its
    last one. -/
theorem told_apart_lamp :
    ∃ p, ofBlocks lampBlocks = .ok p ∧ p.size < 2 ^ 63 ∧ lampEntry ∈ p.entries ∧
      lampEntry.block.Unambiguous ∧
      ¬ (∀ prop ∈ lampEntry.block.properties, p.property? 8 prop.name = p.property? 12 prop.name) ∧
      ReflTransGen p.Writes 1 12 ∧
      ∃ value, p.property? 12 "level" = some value ∧ p.setProperty 12 "level" value = .ok 12 := by
  have hp : ofBlocks lampBlocks = .ok (assign lampBlocks) := by rfl
  have hlamp : lampEntry ∈ (assign lampBlocks).entries := by decide
  have hclear : lampEntry.block.Unambiguous := ⟨by decide, by decide⟩
  obtain ⟨hapart, hreached, hkeeps, hdistinct⟩ := told_apart hp (by decide) hlamp
  refine ⟨_, hp, by decide, hlamp, hclear, fun hsame => ?_, hreached.1 hclear 12 (by decide), ?_⟩
  · exact absurd (hapart.1 hclear 8 (by decide) 12 (by decide) hsame) (by decide)
  · exact hkeeps.1 (hdistinct hclear) 12 (by decide) ⟨"level", ["low", "mid", "high"]⟩ (by decide)

/-- Air, and a lamp with the same value twice. -/
def doubledLamp : List Block := [⟨"air", []⟩, ⟨"lamp", [⟨"lit", ["on", "on"]⟩]⟩]

/-- The two states of the lamp have the same values, and writing the value that the second one has
    leads to the first. -/
theorem exists_not_told_apart :
    ∃ p, ofBlocks doubledLamp = .ok p ∧ p.block? 1 = some doubledLamp[1] ∧
      p.block? 2 = some doubledLamp[1] ∧
      (∀ prop ∈ doubledLamp[1].properties, p.property? 1 prop.name = p.property? 2 prop.name) ∧
      p.property? 2 "lit" = some "on" ∧ p.setProperty 2 "lit" "on" = .ok 1 :=
  ⟨assign doubledLamp, rfl, by decide, by decide, by decide, by decide, rfl⟩

end

end Palette

end BlockAutomata
