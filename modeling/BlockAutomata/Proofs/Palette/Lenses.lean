/-
  The properties of a state are lenses, and different ones do not get in each other's way.

  1. **Digits.**  Replacing a digit leaves what is above it (`withDigit_div`) and what is below it
     (`withDigit_mod`).  So the digits of two places do not disturb each other if one place lies
     wholly above the other, that is, if its weight is a multiple of weight times size of the other.

  2. **Weights.**  The places of two properties of a block always lie so (`weights_apart`), since
     the weight of a property counts the choices for all properties after it.

  3. **Blocks.**  Reading and writing a property of the n-th state of a block (`Block.get?`,
     `Block.put`) therefore obeys the laws of independent lenses.

  4. **States.**  As the ranges of blocks do not meet, a state is a block and a place in it, and
     writing stays within the block (`IsNth.setProperty_eq`); so the laws hold of states as well.
-/
import BlockAutomata.Proofs.Palette.Layout
import Mathlib.Algebra.Group.Nat.Defs

namespace BlockAutomata

namespace Palette

/-! ## Digits -/

/-- The number with another digit in the place. -/
def withDigit (n weight size value : Nat) : Nat := n - digit n weight size * weight + value * weight

section

variable {n weight size value : Nat}

/-- A digit depends on nothing above its place. -/
theorem digit_eq_mod_div (n weight size : Nat) :
    digit n weight size = n % (weight * size) / weight :=
  (Nat.mod_mul_right_div_self n weight size).symm

theorem withDigit_add (n weight size value : Nat) :
    withDigit n weight size value + digit n weight size * weight = n + value * weight := by
  have hle : digit n weight size * weight ≤ n :=
    Nat.le_trans (Nat.mul_le_mul_right weight (Nat.mod_le _ _)) (Nat.div_mul_le_self n weight)
  rw [withDigit]
  omega

/-- What is above the place, the digit, and what is below it. -/
theorem withDigit_eq (n weight size value : Nat) :
    withDigit n weight size value =
      weight * (size * (n / weight / size) + value) + n % weight := by
  have hadd := withDigit_add n weight size value
  have hbelow := Nat.div_add_mod n weight
  have habove : size * (n / weight / size) + digit n weight size = n / weight :=
    Nat.div_add_mod _ _
  rw [← habove, Nat.mul_add, Nat.mul_comm weight (digit n weight size)] at hbelow
  rw [Nat.mul_add, Nat.mul_comm weight value]
  omega

theorem withDigit_div_weight (hweight : 0 < weight) :
    withDigit n weight size value / weight = size * (n / weight / size) + value := by
  rw [withDigit_eq, Nat.mul_add_div hweight, Nat.div_eq_of_lt (Nat.mod_lt _ hweight), Nat.add_zero]

theorem digit_withDigit (hweight : 0 < weight) (hvalue : value < size) :
    digit (withDigit n weight size value) weight size = value := by
  rw [digit, withDigit_div_weight hweight, Nat.mul_add_mod, Nat.mod_eq_of_lt hvalue]

/-- Nothing changes above the place. -/
theorem withDigit_div (hweight : 0 < weight) (hvalue : value < size) :
    withDigit n weight size value / (weight * size) = n / (weight * size) := by
  have hsize : 0 < size := Nat.lt_of_le_of_lt (Nat.zero_le _) hvalue
  rw [← Nat.div_div_eq_div_mul, withDigit_div_weight hweight, Nat.mul_add_div hsize,
    Nat.div_eq_of_lt hvalue, Nat.add_zero, Nat.div_div_eq_div_mul]

/-- Nothing changes below the place. -/
theorem withDigit_mod {m : Nat} (h : m ∣ weight) :
    withDigit n weight size value % m = n % m := by
  obtain ⟨k, rfl⟩ := h
  have hadd := congrArg (· % m) (withDigit_add n (m * k) size value)
  simp only [Nat.mul_left_comm _ m, Nat.add_mul_mod_self_left] at hadd
  exact hadd

/-- Writing a digit again overwrites it. -/
theorem withDigit_withDigit (hweight : 0 < weight) (hvalue : value < size) (again : Nat) :
    withDigit (withDigit n weight size value) weight size again =
      withDigit n weight size again := by
  have hfirst := withDigit_add n weight size value
  have hagain := withDigit_add n weight size again
  have hsecond := withDigit_add (withDigit n weight size value) weight size again
  -- the two digits written first cancel out
  rw [digit_withDigit hweight hvalue] at hsecond
  omega

/-- A number stays below every multiple of what its place spans. -/
theorem withDigit_lt {bound : Nat} (hbound : weight * size ∣ bound) (hweight : 0 < weight)
    (hvalue : value < size) (hn : n < bound) : withDigit n weight size value < bound := by
  obtain ⟨k, rfl⟩ := hbound
  have hspan : 0 < weight * size :=
    Nat.mul_pos hweight (Nat.lt_of_le_of_lt (Nat.zero_le _) hvalue)
  rw [Nat.mul_comm] at hn ⊢
  rw [← Nat.div_lt_iff_lt_mul hspan] at hn ⊢
  rwa [withDigit_div hweight hvalue]

end

/-- One of two places lies wholly above the other. -/
def Apart (weight size weight' size' : Nat) : Prop :=
  weight * size ∣ weight' ∨ weight' * size' ∣ weight

section

variable {n weight size value weight' size' value' : Nat}

theorem Apart.symm (h : Apart weight size weight' size') : Apart weight' size' weight size :=
  Or.symm h

/-- A digit does not change with another one. -/
theorem Apart.digit_withDigit (h : Apart weight size weight' size') (hweight : 0 < weight)
    (hvalue : value < size) :
    digit (withDigit n weight size value) weight' size' = digit n weight' size' := by
  rcases h with ⟨k, rfl⟩ | h
  · rw [digit, digit, ← Nat.div_div_eq_div_mul, withDigit_div hweight hvalue,
      Nat.div_div_eq_div_mul]
  · rw [digit_eq_mod_div, digit_eq_mod_div, withDigit_mod h]

/-- Two digits are written in any order. -/
theorem Apart.withDigit_comm (h : Apart weight size weight' size') (hweight : 0 < weight)
    (hvalue : value < size) (hweight' : 0 < weight') (hvalue' : value' < size') :
    withDigit (withDigit n weight size value) weight' size' value' =
      withDigit (withDigit n weight' size' value') weight size value := by
  have hfirst := withDigit_add n weight size value
  have hsecond := withDigit_add (withDigit n weight size value) weight' size' value'
  have hfirst' := withDigit_add n weight' size' value'
  have hsecond' := withDigit_add (withDigit n weight' size' value') weight size value
  -- each digit is the same whether or not the other has been written
  rw [h.digit_withDigit hweight hvalue] at hsecond
  rw [h.symm.digit_withDigit hweight' hvalue'] at hsecond'
  omega

end

end Palette

/-! ## Weights -/

section

variable {props : List Block.Property} {name other : String} {prop prop' : Block.Property}
  {weight weight' : Nat}

/-- The place of a property lies within the number of choices. -/
theorem weight_mul_dvd_choices (h : weighted? name props = some (prop, weight)) :
    weight * prop.values.length ∣ choices props := by
  induction props with
  | nil => cases h
  | cons first rest ih =>
    rw [weighted?] at h
    split at h
    · obtain ⟨rfl, rfl⟩ := Prod.mk.inj (Option.some.inj h)
      exact ⟨1, (Nat.mul_comm _ _).trans (Nat.mul_one _).symm⟩
    · exact Nat.dvd_trans (ih h) (Nat.dvd_mul_left _ _)

/-- Properties of different names have places apart from each other. -/
theorem weights_apart (h : weighted? name props = some (prop, weight))
    (h' : weighted? other props = some (prop', weight')) (hne : other ≠ name) :
    Palette.Apart weight prop.values.length weight' prop'.values.length := by
  induction props with
  | nil => cases h
  | cons first rest ih =>
    rw [weighted?] at h h'
    split at h <;> split at h'
    · rename_i hfirst hfirst'
      exact absurd (hfirst'.symm.trans hfirst) hne
    · -- the first property has everything else below it
      obtain ⟨rfl, rfl⟩ := Prod.mk.inj (Option.some.inj h)
      exact .inr (weight_mul_dvd_choices h')
    · obtain ⟨rfl, rfl⟩ := Prod.mk.inj (Option.some.inj h')
      exact .inl (weight_mul_dvd_choices h)
    · exact ih h h'

theorem find?_eq_map_weighted? (name : String) (props : List Block.Property) :
    props.find? (fun prop => prop.name = name) = (weighted? name props).map Prod.fst := by
  induction props with
  | nil => rfl
  | cons first rest ih =>
    rw [weighted?, List.find?_cons]
    by_cases hname : first.name = name
    · rw [if_pos hname, decide_eq_true hname]
      rfl
    · rw [if_neg hname, decide_eq_false hname]
      exact ih

theorem weighted?_eq_none_iff :
    weighted? name props = none ↔ ∀ prop ∈ props, prop.name ≠ name := by
  have hfind := find?_eq_map_weighted? name props
  rw [← Option.map_eq_none_iff (f := Prod.fst), ← hfind, List.find?_eq_none]
  simp only [decide_eq_true_eq, ne_eq]

end

/-! ## Blocks -/

namespace Block

open Palette

/-- The value that a property has in the n-th state of a block. -/
def get? (b : Block) (n : Nat) (name : String) : Option String :=
  (weighted? name b.properties).bind fun place =>
    place.1.values[digit n place.2 place.1.values.length]?

/-- The place in the block of the state that differs by the value of one property. -/
def put (b : Block) (n : Nat) (name value : String) : Except Palette.Error Nat :=
  match weighted? name b.properties with
  | none => .error (.noProperty b.name name)
  | some (prop, weight) =>
    match prop.values.idxOf? value with
    | none => .error (.noValue b.name name value)
    | some v => .ok (withDigit n weight prop.values.length v)

variable {b : Block} {n m : Nat} {name value other : String} {prop : Block.Property} {weight : Nat}

/-! ### When a property is written -/

theorem put_of_none (hprop : weighted? name b.properties = none) (n : Nat) (value : String) :
    b.put n name value = .error (.noProperty b.name name) := by
  simp only [put, hprop]

theorem put_of_not_mem (hprop : weighted? name b.properties = some (prop, weight))
    (hvalue : value ∉ prop.values) (n : Nat) :
    b.put n name value = .error (.noValue b.name name value) := by
  simp only [put, hprop, List.idxOf?_eq_none_iff.2 hvalue]

theorem put_of_idxOf? (hprop : weighted? name b.properties = some (prop, weight)) {v : Nat}
    (hv : prop.values.idxOf? value = some v) (n : Nat) :
    b.put n name value = .ok (withDigit n weight prop.values.length v) := by
  simp only [put, hprop, hv]

/-- What it takes to write a property. -/
theorem exists_of_put_eq_ok (h : b.put n name value = .ok m) :
    ∃ prop weight v, weighted? name b.properties = some (prop, weight) ∧
      prop.values.idxOf? value = some v ∧ withDigit n weight prop.values.length v = m := by
  unfold put at h
  split at h
  · cases h
  · rename_i prop weight hprop
    split at h
    · cases h
    · rename_i v hv
      exact ⟨prop, weight, v, hprop, hv, Except.ok.inj h⟩

/-- A property cannot be written if the block lacks it, or if it does not have the value. -/
theorem exists_put_eq_error_iff :
    (∃ error, b.put n name value = .error error) ↔
      (∀ prop ∈ b.properties, prop.name ≠ name) ∨
        ∃ prop, b.properties.find? (fun prop => prop.name = name) = some prop ∧
          value ∉ prop.values := by
  rw [find?_eq_map_weighted?, ← weighted?_eq_none_iff]
  cases hprop : weighted? name b.properties with
  | none => exact ⟨fun _ => .inl rfl, fun _ => ⟨_, put_of_none hprop n value⟩⟩
  | some place =>
    obtain ⟨prop, weight⟩ := place
    constructor
    · rintro ⟨error, h⟩
      refine .inr ⟨prop, rfl, fun hmem => ?_⟩
      cases hv : prop.values.idxOf? value with
      | none => exact List.idxOf?_eq_none_iff.1 hv hmem
      | some v =>
        rw [put_of_idxOf? hprop hv] at h
        cases h
    · rintro (hnone | ⟨prop, hsome, hvalue⟩)
      · cases hnone
      · obtain rfl := Option.some.inj hsome
        exact ⟨_, put_of_not_mem hprop hvalue n⟩

/-! ### The laws -/

theorem idxOf?_lt {v : Nat} (h : prop.values.idxOf? value = some v) : v < prop.values.length :=
  (List.idxOf?_eq_some_iff.1 h).1

/-- A block with states has no property without values. -/
theorem weight_pos (hprop : weighted? name b.properties = some (prop, weight)) (hn : n < b.size) :
    0 < weight := by
  have hsize : 0 < b.size := Nat.lt_of_le_of_lt (Nat.zero_le n) hn
  exact Nat.pos_of_mul_pos_right (Nat.pos_of_dvd_of_pos (weight_mul_dvd_choices hprop) hsize)

theorem put_lt (hn : n < b.size) (h : b.put n name value = .ok m) : m < b.size := by
  obtain ⟨prop, weight, v, hprop, hv, rfl⟩ := exists_of_put_eq_ok h
  exact withDigit_lt (weight_mul_dvd_choices hprop) (weight_pos hprop hn) (idxOf?_lt hv) hn

/-- What was written is read. -/
theorem get?_put (hn : n < b.size) (h : b.put n name value = .ok m) :
    b.get? m name = some value := by
  obtain ⟨prop, weight, v, hprop, hv, rfl⟩ := exists_of_put_eq_ok h
  obtain ⟨hlt, hget, -⟩ := List.idxOf?_eq_some_iff.1 hv
  rw [get?, hprop, Option.bind_some, digit_withDigit (weight_pos hprop hn) hlt,
    List.getElem?_eq_getElem hlt, hget]

/-- Nothing else is read differently. -/
theorem get?_put_of_ne (hn : n < b.size) (h : b.put n name value = .ok m) (hne : other ≠ name) :
    b.get? m other = b.get? n other := by
  obtain ⟨prop, weight, v, hprop, hv, rfl⟩ := exists_of_put_eq_ok h
  rw [get?, get?]
  cases hother : weighted? other b.properties with
  | none => rfl
  | some place =>
    have hapart := weights_apart hprop hother hne
    rw [Option.bind_some, Option.bind_some,
      hapart.digit_withDigit (weight_pos hprop hn) (idxOf?_lt hv)]

/-- Writing again overwrites. -/
theorem put_put (hn : n < b.size) (h : b.put n name value = .ok m) (again : String) :
    b.put m name again = b.put n name again := by
  obtain ⟨prop, weight, v, hprop, hv, rfl⟩ := exists_of_put_eq_ok h
  cases hagain : prop.values.idxOf? again with
  | none =>
    have hmem := List.idxOf?_eq_none_iff.1 hagain
    rw [put_of_not_mem hprop hmem, put_of_not_mem hprop hmem]
  | some u =>
    rw [put_of_idxOf? hprop hagain, put_of_idxOf? hprop hagain,
      withDigit_withDigit (weight_pos hprop hn) (idxOf?_lt hv)]

/-- Different properties are written in any order. -/
theorem put_comm (hn : n < b.size) (h : b.put n name value = .ok m) (hne : other ≠ name)
    (value' : String) :
    b.put m other value' = (b.put n other value').bind fun k => b.put k name value := by
  obtain ⟨prop, weight, v, hprop, hv, rfl⟩ := exists_of_put_eq_ok h
  cases hother : weighted? other b.properties with
  | none => rw [put_of_none hother, put_of_none hother]; rfl
  | some place =>
    obtain ⟨prop', weight'⟩ := place
    cases hv' : prop'.values.idxOf? value' with
    | none =>
      have hmem := List.idxOf?_eq_none_iff.1 hv'
      rw [put_of_not_mem hother hmem, put_of_not_mem hother hmem]
      rfl
    | some u =>
      have hcomm := (weights_apart hprop hother hne).withDigit_comm (n := n) (weight_pos hprop hn)
        (idxOf?_lt hv) (weight_pos hother hn) (idxOf?_lt hv')
      rw [put_of_idxOf? hother hv', put_of_idxOf? hother hv', hcomm]
      exact (put_of_idxOf? hprop hv _).symm

end Block

/-! ## States -/

namespace Palette

/-- The n-th state of a block. -/
def Entry.nth (e : Entry) (n : Nat) : Int64 := Int64.ofNat (e.first + n)

variable {blocks : List Block} {s : Int64} {e : Entry} {n : Nat}

theorem isNth_nth (hfits : (assign blocks).size < 2 ^ 63) (he : e ∈ (assign blocks).entries)
    (hn : n < e.block.size) : (assign blocks).IsNth (e.nth n) e n := by
  have hbound := (bounds_of_mem_layout he).2
  rw [size_assign] at hfits
  exact ⟨he, hn, Int64.toInt_ofNat_of_lt (by omega)⟩

/-- A property of a state is that of its place in the block. -/
theorem IsNth.property?_eq (h : (assign blocks).IsNth s e n) (name : String) :
    (assign blocks).property? s name = e.block.get? n name := by
  rw [property?, h.owner?, Block.get?, Option.bind_eq_bind, Option.bind_some,
    h.toNat_sub_first]
  rfl

/-- Writing a property is writing it in the block. -/
theorem IsNth.setProperty_eq (h : (assign blocks).IsNth s e n) (name value : String) :
    (assign blocks).setProperty s name value = (e.block.put n name value).map e.nth := by
  unfold setProperty Block.put
  rw [h.owner?]
  dsimp only
  cases weighted? name e.block.properties with
  | none => rfl
  | some place =>
    obtain ⟨prop, weight⟩ := place
    dsimp only
    cases prop.values.idxOf? value with
    | none => rfl
    | some v =>
      have hadd := congrArg Int.ofNat (withDigit_add n weight prop.values.length v)
      refine congrArg Except.ok ?_
      rw [h.toNat_sub_first, h.2.2, Entry.nth, ← Int64.ofInt_eq_ofNat, Int.sub_mul]
      congr 1
      simp only [Int.ofNat_eq_natCast, Int.natCast_add, Int.natCast_mul] at hadd ⊢
      omega

/-- A state that was written is a state of the same block. -/
theorem IsNth.exists_of_setProperty_eq_ok (h : (assign blocks).IsNth s e n) {s' : Int64}
    {name value : String} (hset : (assign blocks).setProperty s name value = .ok s') :
    ∃ m, e.block.put n name value = .ok m ∧ e.nth m = s' := by
  rw [h.setProperty_eq] at hset
  cases hm : e.block.put n name value with
  | error error => rw [hm] at hset; cases hset
  | ok m => rw [hm] at hset; exact ⟨m, rfl, Except.ok.inj hset⟩

theorem IsNth.exists_setProperty_eq_error_iff (h : (assign blocks).IsNth s e n)
    (name value : String) :
    (∃ error, (assign blocks).setProperty s name value = .error error) ↔
      ∃ error, e.block.put n name value = .error error := by
  rw [h.setProperty_eq]
  cases e.block.put n name value with
  | error error => exact ⟨fun _ => ⟨error, rfl⟩, fun _ => ⟨error, rfl⟩⟩
  | ok m => constructor <;> rintro ⟨error, hm⟩ <;> cases hm

/-- Different properties of a state are written in any order. -/
theorem IsNth.setProperty_comm (h : (assign blocks).IsNth s e n)
    (hfits : (assign blocks).size < 2 ^ 63) {s' : Int64} {name value other : String}
    (hset : (assign blocks).setProperty s name value = .ok s') (hne : other ≠ name)
    (value' : String) :
    (assign blocks).setProperty s' other value' =
      ((assign blocks).setProperty s other value').bind fun t =>
        (assign blocks).setProperty t name value := by
  obtain ⟨m, hm, rfl⟩ := h.exists_of_setProperty_eq_ok hset
  have hs' := isNth_nth hfits h.1 (Block.put_lt h.2.1 hm)
  rw [hs'.setProperty_eq, h.setProperty_eq, Block.put_comm h.2.1 hm hne]
  cases hk : e.block.put n other value' with
  | error error => rfl
  | ok k =>
    have ht := isNth_nth hfits h.1 (Block.put_lt h.2.1 hk)
    exact (ht.setProperty_eq name value).symm

/-- A number without an owner is no state. -/
theorem setProperty_of_owner?_eq_none {p : Palette} (h : p.owner? s = none) (name value : String) :
    p.setProperty s name value = .error (.noState s) := by
  rw [setProperty, h]

/-- Properties are independent lenses.  Writing one keeps the block, is read back, leaves all others
    as they are, is overwritten by writing again, and can be done before or after writing another
    one.  It fails just if the number is no state, the block lacks the property, or the property
    does not have the value. -/
theorem setProperty_lens {p : Palette} (h : ofBlocks blocks = .ok p) (hfits : p.size < 2 ^ 63)
    (s : Int64) (name value : String) :
    (∀ s', p.setProperty s name value = .ok s' →
      p.property? s' name = some value ∧
        p.block? s' = p.block? s ∧
        (∀ other ≠ name, p.property? s' other = p.property? s other) ∧
        (∀ again, p.setProperty s' name again = p.setProperty s name again) ∧
        ∀ other ≠ name, ∀ value',
          p.setProperty s' other value' =
            (p.setProperty s other value').bind fun t => p.setProperty t name value) ∧
      ((∃ error, p.setProperty s name value = .error error) ↔
        ¬ (0 ≤ s.toInt ∧ s.toInt < p.size) ∨
          ∃ b, p.block? s = some b ∧
            ((∀ prop ∈ b.properties, prop.name ≠ name) ∨
              ∃ prop, b.properties.find? (fun prop => prop.name = name) = some prop ∧
                value ∉ prop.values)) := by
  obtain rfl := eq_of_ofBlocks h
  cases howner : (assign blocks).owner? s with
  | none =>
    have hfails := setProperty_of_owner?_eq_none howner name value
    refine ⟨fun s' hs' => ?_, ⟨fun _ => .inl (owner?_eq_none_iff.1 howner), fun _ => ⟨_, hfails⟩⟩⟩
    rw [hfails] at hs'
    cases hs'
  | some e =>
    obtain ⟨n, hs⟩ := exists_isNth howner
    have hn : n < e.block.size := hs.2.1
    constructor
    · intro s' hset
      obtain ⟨m, hm, rfl⟩ := hs.exists_of_setProperty_eq_ok hset
      have hs' := isNth_nth hfits hs.1 (Block.put_lt hn hm)
      refine ⟨?_, ?_, ?_, ?_, fun other hne => hs.setProperty_comm hfits hset hne⟩
      · rw [hs'.property?_eq, Block.get?_put hn hm]
      · rw [hs'.block?, hs.block?]
      · intro other hne
        rw [hs'.property?_eq, hs.property?_eq, Block.get?_put_of_ne hn hm hne]
      · intro again
        rw [hs'.setProperty_eq, hs.setProperty_eq, Block.put_put hn hm]
    · rw [hs.exists_setProperty_eq_error_iff, hs.block?, Block.exists_put_eq_error_iff]
      constructor
      · exact fun hlacks => .inr ⟨_, rfl, hlacks⟩
      · rintro (hout | ⟨b, hb, hlacks⟩)
        · exact absurd hs.inRange hout
        · obtain rfl := Option.some.inj hb
          exact hlacks

/-- A lamp with three properties of different sizes. -/
def lampBlocks : List Block :=
  [⟨"air", []⟩,
    ⟨"lamp", [⟨"colour", ["red", "green"]⟩, ⟨"level", ["low", "mid", "high"]⟩,
      ⟨"lit", ["no", "yes"]⟩]⟩]

/-- The level of a green lamp that is lit is raised, and it stays green and lit. -/
theorem setProperty_lens_lamp :
    ∃ p, ofBlocks lampBlocks = .ok p ∧ p.setProperty 8 "level" "high" = .ok 12 ∧
      p.property? 12 "level" = some "high" ∧ p.property? 12 "colour" = p.property? 8 "colour" ∧
      p.property? 12 "lit" = p.property? 8 "lit" := by
  have hp : ofBlocks lampBlocks = .ok (assign lampBlocks) := by rfl
  have hset : (assign lampBlocks).setProperty 8 "level" "high" = .ok 12 := by rfl
  obtain ⟨hlevel, -, hothers, -⟩ := (setProperty_lens hp (by decide) 8 "level" "high").1 12 hset
  exact ⟨_, hp, hset, hlevel, hothers "colour" (by decide), hothers "lit" (by decide)⟩

end Palette

end BlockAutomata
