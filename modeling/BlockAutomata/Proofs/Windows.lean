/-
  Where displacements stand in a flattened window.

  1. `windowOffsets_eq` — listing the displacements axis by axis gives, at every place, the
     displacement that the layout of windows puts there.

  2. The layout is a bijection between the displacements of norm at most `radius` and the places
     below the volume (`offsetOf_of_place?`, `place?_offsetOf`), as long as the window is not so
     large that its coordinates wrap around.

  3. Hence looking a displacement up in the list is the same as computing its place
     (`idxOf?_windowOffsets`, `getElem?_windowOffsets_iff`), and the list has every displacement of
     the cube once and no other (`count_windowOffsets`).

  4. Windows compute places on 32 bits.  What they compute on the way is at most the place, and this
     is below the volume.  So nothing wraps around in a window (`indexOf?_eq_place?`), and beyond
     the largest windows the places of some displacements are no numbers of 32 bits
     (`ofView?_eq_none_iff`).

  5. Two displacements never share a place, so a window shows what was written last
     (`read_set_self`), and a write shows nowhere else (`read_set_of_ne`).  A write outside the cube
     does nothing (`set_of_lt_norm`).

  6. The flattened form has the planes of the channels one after the other (`getElem?_flatten`).
-/
import BlockAutomata.Kernel.Code
import BlockAutomata.Window

namespace BlockAutomata

/-! ## Rows of equal length -/

/-- `n` rows of `m` entries each, read row by row. -/
theorem range_flatMap_map {α : Type} (n m : Nat) (f : Nat → Nat → α) :
    ((List.range n).flatMap fun a => (List.range m).map fun b => f a b) =
      (List.range (n * m)).map fun i => f (i / m) (i % m) := by
  induction n with
  | zero => simp
  | succ n ih =>
    rw [List.range_succ, List.flatMap_append, ih, Nat.succ_mul, List.range_add, List.map_append,
      List.map_map]
    congr 1
    rw [List.flatMap_singleton]
    refine List.map_congr_left fun b hb => ?_
    have hm : 0 < m := Nat.lt_of_le_of_lt (Nat.zero_le b) (List.mem_range.1 hb)
    have hdiv : (n * m + b) / m = n := by
      rw [Nat.mul_comm, Nat.mul_add_div hm, Nat.div_eq_of_lt (List.mem_range.1 hb), Nat.add_zero]
    have hmod : (n * m + b) % m = b := by
      rw [Nat.mul_comm, Nat.mul_add_mod, Nat.mod_eq_of_lt (List.mem_range.1 hb)]
    show f n b = f ((n * m + b) / m) ((n * m + b) % m)
    rw [hdiv, hmod]

namespace Window

/-- The displacements of a window in the order of its flattened form, by their places. -/
theorem windowOffsets_eq (radius : Nat) :
    Kernel.windowOffsets radius = (List.range (windowVolume radius)).map (offsetOf radius) := by
  unfold Kernel.windowOffsets Kernel.axis
  simp only [List.flatMap_map, List.map_map, Function.comp_def]
  have hplane : ∀ z : Nat,
      ((List.range (2 * radius + 1)).flatMap fun (y : Nat) =>
        (List.range (2 * radius + 1)).map fun (x : Nat) =>
        (⟨Int32.ofInt ((x : Int) - radius), Int32.ofInt ((y : Int) - radius),
          Int32.ofInt ((z : Int) - radius)⟩ : Offset)) =
      (List.range (windowSide radius * windowSide radius)).map fun i =>
        ⟨Int32.ofInt ((i % windowSide radius : Nat) - (radius : Int)),
          Int32.ofInt ((i / windowSide radius : Nat) - (radius : Int)),
          Int32.ofInt ((z : Int) - radius)⟩ :=
    fun z => range_flatMap_map (windowSide radius) (windowSide radius) _
  simp only [hplane]
  rw [range_flatMap_map (2 * radius + 1)]
  show (List.range (windowSide radius * (windowSide radius * windowSide radius))).map _ = _
  rw [← Nat.mul_assoc]
  refine List.map_congr_left fun i _ => ?_
  simp only [offsetOf, Nat.mod_mul_right_mod, Nat.mod_mul_right_div_self, Nat.div_div_eq_div_mul]

/-! ## Places -/

/-- The place of a displacement of the cube, the cells being numbered from the corner of least
    coordinates on. -/
def place (radius : Nat) (o : Offset) : Nat :=
  ((o.z.toInt + radius).toNat * windowSide radius + (o.y.toInt + radius).toNat) * windowSide radius
    + (o.x.toInt + radius).toNat

/-- Where a displacement stands, if it belongs to the cube. -/
def place? (radius : Nat) (o : Offset) : Option Nat :=
  if o.norm ≤ radius then some (place radius o) else none

/-- A coordinate of a window does not wrap around. -/
theorem toInt_ofInt_sub {radius k : Nat} (hr : radius < 0x40000000) (hk : k < windowSide radius) :
    (Int32.ofInt ((k : Int) - radius)).toInt = k - radius := by
  unfold windowSide at hk
  exact Int32.toInt_ofInt_of_le (by omega) (by omega)

/-- The displacement at the place of `o` is `o`. -/
theorem offsetOf_of_place? {radius i : Nat} {o : Offset} (h : place? radius o = some i) :
    offsetOf radius i = o ∧ i < windowVolume radius := by
  unfold place? at h
  split at h
  case isFalse => cases h
  case isTrue hnorm =>
    unfold Offset.norm at hnorm
    obtain ⟨kx, hkx⟩ : ∃ k, (o.x.toInt + radius).toNat = k := ⟨_, rfl⟩
    obtain ⟨ky, hky⟩ : ∃ k, (o.y.toInt + radius).toNat = k := ⟨_, rfl⟩
    obtain ⟨kz, hkz⟩ : ∃ k, (o.z.toInt + radius).toNat = k := ⟨_, rfl⟩
    have hx : kx < windowSide radius := by unfold windowSide; omega
    have hy : ky < windowSide radius := by unfold windowSide; omega
    have hz : kz < windowSide radius := by unfold windowSide; omega
    have hs : 0 < windowSide radius := Nat.lt_of_le_of_lt (Nat.zero_le _) hx
    simp only [place, hkx, hky, hkz, Option.some.injEq] at h
    have hrow : i / windowSide radius = kz * windowSide radius + ky := by
      rw [← h, Nat.mul_comm, Nat.mul_add_div hs, Nat.div_eq_of_lt hx, Nat.add_zero]
    have hi : i % windowSide radius = kx := by
      rw [← h, Nat.mul_comm, Nat.mul_add_mod, Nat.mod_eq_of_lt hx]
    have hrowMod : i / windowSide radius % windowSide radius = ky := by
      rw [hrow, Nat.mul_comm, Nat.mul_add_mod, Nat.mod_eq_of_lt hy]
    have hrowDiv : i / windowSide radius / windowSide radius = kz := by
      rw [hrow, Nat.mul_comm, Nat.mul_add_div hs, Nat.div_eq_of_lt hy, Nat.add_zero]
    constructor
    · have back : ∀ v : Int32, ∀ k : Nat, v.toInt.natAbs ≤ radius → (v.toInt + radius).toNat = k →
          Int32.ofInt ((k : Int) - radius) = v := by
        intro v k hv hk
        have hki : (k : Int) - radius = v.toInt := by omega
        rw [hki, Int32.ofInt_toInt]
      simp only [offsetOf, hi, hrowMod, hrowDiv]
      rw [back o.x kx (by omega) hkx, back o.y ky (by omega) hky, back o.z kz (by omega) hkz]
    · unfold windowVolume
      rw [← Nat.div_lt_iff_lt_mul hs, ← Nat.div_lt_iff_lt_mul hs, hrowDiv]
      exact hz

/-- The place of the displacement at `i` is `i`. -/
theorem place?_offsetOf {radius i : Nat} (hr : radius < 0x40000000)
    (hi : i < windowVolume radius) :
    place? radius (offsetOf radius i) = some i := by
  have hs : 0 < windowSide radius := by unfold windowSide; omega
  have hx : i % windowSide radius < windowSide radius := Nat.mod_lt _ hs
  have hy : i / windowSide radius % windowSide radius < windowSide radius := Nat.mod_lt _ hs
  have hz : i / windowSide radius / windowSide radius < windowSide radius := by
    rw [Nat.div_lt_iff_lt_mul hs, Nat.div_lt_iff_lt_mul hs]
    exact hi
  have near : ∀ k, k < windowSide radius → ((k : Int) - radius).natAbs ≤ radius := by
    intro k hk
    unfold windowSide at hk
    omega
  have back : ∀ k : Nat, ((k : Int) - radius + radius).toNat = k := fun k => by omega
  have hnorm : (offsetOf radius i).norm ≤ radius := by
    simp only [Offset.norm, offsetOf, toInt_ofInt_sub hr hx, toInt_ofInt_sub hr hy,
      toInt_ofInt_sub hr hz]
    exact Nat.max_le.2 ⟨Nat.max_le.2 ⟨near _ hx, near _ hy⟩, near _ hz⟩
  rw [place?, if_pos hnorm]
  simp only [place, offsetOf, toInt_ofInt_sub hr hx, toInt_ofInt_sub hr hy, toInt_ofInt_sub hr hz,
    back]
  rw [Nat.mul_comm (i / windowSide radius / windowSide radius), Nat.div_add_mod,
    Nat.mul_comm (i / windowSide radius), Nat.div_add_mod]

/-- A displacement stands in the list where its place is. -/
theorem getElem?_windowOffsets_iff {radius i : Nat} {o : Offset} (hr : radius < 0x40000000) :
    (Kernel.windowOffsets radius)[i]? = some o ↔ place? radius o = some i := by
  rw [windowOffsets_eq, List.getElem?_map]
  constructor
  · intro h
    obtain ⟨j, hj, rfl⟩ := Option.map_eq_some_iff.1 h
    obtain ⟨hlt, rfl⟩ := List.getElem?_eq_some_iff.1 hj
    rw [List.length_range] at hlt
    rw [List.getElem_range]
    exact place?_offsetOf hr hlt
  · intro h
    obtain ⟨ho, hlt⟩ := offsetOf_of_place? h
    rw [List.getElem?_range hlt, Option.map_some, ho]

/-- Exactly the displacements of the cube have a place. -/
theorem exists_place?_iff {radius : Nat} {o : Offset} :
    (∃ i, place? radius o = some i) ↔ o.norm ≤ radius := by
  constructor
  · rintro ⟨i, hi⟩
    unfold place? at hi
    split at hi
    case isTrue h => exact h
    case isFalse => cases hi
  · intro h
    exact ⟨_, if_pos h⟩

theorem mem_windowOffsets_iff {radius : Nat} {o : Offset} (hr : radius < 0x40000000) :
    o ∈ Kernel.windowOffsets radius ↔ o.norm ≤ radius := by
  rw [List.mem_iff_getElem?]
  simp only [getElem?_windowOffsets_iff hr]
  exact exists_place?_iff

/-- Finding a displacement in the list is computing its place. -/
theorem idxOf?_windowOffsets {radius : Nat} (hr : radius < 0x40000000) (o : Offset) :
    (Kernel.windowOffsets radius).idxOf? o = place? radius o := by
  cases h : place? radius o with
  | none =>
    rw [List.idxOf?_eq_none_iff, mem_windowOffsets_iff hr, ← exists_place?_iff, h]
    rintro ⟨i, hi⟩
    cases hi
  | some i =>
    obtain ⟨hlt, hget⟩ := List.getElem?_eq_some_iff.1 ((getElem?_windowOffsets_iff hr).2 h)
    rw [List.idxOf?_eq_some_iff]
    refine ⟨hlt, hget, fun j hj he => ?_⟩
    have hplace : place? radius o = some j :=
      (getElem?_windowOffsets_iff hr).1 (List.getElem?_eq_some_iff.2 ⟨_, he⟩)
    rw [h, Option.some.injEq] at hplace
    omega

theorem nodup_windowOffsets {radius : Nat} (hr : radius < 0x40000000) :
    (Kernel.windowOffsets radius).Nodup := by
  rw [windowOffsets_eq, List.Nodup, List.pairwise_map]
  refine List.nodup_range.imp_of_mem fun {i j} hi hj hne heq => hne ?_
  have hplace := place?_offsetOf hr (List.mem_range.1 hi)
  rw [heq, place?_offsetOf hr (List.mem_range.1 hj), Option.some.injEq] at hplace
  exact hplace.symm

/-- The list has the displacements of the cube, each of them once. -/
theorem count_windowOffsets {radius : Nat} (hr : radius < 0x40000000) (o : Offset) :
    (Kernel.windowOffsets radius).count o = if o.norm ≤ radius then 1 else 0 := by
  rw [(nodup_windowOffsets hr).count]
  simp only [mem_windowOffsets_iff hr]

/-! ## Places computed on 32 bits -/

theorem placeOfWord_eq {w : Int32} {n : Nat} (h : w.toInt = n) : placeOfWord w = n := by
  have hpos : 0 ≤ w.toInt64 := by
    rw [Int64.le_iff_toInt_le, Int32.toInt_toInt64, h]
    exact Int.natCast_nonneg n
  rw [placeOfWord, Int64.toNat_toUInt64_of_le hpos, Int64.toNatClampNeg, Int32.toInt_toInt64, h,
    Int.toNat_natCast]

theorem toInt_add_of_lt {a b : Int32} {m n : Nat} (ha : a.toInt = m) (hb : b.toInt = n)
    (h : m + n < 0x80000000) : (a + b).toInt = (m + n : Nat) := by
  rw [Int32.toInt_add, ha, hb, ← Int.natCast_add]
  exact Int.bmod_eq_of_le (by omega) (by omega)

theorem toInt_mul_of_lt {a b : Int32} {m n : Nat} (ha : a.toInt = m) (hb : b.toInt = n)
    (h : m * n < 0x80000000) : (a * b).toInt = (m * n : Nat) := by
  rw [Int32.toInt_mul, ha, hb, ← Int.natCast_mul]
  exact Int.bmod_eq_of_le (by omega) (by omega)

/-- The coordinates of a window do not wrap around when its places do not. -/
theorem radius_lt_of_volume_lt {radius : Nat} (h : windowVolume radius < 0x80000000) :
    radius < 0x40000000 := by
  have hpos : 0 < windowSide radius := Nat.succ_pos _
  have hside : windowSide radius ≤ windowVolume radius :=
    Nat.le_mul_of_pos_left _ (Nat.mul_pos hpos hpos)
  unfold windowSide at hside
  omega

/-- Coordinates are counted from 0 on without wrapping around. -/
theorem toInt_add_radius {radius : Nat} (hr : radius < 0x40000000) {v : Int32}
    (hv : v.toInt.natAbs ≤ radius) :
    (v + Int32.ofNat radius).toInt = ((v.toInt + radius).toNat : Nat) := by
  have hradius : (Int32.ofNat radius).toInt = radius := Int32.toInt_ofNat_of_lt (by omega)
  rw [Int32.toInt_add, hradius, Int.toNat_of_nonneg (by omega)]
  exact Int.bmod_eq_of_le (by omega) (by omega)

/-- No step of the computation of a place wraps around if the place is a word. -/
theorem toInt_place {radius : Nat} {o : Offset} (hr : radius < 0x40000000) (hnorm : o.norm ≤ radius)
    (hplace : place radius o < 0x80000000) :
    (((o.z + Int32.ofNat radius) * Int32.ofNat (windowSide radius) + (o.y + Int32.ofNat radius)) *
      Int32.ofNat (windowSide radius) + (o.x + Int32.ofNat radius)).toInt = place radius o := by
  have hs : (Int32.ofNat (windowSide radius)).toInt = windowSide radius :=
    Int32.toInt_ofNat_of_lt (by unfold windowSide; omega)
  have hpos : 0 < windowSide radius := Nat.succ_pos _
  obtain ⟨hxy, hz⟩ := Nat.max_le.1 hnorm
  obtain ⟨hx, hy⟩ := Nat.max_le.1 hxy
  have hx := toInt_add_radius hr hx
  have hy := toInt_add_radius hr hy
  have hz := toInt_add_radius hr hz
  unfold place at hplace ⊢
  generalize (o.x.toInt + radius).toNat = kx at hx hplace ⊢
  generalize (o.y.toInt + radius).toNat = ky at hy hplace ⊢
  generalize (o.z.toInt + radius).toNat = kz at hz hplace ⊢
  -- what is computed on the way is at most the place
  have hrows := Nat.le_mul_of_pos_right (kz * windowSide radius + ky) hpos
  have hplane := toInt_mul_of_lt hz hs (by omega)
  have hrow := toInt_add_of_lt hplane hy (by omega)
  have hline := toInt_mul_of_lt hrow hs (by omega)
  exact toInt_add_of_lt hline hx hplace

/-- As long as the volume is below 2^31, places are computed without wrapping around. -/
theorem indexOf?_eq_place? {radius : Nat} (hsize : windowVolume radius < 0x80000000) (o : Offset) :
    indexOf? radius o = place? radius o := by
  unfold indexOf? place?
  split
  case isFalse => rfl
  case isTrue hnorm =>
    have hplace : place radius o < windowVolume radius := (offsetOf_of_place? (if_pos hnorm)).2
    exact congrArg some (placeOfWord_eq
      (toInt_place (radius_lt_of_volume_lt hsize) hnorm (Nat.lt_trans hplace hsize)))

theorem position?_eq_place? (w : Window) (o : Offset) : w.position? o = place? w.radius o :=
  indexOf?_eq_place? w.volume_lt o

/-! ## Reading and writing -/

/-- A window shows the entry at the place of the displacement, in the plane of the slot. -/
theorem read_eq (w : Window) (o : Offset) (slot : Nat) :
    w.read o slot =
      (((w.position? o).bind fun i => w.planes[slot]?.bind fun plane => plane[i]?).getD 0) := by
  unfold read
  cases w.position? o <;> cases w.planes[slot]? <;> rfl

theorem position?_of_lt_norm {w : Window} {o : Offset} (h : w.radius < o.norm) :
    w.position? o = none := if_neg (Nat.not_le.2 h)

/-- Exactly the displacements of the cube have a place in the window. -/
theorem exists_position?_iff {w : Window} {o : Offset} :
    (∃ i, w.position? o = some i) ↔ o.norm ≤ w.radius := by
  simp only [position?_eq_place?]
  exact exists_place?_iff

theorem offsetOf_of_position? {w : Window} {o : Offset} {i : Nat} (h : w.position? o = some i) :
    offsetOf w.radius i = o ∧ i < windowVolume w.radius :=
  offsetOf_of_place? ((w.position?_eq_place? o).symm.trans h)

/-- No two displacements have the same place. -/
theorem eq_of_position?_eq {w : Window} {o p : Offset} {i : Nat} (ho : w.position? o = some i)
    (hp : w.position? p = some i) : o = p := by
  rw [← (offsetOf_of_position? ho).1, (offsetOf_of_position? hp).1]

theorem read_of_lt_norm {w : Window} {o : Offset} (h : w.radius < o.norm) (slot : Nat) :
    w.read o slot = 0 := by
  rw [read_eq, position?_of_lt_norm h]
  rfl

/-- Writing outside the cube does nothing. -/
theorem set_of_lt_norm {w : Window} {o : Offset} (h : w.radius < o.norm) (slot : Nat) (v : Int64) :
    w.set o slot v = w := by
  rw [set, position?_of_lt_norm h]

/-- Writing inside the cube changes one entry of one plane. -/
theorem read_set_of_position? {w : Window} {o : Offset} {i : Nat} (hi : w.position? o = some i)
    (slot : Nat) (v : Int64) (p : Offset) (k : Nat) :
    (w.set o slot v).read p k =
      (((w.position? p).bind fun j =>
        (w.planes.modify slot (·.setIfInBounds i v))[k]?.bind fun plane => plane[j]?).getD 0) := by
  rw [read_eq, set, hi]
  rfl

/-- What was written inside the cube, in a channel of the window, is read there. -/
theorem read_set_self {w : Window} {o : Offset} {slot : Nat} (hnorm : o.norm ≤ w.radius)
    (hslot : slot < w.channels) (v : Int64) : (w.set o slot v).read o slot = v := by
  obtain ⟨i, hi⟩ : ∃ i, w.position? o = some i := exists_position?_iff.2 hnorm
  have hbound : i < windowVolume w.radius := (offsetOf_of_position? hi).2
  have hplane : w.planes[slot]? = some w.planes[slot] := Array.getElem?_eq_getElem hslot
  rw [read_set_of_position? hi, hi, Option.bind_some, Array.getElem?_modify, if_pos rfl, hplane,
    Option.map_some, Option.bind_some, Vector.getElem?_setIfInBounds, if_pos rfl, if_pos hbound,
    Option.getD_some]

/-- Nothing else is read differently after a write. -/
theorem read_set_of_ne {w : Window} {o p : Offset} {slot k : Nat} (hne : (p, k) ≠ (o, slot))
    (v : Int64) : (w.set o slot v).read p k = w.read p k := by
  by_cases hnorm : o.norm ≤ w.radius
  case neg => rw [set_of_lt_norm (Nat.lt_of_not_le hnorm)]
  case pos =>
    obtain ⟨i, hi⟩ : ∃ i, w.position? o = some i := exists_position?_iff.2 hnorm
    rw [read_set_of_position? hi, read_eq]
    cases hp : w.position? p with
    | none => rfl
    | some j =>
      rw [Option.bind_some, Option.bind_some, Array.getElem?_modify]
      by_cases hk : slot = k
      · -- in the same plane, the other displacement has another place
        subst hk
        have hij : i ≠ j := by
          rintro rfl
          exact hne (by rw [eq_of_position?_eq hi hp])
        rw [if_pos rfl]
        cases w.planes[slot]? with
        | none => rfl
        | some plane =>
          rw [Option.map_some, Option.bind_some, Option.bind_some, Vector.getElem?_setIfInBounds,
            if_neg hij]
      · rw [if_neg hk]

/-! ## The flattened form -/

/-- Planes of `n` entries each, read one after the other. -/
theorem getElem?_flatMap_toList {α : Type} {n i : Nat} (planes : List (Vector α n)) (slot : Nat)
    (hi : i < n) :
    (planes.flatMap Vector.toList)[slot * n + i]? = planes[slot]?.bind fun plane => plane[i]? := by
  induction planes generalizing slot with
  | nil => rfl
  | cons plane rest ih =>
    cases slot with
    | zero =>
      rw [Nat.zero_mul, Nat.zero_add, List.flatMap_cons,
        List.getElem?_append_left (by rw [Vector.length_toList]; exact hi)]
      exact Vector.getElem?_toList
    | succ slot =>
      have hskip : (slot + 1) * n + i = plane.toList.length + (slot * n + i) := by
        rw [Vector.length_toList, Nat.succ_mul]
        omega
      rw [List.flatMap_cons, hskip, List.getElem?_append_right (Nat.le_add_right _ _),
        Nat.add_sub_cancel_left, ih]
      rfl

theorem length_flatten (w : Window) : w.flatten.length = w.channels * windowVolume w.radius := by
  rw [flatten, List.length_flatMap, List.map_congr_left fun plane _ => Vector.length_toList,
    List.map_const', List.sum_replicate_nat, Array.length_toList, channels]

/-- In the flattened form the value of a slot at a displacement comes behind the volumes of the
    earlier slots, at the place of the displacement. -/
theorem getElem?_flatten {w : Window} {o : Offset} {i slot : Nat} (hi : w.position? o = some i)
    (hslot : slot < w.channels) :
    w.flatten[slot * windowVolume w.radius + i]? = some (w.read o slot) := by
  have hbound : i < windowVolume w.radius := (offsetOf_of_position? hi).2
  have hplane : w.planes[slot]? = some w.planes[slot] := Array.getElem?_eq_getElem hslot
  rw [flatten, getElem?_flatMap_toList _ _ hbound, Array.getElem?_toList, read_eq, hi,
    Option.bind_some, hplane, Option.bind_some, Vector.getElem?_eq_getElem hbound, Option.getD_some]

/-- The blocks are the beginning of the flattened form. -/
theorem blocks_eq_take_flatten (w : Window) :
    w.blocks = w.flatten.take (windowVolume w.radius) := by
  have hpos := w.planes_pos
  have hplanes : w.planes.toList = w.planes[0] :: w.planes.toList.drop 1 := by
    rw [← Array.getElem_toList hpos, List.getElem_cons_drop, List.drop_zero]
  rw [flatten, hplanes, List.flatMap_cons, List.take_left' Vector.length_toList, blocks]

/-! ## Copying a view out -/

/-- The last corner of a cube has the last place. -/
theorem place_corner {radius : Nat} (hr : radius < 0x80000000) :
    place radius ⟨Int32.ofNat radius, Int32.ofNat radius, Int32.ofNat radius⟩ + 1 =
      windowVolume radius := by
  have hradius : ((Int32.ofNat radius).toInt + radius).toNat = 2 * radius := by
    rw [Int32.toInt_ofNat_of_lt hr]
    omega
  unfold place windowVolume windowSide
  rw [hradius]
  simp only [Nat.add_mul, Nat.mul_add, Nat.one_mul, Nat.mul_one]
  omega

theorem windowVolume_mono {r s : Nat} (h : r ≤ s) : windowVolume r ≤ windowVolume s := by
  have hside : windowSide r ≤ windowSide s := by unfold windowSide; omega
  exact Nat.mul_le_mul (Nat.mul_le_mul hside hside) hside

/-- The largest windows are of radius 644. -/
theorem volume_lt_iff {radius : Nat} : windowVolume radius < 0x80000000 ↔ radius ≤ 644 := by
  constructor
  · intro h
    refine Nat.le_of_not_lt fun hlarge => ?_
    have hvolume : windowVolume 645 ≤ windowVolume radius := windowVolume_mono hlarge
    have htoo : 0x80000000 ≤ windowVolume 645 := by decide
    omega
  · intro h
    exact Nat.lt_of_le_of_lt (windowVolume_mono h) (by decide)

/-- Every volume is odd. -/
theorem windowVolume_mod_two (radius : Nat) : windowVolume radius % 2 = 1 := by
  have hside : windowSide radius % 2 = 1 := by unfold windowSide; omega
  rw [windowVolume, Nat.mul_mod, Nat.mul_mod (windowSide radius), hside]

/-- A view can be copied out as far as no place in the window leaves the numbers of 32 bits. -/
theorem ofView?_eq_none_iff {v : View} {radius : Nat} (hr : radius < 0x80000000) :
    ofView? v radius = none ↔ ∃ o : Offset, o.norm ≤ radius ∧ 0x80000000 ≤ place radius o := by
  rw [ofView?, dite_eq_right_iff]
  constructor
  · intro hlarge
    have hsize : 0x80000000 ≤ windowVolume radius := Nat.le_of_not_lt fun h => nomatch hlarge h
    have hodd := windowVolume_mod_two radius
    have hcorner := place_corner hr
    refine ⟨⟨Int32.ofNat radius, Int32.ofNat radius, Int32.ofNat radius⟩, ?_, by omega⟩
    have hradius := Int32.toInt_ofNat_of_lt hr
    simp only [Offset.norm, hradius, Int.natAbs_natCast, Nat.max_self, Nat.le_refl]
  · rintro ⟨o, hnorm, hplace⟩ hsize
    have hlt : place radius o < windowVolume radius := (offsetOf_of_place? (if_pos hnorm)).2
    omega

end Window

end BlockAutomata
