/-
  Spelled tokens and the lexemes of a line.

  1. Longest lexemes end where their class of characters ends.  A spelling that a blank follows, or
     nothing, is therefore taken whole: names, digits, constants behind `#` and between quotes, and
     offsets, whose coordinates are read back from their digits (`munch_spelling`).

  2. Only a negative number is cut in two, its minus and its digits, and these touch.  So a line of
     spelled tokens with single blanks between them is cut into the lexemes of its tokens, at known
     positions (`lexemes_spelledLine`).

  3. In the other direction nothing is known about a line but that it can be cut up.  Its lexemes
     are digits and tokens that can be written (`proper_of_lexemes`).
-/
import BlockAutomata.Script.Lexeme

namespace BlockAutomata.Script

/-! ## Rows of characters -/

/-- The first of the characters, if there is one, is outside the class. -/
def StopsAt (p : Char → Bool) (rest : List Char) : Prop := ∀ c ∈ rest.head?, p c = false

section Rows

variable {p : Char → Bool} {cs rest : List Char}

theorem takeWhile_append_of_stopsAt (hcs : ∀ c ∈ cs, p c = true) (hrest : StopsAt p rest) :
    (cs ++ rest).takeWhile p = cs := by
  rw [List.takeWhile_append_of_pos hcs]
  cases rest with
  | nil => rw [List.takeWhile_nil, List.append_nil]
  | cons c rest => rw [List.takeWhile_cons_of_neg (by simp [hrest c rfl]), List.append_nil]

theorem dropWhile_append_of_stopsAt (hcs : ∀ c ∈ cs, p c = true) (hrest : StopsAt p rest) :
    (cs ++ rest).dropWhile p = rest := by
  rw [List.dropWhile_append_of_pos hcs]
  cases rest with
  | nil => rfl
  | cons c rest => rw [List.dropWhile_cons_of_neg (by simp [hrest c rfl])]

end Rows

/-- A blank comes next, or nothing. -/
def AtBlank (rest : List Char) : Prop := ∀ c ∈ rest.head?, c = ' '

theorem AtBlank.stopsAt {rest : List Char} (h : AtBlank rest) {p : Char → Bool}
    (hp : p ' ' = false) : StopsAt p rest :=
  fun c hc => h c hc ▸ hp

theorem startsName_eq_false_of_isBlank {c : Char} (h : isBlank c = true) :
    Token.startsName c = false ∧ c.isDigit = false := by
  simp only [isBlank, Bool.or_eq_true, beq_iff_eq] at h
  rcases h with (((rfl | rfl) | rfl) | rfl) | rfl <;> decide

theorem startsName_eq_false_of_isDigit {c : Char} (h : c.isDigit = true) :
    Token.startsName c = false := by
  -- digits end before the letters and the underscore begin
  have hnine : c.val.toNat ≤ 57 := by
    simp only [Char.isDigit, Bool.and_eq_true, decide_eq_true_eq] at h
    exact UInt32.le_iff_toNat_le.1 h.2
  have hupper : c.isUpper = false := decide_eq_false fun hc => by
    have hc : 65 ≤ c.val.toNat := UInt32.le_iff_toNat_le.1 hc.1
    omega
  have hlower : c.isLower = false := by
    refine Bool.and_eq_false_imp.2 fun hc => ?_
    have hc : 97 ≤ c.val.toNat := UInt32.le_iff_toNat_le.1 (of_decide_eq_true hc)
    omega
  have hunderscore : c ≠ '_' := by
    rintro rfl
    exact absurd hnine (by decide)
  show (c.isUpper || c.isLower || c == '_') = false
  rw [hupper, hlower, beq_false_of_ne hunderscore]
  rfl

theorem isBlank_eq_false_of_isDigit {c : Char} (h : c.isDigit = true) : isBlank c = false := by
  rw [← Bool.not_eq_true]
  intro hb
  rw [(startsName_eq_false_of_isBlank hb).2] at h
  cases h

theorem continuesName_of_startsName {c : Char} (h : Token.startsName c = true) :
    Token.continuesName c = true := by
  simp only [Token.startsName, Bool.or_eq_true] at h
  rcases h with h | h <;> simp [Token.continuesName, Char.isAlphanum, h]

/-! ## Numbers -/

theorem magnitude_eq_ofDigitChars (ds : List Char) : magnitude ds = Nat.ofDigitChars 10 ds 0 := by
  simp [magnitude, Nat.ofDigitChars_eq_foldl, Nat.mul_comm]

@[simp] theorem magnitude_toDigits (n : Nat) : magnitude (Nat.toDigits 10 n) = n := by
  rw [magnitude_eq_ofDigitChars, Nat.ofDigitChars_ten_toDigits]

/-- A row of digits, of which there is at least one. -/
def IsDigits (ds : List Char) : Prop := ds ≠ [] ∧ ∀ d ∈ ds, d.isDigit = true

theorem isDigits_toDigits (n : Nat) : IsDigits (Nat.toDigits 10 n) :=
  ⟨Nat.toDigits_ne_nil, fun _ hc => Nat.isDigit_of_mem_toDigits (by decide) (by decide) hc⟩

/-- There is a first digit. -/
theorem IsDigits.exists_cons {ds : List Char} (h : IsDigits ds) :
    ∃ d more, ds = d :: more ∧ d.isDigit = true := by
  obtain ⟨d, more, rfl⟩ := List.exists_cons_of_ne_nil h.1
  exact ⟨d, more, rfl, h.2 d List.mem_cons_self⟩

theorem digits?_append {ds rest : List Char} (hds : IsDigits ds)
    (hrest : StopsAt Char.isDigit rest) : digits? (ds ++ rest) = some (ds, rest) := by
  rw [digits?, takeWhile_append_of_stopsAt hds.2 hrest, dropWhile_append_of_stopsAt hds.2 hrest]
  split
  · exact absurd rfl hds.1
  · rfl

/-- The characters of an integer: its digits, with a minus in front when it is negative. -/
def signedDigits (x : Int) : List Char :=
  (if x < 0 then ['-'] else []) ++ Nat.toDigits 10 x.natAbs

theorem toList_toString (x : Int) : (toString x).toList = signedDigits x := by
  cases x with
  | ofNat n =>
    show (toString n).toList = Nat.toDigits 10 n
    simp
  | negSucc n =>
    rw [signedDigits, if_pos (Int.negSucc_lt_zero n)]
    show ("-" ++ toString (n + 1)).toList = '-' :: Nat.toDigits 10 (n + 1)
    simp

/-! ## Offsets -/

/-- Blanks that a coordinate may have around it. -/
def IsSpaces (cs : List Char) : Prop := ∀ c ∈ cs, c = ' ' ∨ c = '\t'

/-- The texts of a coordinate: digits, perhaps behind a minus, between blanks. -/
inductive SpellsCoordinate : List Char → Int → Prop where
  | plain {before ds after : List Char} : IsSpaces before → IsDigits ds → IsSpaces after →
      SpellsCoordinate (before ++ (ds ++ after)) (magnitude ds)
  | negative {before ds after : List Char} : IsSpaces before → IsDigits ds → IsSpaces after →
      SpellsCoordinate (before ++ '-' :: (ds ++ after)) (-(magnitude ds : Int))

/-- The texts of an offset: three coordinates of 32 bits in braces. -/
inductive SpellsOffset : List Char → Offset → Prop where
  | mk {x y z : List Char} {o : Offset} : SpellsCoordinate x o.x.toInt →
      SpellsCoordinate y o.y.toInt → SpellsCoordinate z o.z.toInt →
      SpellsOffset ('\x7b' :: (x ++ ',' :: (y ++ ',' :: (z ++ ['\x7d'])))) o

theorem skipSpaces_append {cs rest : List Char} (hcs : IsSpaces cs)
    (hrest : StopsAt (fun c => c == ' ' || c == '\t') rest) : skipSpaces (cs ++ rest) = rest :=
  dropWhile_append_of_stopsAt (fun c hc => by simpa using hcs c hc) hrest

theorem coordinate?_spaces {before cs : List Char} (h : IsSpaces before) :
    coordinate? (before ++ cs) = coordinate? cs := by
  have hskip : skipSpaces (before ++ cs) = skipSpaces cs :=
    List.dropWhile_append_of_pos fun c hc => by simpa using h c hc
  unfold coordinate?
  rw [hskip]

theorem coordinate?_minus (cs : List Char) :
    coordinate? ('-' :: cs) = (digits? cs).map fun r =>
      (-(magnitude r.1 : Int), skipSpaces r.2) := by
  show (digits? cs).bind _ = _
  rw [Option.map_eq_bind]
  rfl

theorem coordinate?_digit {d : Char} (hd : d.isDigit = true) (cs : List Char) :
    coordinate? (d :: cs) = (digits? (d :: cs)).map fun r =>
      ((magnitude r.1 : Int), skipSpaces r.2) := by
  have hspaces : skipSpaces (d :: cs) = d :: cs := by
    have hd' : ¬ (d = ' ' ∨ d = '\t') := by rintro (rfl | rfl) <;> cases hd
    rw [skipSpaces, List.dropWhile_cons_of_neg (by simpa using hd')]
  have hminus : d ≠ '-' := by
    rintro rfl
    cases hd
  unfold coordinate?
  simp only [hspaces]
  split
  · rename_i h
    exact absurd (List.cons.inj h).1 hminus
  · rw [Option.map_eq_bind]
    rfl

/-- A coordinate is read, in front of a comma or the closing brace. -/
theorem coordinate?_spelled {cs : List Char} {x : Int} (h : SpellsCoordinate cs x) {c : Char}
    (hc : c = ',' ∨ c = '\x7d') (rest : List Char) :
    coordinate? (cs ++ c :: rest) = some (x, c :: rest) := by
  have hskip : ∀ after, IsSpaces after → skipSpaces (after ++ c :: rest) = c :: rest :=
    fun after hafter =>
      skipSpaces_append hafter (by rintro d ⟨⟩; rcases hc with rfl | rfl <;> decide)
  have hstops : ∀ after, IsSpaces after → StopsAt Char.isDigit (after ++ c :: rest) := by
    intro after hafter d hd
    cases after with
    | nil =>
      cases hd
      rcases hc with rfl | rfl <;> decide
    | cons a after =>
      cases hd
      rcases hafter d List.mem_cons_self with rfl | rfl <;> decide
  cases h with
  | @plain before ds after hbefore hds hafter =>
    have hdigits := digits?_append hds (hstops after hafter)
    obtain ⟨d, more, hd, hdigit⟩ := hds.exists_cons
    rw [List.append_assoc, coordinate?_spaces hbefore, List.append_assoc, hd, List.cons_append,
      coordinate?_digit hdigit, ← List.cons_append, ← hd, hdigits]
    simp only [Option.map_some, hskip after hafter]
  | @negative before ds after hbefore hds hafter =>
    rw [List.append_assoc, coordinate?_spaces hbefore, List.cons_append, coordinate?_minus,
      List.append_assoc, digits?_append hds (hstops after hafter)]
    simp only [Option.map_some, hskip after hafter]

theorem spellsCoordinate_signedDigits (x : Int) : SpellsCoordinate (signedDigits x) x := by
  have hds := isDigits_toDigits x.natAbs
  by_cases hx : x < 0
  · have h := @SpellsCoordinate.negative [] _ [] nofun hds nofun
    have hvalue : -(x.natAbs : Int) = x := by omega
    rw [magnitude_toDigits, List.append_nil, hvalue] at h
    rw [signedDigits, if_pos hx]
    exact h
  · have h := @SpellsCoordinate.plain [] _ [] nofun hds nofun
    have hvalue : (x.natAbs : Int) = x := by omega
    rw [magnitude_toDigits, List.append_nil, hvalue] at h
    rw [signedDigits, if_neg hx]
    exact h

theorem SpellsCoordinate.space {cs : List Char} {x : Int} (h : SpellsCoordinate cs x) :
    SpellsCoordinate (' ' :: cs) x := by
  cases h with
  | @plain before _ _ hbefore hds hafter =>
    exact @plain (' ' :: before) _ _ (List.forall_mem_cons.2 ⟨Or.inl rfl, hbefore⟩) hds hafter
  | @negative before _ _ hbefore hds hafter =>
    exact @negative (' ' :: before) _ _ (List.forall_mem_cons.2 ⟨Or.inl rfl, hbefore⟩) hds hafter

theorem int32?_toInt (x : Int32) : int32? x.toInt = some x := by
  have hlo := x.le_toInt
  have hhi := x.toInt_lt
  rw [int32?, if_pos ⟨by simpa using hlo, by simpa using hhi⟩, Int32.ofInt_toInt]

theorem toList_text (o : Offset) :
    o.text.toList = '\x7b' :: (signedDigits o.x.toInt ++ ',' :: ' ' ::
      (signedDigits o.y.toInt ++ ',' :: ' ' :: (signedDigits o.z.toInt ++ ['\x7d']))) := by
  show ("\x7b" ++ (toString o.x.toInt ++ ", " ++ toString o.y.toInt ++ ", " ++
    toString o.z.toInt) ++ "\x7d").toList = _
  simp only [String.toList_append, toList_toString]
  simp

theorem spellsOffset_text (o : Offset) : SpellsOffset o.text.toList o := by
  have h := spellsCoordinate_signedDigits
  rw [toList_text]
  exact .mk (h o.x.toInt) (h o.y.toInt).space (h o.z.toInt).space

/-- An offset is read from its text. -/
theorem offset?_spelled {cs : List Char} {o : Offset} (h : SpellsOffset cs o) (rest : List Char) :
    offset? (cs.tail ++ rest) = some (o, rest) := by
  obtain ⟨hx, hy, hz⟩ := h
  simp [offset?, coordinate?_spelled hx, coordinate?_spelled hy, coordinate?_spelled hz,
    int32?_toInt]

/-! ## Spellings -/

namespace Token

/-- A letter or an underscore, then letters, digits, underscores and apostrophes. -/
def IsName (cs : List Char) : Prop :=
  ∃ c rest, cs = c :: rest ∧ startsName c = true ∧ ∀ d ∈ rest, continuesName d = true

/-- Whether a line can contain the token: comments and the end of the line are no tokens of a line,
    identifiers must be names, and a constant must fit between quotes. -/
def Writable : Token → Prop
  | comment => False
  | eof => False
  | identifier name => IsName name.toList
  | constant name => ∀ c ∈ name.toList, c ≠ '"' ∧ c ≠ '\n'
  | _ => True

end Token

theorem munch_name {c : Char} {cs rest : List Char} (hc : Token.startsName c = true)
    (hcs : ∀ d ∈ cs, Token.continuesName d = true) (hrest : StopsAt Token.continuesName rest) :
    munch c (cs ++ rest) = .take (.token (.identifier (String.ofList (c :: cs)))) cs.length := by
  have hblank : ¬ isBlank c = true := fun hb => by
    simp [(startsName_eq_false_of_isBlank hb).1] at hc
  unfold munch
  rw [if_neg hblank, if_pos hc, takeWhile_append_of_stopsAt hcs hrest]

theorem munch_digits {c : Char} {cs rest : List Char} (hcs : IsDigits (c :: cs))
    (hrest : StopsAt Char.isDigit rest) :
    munch c (cs ++ rest) =
      if magnitude (c :: cs) ≤ 0x8000000000000000 then .take (.digits (c :: cs)) cs.length
      else .fault (.numberTooLarge (String.ofList (c :: cs))) := by
  obtain ⟨hc, hcs⟩ := List.forall_mem_cons.1 hcs.2
  have hstart := startsName_eq_false_of_isDigit hc
  have hblank := isBlank_eq_false_of_isDigit hc
  unfold munch
  rw [if_neg (by simp [hblank]), if_neg (by simp [hstart]), if_pos hc,
    takeWhile_append_of_stopsAt hcs hrest]

/-- Unless it begins an arrow, a minus is a lexeme of its own. -/
theorem munch_minus {rest : List Char} (hrest : StopsAt (· == '>') rest) :
    munch '-' rest = .take (.token .minus) 0 := by
  match rest, hrest with
  | [], _ => rfl
  | d :: _, hrest =>
    have hne : d ≠ '>' := by simpa using hrest d rfl
    unfold munch
    rw [if_neg (by decide), if_neg (by decide), if_neg (by decide)]
    simp [hne, munchSingle, single?]

/-- Unless it begins a comment, a slash is a lexeme of its own. -/
theorem munch_slash {rest : List Char} (hrest : StopsAt (· == '/') rest) :
    munch '/' rest = .take (.token .slash) 0 := by
  match rest, hrest with
  | [], _ => rfl
  | d :: _, hrest =>
    have hne : d ≠ '/' := by simpa using hrest d rfl
    unfold munch
    rw [if_neg (by decide), if_neg (by decide), if_neg (by decide)]
    simp [hne, munchSingle, single?]

theorem munch_hash {name : List Char} (h : Token.fitsHash (String.ofList name) = true)
    {rest : List Char} (hrest : StopsAt Token.continuesConstant rest) :
    munch '#' (name ++ rest) = .take (.token (.constant (String.ofList name))) name.length := by
  rw [Token.fitsHash, String.toList_ofList] at h
  match name, h with
  | c :: cs, h =>
    rw [Bool.and_eq_true, List.all_eq_true] at h
    have hstart := continuesName_of_startsName h.1
    have hname : ∀ d ∈ c :: cs, Token.continuesConstant d = true :=
      List.forall_mem_cons.2 ⟨by simp [Token.continuesConstant, hstart], h.2⟩
    have htake := takeWhile_append_of_stopsAt hname hrest
    show (if Token.startsName c = true then _ else _) = _
    rw [if_pos h.1, htake]

theorem munch_quote (rest : List Char) :
    munch '"' rest =
      match rest.drop (rest.takeWhile fun d => d ≠ '"' && d ≠ '\n').length with
      | '"' :: _ => .take
        (.token (.constant (String.ofList (rest.takeWhile fun d => d ≠ '"' && d ≠ '\n'))))
        ((rest.takeWhile fun d => d ≠ '"' && d ≠ '\n').length + 1)
      | _ => .fault .openConstant := rfl

theorem munch_quoted {name : List Char} (h : ∀ c ∈ name, c ≠ '"' ∧ c ≠ '\n') (rest : List Char) :
    munch '"' (name ++ '"' :: rest) =
      .take (.token (.constant (String.ofList name))) (name.length + 1) := by
  have htake : (name ++ '"' :: rest).takeWhile (fun d => d ≠ '"' && d ≠ '\n') = name :=
    takeWhile_append_of_stopsAt (fun c hc => by simp [h c hc]) (by rintro c ⟨⟩; rfl)
  rw [munch_quote, htake, List.drop_left]
  rfl

theorem munch_brace (rest : List Char) :
    munch '\x7b' rest =
      match offset? rest with
      | some (o, after) => .take (.token (.offset o)) (rest.length - after.length)
      | none => .fault .openOffset := rfl

theorem munch_offset {cs : List Char} {o : Offset} (h : SpellsOffset cs o) (rest : List Char) :
    munch '\x7b' (cs.tail ++ rest) = .take (.token (.offset o)) cs.tail.length := by
  rw [munch_brace, offset?_spelled h]
  simp only [List.length_append, Nat.add_sub_cancel_right]

/-- The longest lexeme at the spelling of a token is the token. -/
theorem munch_spelling {t : Token} (ht : t.Writable) (hn : ∀ n, t ≠ .number n) :
    ∃ c cs, t.spelling.toList = c :: cs ∧
      ∀ rest, AtBlank rest → munch c (cs ++ rest) = .take (.token t) cs.length := by
  cases t with
  | comment => exact ht.elim
  | eof => exact ht.elim
  | number n => exact absurd rfl (hn n)
  | identifier name =>
    obtain ⟨c, cs, hname, hc, hcs⟩ := ht
    refine ⟨c, cs, hname, fun rest hrest => ?_⟩
    rw [munch_name hc hcs (hrest.stopsAt rfl), ← hname, String.ofList_toList]
  | constant name =>
    rw [Token.spelling]
    split
    · rename_i hfits
      refine ⟨'#', name.toList, by simp, fun rest hrest => ?_⟩
      rw [munch_hash (by rwa [String.ofList_toList]) (hrest.stopsAt rfl), String.ofList_toList]
    · refine ⟨'"', name.toList ++ ['"'], by simp, fun rest hrest => ?_⟩
      rw [List.append_assoc, List.singleton_append, munch_quoted ht, String.ofList_toList,
        List.length_append, List.length_singleton]
  | offset o =>
    refine ⟨'\x7b', o.text.toList.tail, ?_, fun rest _ => munch_offset (spellsOffset_text o) rest⟩
    show o.text.toList = _
    rw [toList_text, List.tail_cons]
  | minus => exact ⟨'-', [], rfl, fun rest hrest => munch_minus (hrest.stopsAt rfl)⟩
  | slash => exact ⟨'/', [], rfl, fun rest hrest => munch_slash (hrest.stopsAt rfl)⟩
  | arrow => exact ⟨'-', ['>'], rfl, fun _ _ => rfl⟩
  | _ => exact ⟨_, [], rfl, fun _ _ => rfl⟩

/-! ## Lines -/

theorem lexemes_nil (start : Nat) : lexemes start [] = .ok [] := by
  rw [lexemes]

/-- A lexeme at the front is cut off. -/
theorem lexemes_take {c : Char} (cs : List Char) {rest : List Char} {lexeme : Lexeme} (start : Nat)
    (h : munch c (cs ++ rest) = .take lexeme cs.length) :
    lexemes start (c :: cs ++ rest) =
      (lexemes (start + byteLength (c :: cs)) rest).map
        (⟨lexeme, start, start + byteLength (c :: cs)⟩ :: ·) := by
  rw [List.cons_append, lexemes, h]
  simp only [List.take_left, List.drop_left]

theorem lexemes_space (start : Nat) (rest : List Char) :
    lexemes start (' ' :: rest) = lexemes (start + 1) rest := by
  rw [lexemes]
  rfl

/-- The lexemes of the spelling of a token that begins at byte `start`. -/
def Token.placed (start : Nat) : Token → List Placed
  | .number n =>
    let ds := Nat.toDigits 10 n.toInt.natAbs
    if n.toInt < 0 then
      [⟨.token .minus, start, start + 1⟩, ⟨.digits ds, start + 1, start + 1 + byteLength ds⟩]
    else [⟨.digits ds, start, start + byteLength ds⟩]
  | t => [⟨.token t, start, start + byteLength t.spelling.toList⟩]

theorem Token.placed_of_ne_number {t : Token} (start : Nat) (hn : ∀ n, t ≠ .number n) :
    t.placed start = [⟨.token t, start, start + byteLength t.spelling.toList⟩] := by
  cases t with
  | number n => exact absurd rfl (hn n)
  | _ => rfl

theorem lexemes_digits (start : Nat) {ds rest : List Char} (hds : IsDigits ds)
    (hle : magnitude ds ≤ 0x8000000000000000) (hrest : StopsAt Char.isDigit rest) :
    lexemes start (ds ++ rest) =
      (lexemes (start + byteLength ds) rest).map
        (⟨.digits ds, start, start + byteLength ds⟩ :: ·) := by
  obtain ⟨c, cs, rfl, -⟩ := hds.exists_cons
  exact lexemes_take cs start (by rw [munch_digits hds hrest, if_pos hle])

/-- The spelling of a token is cut into its lexemes. -/
theorem lexemes_spelling {t : Token} (ht : t.Writable) (start : Nat) {rest : List Char}
    (hrest : AtBlank rest) :
    lexemes start (t.spelling.toList ++ rest) =
      (lexemes (start + byteLength t.spelling.toList) rest).map (t.placed start ++ ·) := by
  by_cases hn : ∃ n, t = .number n
  · obtain ⟨n, rfl⟩ := hn
    have hbound : n.toInt.natAbs ≤ 0x8000000000000000 := by
      have hlo := n.le_toInt
      have hhi := n.toInt_lt
      omega
    have hdigits := fun start => lexemes_digits start (isDigits_toDigits n.toInt.natAbs)
      (by rwa [magnitude_toDigits]) (hrest.stopsAt rfl)
    rw [Token.spelling, toList_toString, signedDigits, Token.placed]
    by_cases hneg : n.toInt < 0
    · obtain ⟨d, ds, hd, hdigit⟩ := (isDigits_toDigits n.toInt.natAbs).exists_cons
      have hstops : StopsAt (· == '>') (d :: (ds ++ rest)) := by
        rintro c ⟨⟩
        exact beq_false_of_ne (by rintro rfl; cases hdigit)
      have hminus := lexemes_take [] start (munch_minus hstops)
      rw [← List.cons_append, ← hd, List.singleton_append] at hminus
      rw [if_pos hneg, if_pos hneg, List.append_assoc, List.singleton_append, hminus, hdigits]
      have hlength : start + byteLength ('-' :: Nat.toDigits 10 n.toInt.natAbs) =
          start + byteLength ['-'] + byteLength (Nat.toDigits 10 n.toInt.natAbs) :=
        (Nat.add_assoc ..).symm
      rw [List.singleton_append, hlength]
      generalize lexemes (start + byteLength ['-'] + _) rest = result
      cases result <;> rfl
    · rw [if_neg hneg, if_neg hneg, List.nil_append, hdigits]
      rfl
  · obtain ⟨c, cs, hcs, hmunch⟩ := munch_spelling ht fun n h => hn ⟨n, h⟩
    rw [Token.placed_of_ne_number start fun n h => hn ⟨n, h⟩, hcs,
      lexemes_take cs start (hmunch rest hrest)]
    rfl

/-- The lexemes of a spelled line. -/
def Token.placedAll (start : Nat) : List Token → List Placed
  | [] => []
  | t :: ts => t.placed start ++ placedAll (start + byteLength t.spelling.toList + 1) ts

/-- A spelled line is cut into the lexemes of its tokens. -/
theorem lexemes_spelledLine {ts : List Token} (hts : ∀ t ∈ ts, t.Writable) (start : Nat) :
    lexemes start (Token.spelledLine ts).toList = .ok (Token.placedAll start ts) := by
  induction ts generalizing start with
  | nil => exact lexemes_nil start
  | cons t ts ih =>
    rw [List.forall_mem_cons] at hts
    cases ts with
    | nil =>
      have hend : AtBlank [] := nofun
      have h := lexemes_spelling hts.1 start hend
      rw [List.append_nil] at h
      rw [Token.spelledLine, List.map_singleton, String.intercalate_singleton, h,
        lexemes_nil]
      rfl
    | cons u ts =>
      have hline : (Token.spelledLine (t :: u :: ts)).toList =
          t.spelling.toList ++ ' ' :: (Token.spelledLine (u :: ts)).toList := by
        rw [Token.spelledLine, List.map_cons, List.map_cons, String.intercalate_cons_cons,
          String.toList_append, String.toList_append, List.append_assoc]
        rfl
      rw [hline, lexemes_spelling hts.1 start (by rintro c ⟨⟩; rfl), lexemes_space, ih hts.2]
      rfl

/-! ## Lexemes of any line -/

/-- What a line can be cut into: tokens other than numbers, and digits. -/
def Lexeme.Proper : Lexeme → Prop
  | .token t => t.Writable ∧ ∀ n, t ≠ .number n
  | .digits _ => True

theorem proper_of_single? {c : Char} {t : Token} (h : single? c = some t) :
    (Lexeme.token t).Proper := by
  unfold single? at h
  split at h <;> cases h <;> exact ⟨trivial, nofun⟩

theorem proper_of_munchSingle {c : Char} {lexeme : Lexeme} {more : Nat}
    (h : munchSingle c = .take lexeme more) : lexeme.Proper := by
  unfold munchSingle at h
  split at h
  · rename_i t ht
    cases h
    exact proper_of_single? ht
  · cases h

theorem proper_of_munch {c : Char} {rest : List Char} {lexeme : Lexeme} {more : Nat}
    (h : munch c rest = .take lexeme more) : lexeme.Proper := by
  have hall (p : Char → Bool) : ∀ d ∈ rest.takeWhile p, p d = true :=
    List.all_eq_true.1 List.all_takeWhile
  unfold munch at h
  split at h
  · cases h
  · split at h
    · rename_i hstart
      cases h
      exact ⟨⟨c, _, String.toList_ofList, hstart, hall _⟩, nofun⟩
    · split at h
      · dsimp only at h
        split at h <;> cases h
        trivial
      · split at h
        · cases h
        · cases h; exact ⟨trivial, nofun⟩
        · split at h <;> cases h
          refine ⟨fun d hd => ?_, nofun⟩
          rw [String.toList_ofList] at hd
          have hname := hall _ d hd
          constructor <;> rintro rfl <;> cases hname
        · dsimp only at h
          split at h <;> cases h
          refine ⟨fun d hd => ?_, nofun⟩
          rw [String.toList_ofList] at hd
          simpa using hall _ d hd
        · split at h <;> cases h
          exact ⟨trivial, nofun⟩
        · exact proper_of_munchSingle h

theorem exists_of_map_eq_ok {ε α β : Type} {f : α → β} {x : Except ε α} {b : β}
    (h : x.map f = .ok b) : ∃ a, x = .ok a ∧ f a = b := by
  cases x with
  | error e => cases h
  | ok a => exact ⟨a, rfl, Except.ok.inj h⟩

/-- The lexemes of any line are proper. -/
theorem proper_of_lexemes {start : Nat} {cs : List Char} {placed : List Placed}
    (h : lexemes start cs = .ok placed) : ∀ p ∈ placed, p.lexeme.Proper := by
  induction start, cs using lexemes.induct generalizing placed with
  | case1 start =>
    rw [lexemes_nil] at h
    cases h
    exact fun _ hp => absurd hp List.not_mem_nil
  | case2 start c rest more hmunch ih =>
    rw [lexemes, hmunch] at h
    exact ih h
  | case3 start c rest lexeme more hmunch stop =>
    rename_i ih
    rw [lexemes, hmunch] at h
    obtain ⟨tail, hrest, rfl⟩ := exists_of_map_eq_ok h
    exact List.forall_mem_cons.2 ⟨proper_of_munch hmunch, ih hrest⟩
  | case4 start c rest error hmunch =>
    rw [lexemes, hmunch] at h
    cases h

end BlockAutomata.Script
