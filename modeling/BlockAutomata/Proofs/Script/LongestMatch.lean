/-
  Cutting a line at the longest matches.

  1. `Spells` says which texts are lexemes, and of which kind: blanks, comments, names, constants,
     rows of digits of any length, offsets and signs.  A line is cut well when each piece is the
     longest text at its place that is a lexeme (`IsCut`).

  2. What is longest ends where its class of characters ends, so `munch` takes it whole
     (`lexemes_piece`).  Only a number beyond 2^63 stops the scan (`lexemes_large`).

  3. Hence the scan cuts a line at the longest matches (`lexemes_append`).  A row of digits that is
     not part of another piece is a piece of its own (`exists_piece_of_run`).
-/
import BlockAutomata.Proofs.Script.Lexemes

namespace BlockAutomata.Script

/-! ## Pieces -/

/-- The text is a lexeme, and what it stands for; `none` for what is skipped. -/
inductive Spells (cs : List Char) : Option Lexeme → Prop where
  | blanks : cs ≠ [] → (∀ c ∈ cs, isBlank c = true) → Spells cs none
  | comment {more : List Char} : cs = '/' :: '/' :: more → '\n' ∉ more → Spells cs none
  | name : Token.IsName cs → Spells cs (some (.token (.identifier (String.ofList cs))))
  | hash {name : List Char} : cs = '#' :: name → Token.fitsHash (String.ofList name) = true →
      Spells cs (some (.token (.constant (String.ofList name))))
  | quoted {name : List Char} : cs = '"' :: (name ++ ['"']) → (∀ c ∈ name, c ≠ '"' ∧ c ≠ '\n') →
      Spells cs (some (.token (.constant (String.ofList name))))
  | digits : IsDigits cs → Spells cs (some (.digits cs))
  | offset {o : Offset} : SpellsOffset cs o → Spells cs (some (.token (.offset o)))
  | symbol {t : Token} {s : String} : t.symbol? = some s → cs = s.toList →
      Spells cs (some (.token t))

/-- No longer text at the beginning of the line is a lexeme. -/
def IsLongest (cs rest : List Char) : Prop :=
  ∀ more lexeme?, more <+: rest → Spells (cs ++ more) lexeme? → more = []

/-- A part of a line, and what it stands for. -/
structure Piece where
  text : List Char
  lexeme? : Option Lexeme

namespace Piece

/-- A row of digits. -/
def digits (ds : List Char) : Piece := ⟨ds, some (.digits ds)⟩

/-- The text of the pieces. -/
def textOf (pieces : List Piece) : List Char := pieces.flatMap text

/-- The piece as a lexeme of a line, where it begins at byte `start`. -/
def placed (start : Nat) (p : Piece) : List Placed :=
  match p.lexeme? with
  | none => []
  | some lexeme => [⟨lexeme, start, start + byteLength p.text⟩]

/-- The piece is no number beyond 2^63. -/
def Fits (p : Piece) : Prop :=
  ∀ ds, p.lexeme? = some (.digits ds) → magnitude ds ≤ 0x8000000000000000

/-- The lexemes of pieces that begin at byte `start`. -/
def placedAll (start : Nat) : List Piece → List Placed
  | [] => []
  | p :: ps => p.placed start ++ placedAll (start + byteLength p.text) ps

end Piece

/-- The line consists of the pieces, each of which is the longest lexeme at its place. -/
inductive IsCut : List Char → List Piece → Prop where
  | nil : IsCut [] []
  | cons {cs rest : List Char} {lexeme? : Option Lexeme} {pieces : List Piece} :
      Spells cs lexeme? → IsLongest cs rest → IsCut rest pieces →
      IsCut (cs ++ rest) (⟨cs, lexeme?⟩ :: pieces)

theorem IsCut.textOf_eq {cs : List Char} {pieces : List Piece} (h : IsCut cs pieces) :
    Piece.textOf pieces = cs := by
  induction h with
  | nil => rfl
  | cons _ _ _ ih => exact congrArg (_ ++ ·) ih

/-- What stands behind some of the pieces is cut into the others. -/
theorem IsCut.drop {cs : List Char} {before after : List Piece} (h : IsCut cs (before ++ after)) :
    ∃ rest, cs = Piece.textOf before ++ rest ∧ IsCut rest after := by
  induction before generalizing cs with
  | nil => exact ⟨cs, rfl, h⟩
  | cons p before ih =>
    cases h with
    | cons _ _ hrest =>
      obtain ⟨rest, rfl, hcut⟩ := ih hrest
      exact ⟨rest, (List.append_assoc _ _ _).symm, hcut⟩

/-! ## The longest match is taken -/

section Longest

variable {cs rest : List Char}

/-- If each character of a class can still be added, the rest of the line begins outside of it. -/
theorem IsLongest.stopsAt (h : IsLongest cs rest) {p : Char → Bool}
    (hp : ∀ c, p c = true → ∃ lexeme?, Spells (cs ++ [c]) lexeme?) : StopsAt p rest := by
  intro c hc
  rw [← Bool.not_eq_true]
  intro hpc
  obtain ⟨lexeme?, hspells⟩ := hp c hpc
  cases rest with
  | nil => cases hc
  | cons d rest =>
    cases hc
    cases h [c] lexeme? (List.prefix_append [c] rest) hspells

theorem stopsAt_of_digits (hds : IsDigits cs) (hlongest : IsLongest cs rest) :
    StopsAt Char.isDigit rest :=
  hlongest.stopsAt fun _ hd => ⟨_, .digits ⟨by simp [hds.1], List.forall_mem_append.2
    ⟨hds.2, List.forall_mem_singleton.2 hd⟩⟩⟩

/-- Only a minus and a slash depend on what follows: they may begin an arrow or a comment. -/
theorem munch_symbol {t : Token} {s : String} (ht : t.symbol? = some s)
    (hlongest : IsLongest s.toList rest) :
    ∃ c more, s.toList = c :: more ∧ munch c (more ++ rest) = .take (.token t) more.length := by
  cases t with
  | comment | identifier _ | constant _ | number _ | offset _ | eof => cases ht
  | minus =>
    cases ht
    refine ⟨'-', [], rfl, munch_minus (hlongest.stopsAt fun c hc => ⟨some (.token .arrow), ?_⟩)⟩
    rw [beq_iff_eq.1 hc]
    exact @Spells.symbol _ .arrow "->" rfl rfl
  | slash =>
    cases ht
    refine ⟨'/', [], rfl, munch_slash (hlongest.stopsAt fun c hc => ⟨none, ?_⟩)⟩
    rw [beq_iff_eq.1 hc]
    exact .comment rfl List.not_mem_nil
  | arrow => cases ht; exact ⟨'-', ['>'], rfl, rfl⟩
  | _ => cases ht; exact ⟨_, [], rfl, rfl⟩

theorem fitsHash_append {name : List Char} (h : Token.fitsHash (String.ofList name) = true)
    {c : Char} (hc : Token.continuesConstant c = true) :
    Token.fitsHash (String.ofList (name ++ [c])) = true := by
  rw [Token.fitsHash, String.toList_ofList] at h ⊢
  cases name with
  | nil => cases h
  | cons first more =>
    rw [Bool.and_eq_true] at h
    simp [h, hc]

/-- The longest text that is a lexeme is taken, unless it is a number beyond 2^63. -/
theorem munch_spelled {lexeme : Lexeme} (hspells : Spells cs (some lexeme))
    (hlongest : IsLongest cs rest)
    (hsmall : ∀ ds, lexeme = .digits ds → magnitude ds ≤ 0x8000000000000000) :
    ∃ c more, cs = c :: more ∧ munch c (more ++ rest) = .take lexeme more.length := by
  cases hspells with
  | name hname =>
    obtain ⟨c, more, rfl, hc, hmore⟩ := hname
    refine ⟨c, more, rfl, munch_name hc hmore (hlongest.stopsAt fun d hd => ⟨_, .name ?_⟩)⟩
    refine ⟨c, more ++ [d], rfl, hc, List.forall_mem_append.2 ⟨hmore, ?_⟩⟩
    exact List.forall_mem_singleton.2 hd
  | @hash name hcs hfits =>
    subst hcs
    exact ⟨'#', name, rfl, munch_hash hfits
      (hlongest.stopsAt fun d hd => ⟨_, .hash rfl (fitsHash_append hfits hd)⟩)⟩
  | @quoted name hcs hname =>
    subst hcs
    refine ⟨'"', name ++ ['"'], rfl, ?_⟩
    rw [List.append_assoc, List.singleton_append, munch_quoted hname, List.length_append,
      List.length_singleton]
  | digits hds =>
    obtain ⟨c, more, rfl, -⟩ := hds.exists_cons
    have hstops := stopsAt_of_digits hds hlongest
    exact ⟨c, more, rfl, by rw [munch_digits hds hstops, if_pos (hsmall _ rfl)]⟩
  | offset ho =>
    have hbrace : ∃ more, cs = '\x7b' :: more := by cases ho; exact ⟨_, rfl⟩
    obtain ⟨more, rfl⟩ := hbrace
    exact ⟨'\x7b', more, rfl, munch_offset ho rest⟩
  | symbol ht hcs =>
    subst hcs
    exact munch_symbol ht hlongest

/-- Blanks are skipped one by one. -/
theorem lexemes_blanks (hcs : ∀ c ∈ cs, isBlank c = true) (start : Nat) :
    lexemes start (cs ++ rest) = lexemes (start + byteLength cs) rest := by
  induction cs generalizing start with
  | nil => rfl
  | cons c cs ih =>
    rw [List.forall_mem_cons] at hcs
    have hmunch : munch c (cs ++ rest) = .skip 0 := by
      unfold munch
      rw [if_pos hcs.1]
    rw [List.cons_append, lexemes, hmunch]
    dsimp only
    rw [List.take_zero, List.drop_zero, ih hcs.2, Nat.add_assoc]
    rfl

/-- A comment is skipped up to the end of the line. -/
theorem lexemes_comment (hcs : '\n' ∉ cs) (hrest : StopsAt (· ≠ '\n') rest) (start : Nat) :
    lexemes start ('/' :: '/' :: cs ++ rest) =
      lexemes (start + byteLength ('/' :: '/' :: cs)) rest := by
  have htake : ('/' :: cs ++ rest).takeWhile (· ≠ '\n') = '/' :: cs := by
    refine takeWhile_append_of_stopsAt (fun c hc => decide_eq_true ?_) hrest
    rintro rfl
    rcases List.mem_cons.1 hc with h | h
    · cases h
    · exact hcs h
  have hmunch : munch '/' ('/' :: cs ++ rest) = .skip ('/' :: cs).length := by
    show Munch.skip (('/' :: cs ++ rest).takeWhile (· ≠ '\n')).length = _
    rw [htake]
  rw [List.cons_append, lexemes, hmunch]
  simp only [List.take_left, List.drop_left]

/-- A piece at the front is cut off, unless it is a number beyond 2^63. -/
theorem lexemes_piece {lexeme? : Option Lexeme} (hspells : Spells cs lexeme?)
    (hlongest : IsLongest cs rest)
    (hsmall : Piece.Fits ⟨cs, lexeme?⟩) (start : Nat) :
    lexemes start (cs ++ rest) =
      (lexemes (start + byteLength cs) rest).map (Piece.placed start ⟨cs, lexeme?⟩ ++ ·) := by
  cases lexeme? with
  | none =>
    have hskip : lexemes start (cs ++ rest) = lexemes (start + byteLength cs) rest := by
      cases hspells with
      | blanks _ hcs => exact lexemes_blanks hcs start
      | @comment more hcs hmore =>
        subst hcs
        refine lexemes_comment hmore (hlongest.stopsAt fun c hc => ⟨none, .comment rfl ?_⟩) start
        rintro hn
        rcases List.mem_append.1 hn with h | h
        · exact hmore h
        · exact absurd (List.mem_singleton.1 h).symm (of_decide_eq_true hc)
    rw [hskip]
    cases lexemes (start + byteLength cs) rest <;> rfl
  | some lexeme =>
    obtain ⟨c, more, rfl, hmunch⟩ := munch_spelled hspells hlongest fun ds h =>
      hsmall ds (congrArg some h)
    exact lexemes_take more start hmunch

/-- A number beyond 2^63 stops the scan. -/
theorem lexemes_large {ds : List Char} (hds : IsDigits ds) (hlongest : IsLongest ds rest)
    (hlarge : 0x8000000000000000 < magnitude ds) (start : Nat) :
    lexemes start (ds ++ rest) = .error (.numberTooLarge (String.ofList ds) (start + 1)) := by
  obtain ⟨c, more, rfl, -⟩ := hds.exists_cons
  have hstops : StopsAt Char.isDigit rest := stopsAt_of_digits hds hlongest
  rw [List.cons_append, lexemes, munch_digits hds hstops, if_neg (Nat.not_le.2 hlarge)]

end Longest

/-! ## Lines -/

theorem byteLength_append (cs ds : List Char) :
    byteLength (cs ++ ds) = byteLength cs + byteLength ds := by
  induction cs with
  | nil => exact (Nat.zero_add _).symm
  | cons c cs ih =>
    show c.utf8Size + byteLength (cs ++ ds) = c.utf8Size + byteLength cs + byteLength ds
    rw [ih, Nat.add_assoc]

/-- The pieces in front of others are cut off one after the other. -/
theorem lexemes_append {cs : List Char} {before after : List Piece}
    (hcut : IsCut cs (before ++ after))
    (hsmall : ∀ p ∈ before, p.Fits) (start : Nat) :
    ∃ rest, IsCut rest after ∧
      lexemes start cs = (lexemes (start + byteLength (Piece.textOf before)) rest).map
        (Piece.placedAll start before ++ ·) := by
  induction before generalizing cs start with
  | nil =>
    refine ⟨cs, hcut, ?_⟩
    show lexemes start cs = (lexemes start cs).map id
    cases lexemes start cs <;> rfl
  | cons p before ih =>
    cases hcut with
    | @cons text rest lexeme? _ hspells hlongest hrest =>
      obtain ⟨hp, hbefore⟩ := List.forall_mem_cons.1 hsmall
      obtain ⟨rest, hcut, hlexemes⟩ := ih hrest hbefore (start + byteLength text)
      have hlength : byteLength (Piece.textOf (⟨text, lexeme?⟩ :: before)) =
        byteLength text + byteLength (Piece.textOf before) := byteLength_append _ _
      refine ⟨rest, hcut, ?_⟩
      rw [lexemes_piece hspells hlongest hp, hlexemes, hlength, ← Nat.add_assoc]
      cases lexemes (start + byteLength text + byteLength (Piece.textOf before)) rest with
      | error e => rfl
      | ok placed => exact congrArg Except.ok (List.append_assoc _ _ _).symm

/-- A line without numbers beyond 2^63 is cut into the lexemes of its pieces. -/
theorem lexemes_of_isCut {cs : List Char} {pieces : List Piece} (hcut : IsCut cs pieces)
    (hsmall : ∀ p ∈ pieces, p.Fits) (start : Nat) :
    lexemes start cs = .ok (Piece.placedAll start pieces) := by
  rw [← List.append_nil pieces] at hcut
  obtain ⟨rest, hrest, hlexemes⟩ := lexemes_append hcut hsmall start
  cases hrest
  rw [hlexemes, lexemes_nil]
  exact congrArg Except.ok (List.append_nil _)

/-- The first number beyond 2^63 stops the scan. -/
theorem lexemes_of_large {cs ds : List Char} {before after : List Piece}
    (hcut : IsCut cs (before ++ .digits ds :: after))
    (hsmall : ∀ p ∈ before, p.Fits)
    (hlarge : 0x8000000000000000 < magnitude ds) (start : Nat) :
    lexemes start cs = .error
      (.numberTooLarge (String.ofList ds) (start + byteLength (Piece.textOf before) + 1)) := by
  obtain ⟨rest, hrest, hlexemes⟩ := lexemes_append hcut hsmall start
  rw [hlexemes]
  cases hrest with
  | cons hspells hlongest _ =>
    cases hspells with
    | digits hds =>
      rw [lexemes_large hds hlongest hlarge]
      rfl

/-! ## Rows of digits -/

/-- The piece is a comment, a name, a constant or an offset: it may have digits inside. -/
def Piece.Encloses (p : Piece) : Prop :=
  match p.lexeme? with
  | none => ∃ more, p.text = '/' :: '/' :: more
  | some (.token (.identifier _)) | some (.token (.constant _)) | some (.token (.offset _)) => True
  | _ => False

/-- The row of digits stands between `before` and `after` in the line, and cannot be made longer. -/
structure IsRun (cs before ds after : List Char) : Prop where
  eq : cs = before ++ ds ++ after
  digits : IsDigits ds
  left : ∀ c ∈ before.getLast?, c.isDigit = false
  right : StopsAt Char.isDigit after

/-- No piece that may have digits inside reaches into the row of digits between `before` and what
    follows. -/
def LiesOutside (pieces : List Piece) (before ds : List Char) : Prop :=
  ∀ left p right, pieces = left ++ p :: right → p.Encloses →
    (Piece.textOf left).length + p.text.length ≤ before.length ∨
      before.length + ds.length ≤ (Piece.textOf left).length

/-- Each character of the line is in some piece. -/
theorem exists_piece_at {pieces : List Piece} {i : Nat} (hi : i < (Piece.textOf pieces).length) :
    ∃ left p right, pieces = left ++ p :: right ∧ (Piece.textOf left).length ≤ i ∧
      i < (Piece.textOf left).length + p.text.length := by
  induction pieces generalizing i with
  | nil => cases hi
  | cons p ps ih =>
    have hlength : (Piece.textOf (p :: ps)).length = p.text.length + (Piece.textOf ps).length :=
      List.length_append
    by_cases hp : i < p.text.length
    · exact ⟨[], p, ps, rfl, Nat.zero_le _, by simpa [Piece.textOf] using hp⟩
    · obtain ⟨left, q, right, rfl, hle, hlt⟩ := @ih (i - p.text.length) (by omega)
      have hleft : (Piece.textOf (p :: left)).length =
        p.text.length + (Piece.textOf left).length := List.length_append
      exact ⟨p :: left, q, right, rfl, by omega, by omega⟩

/-- A piece with a digit that is not inside of something else is a row of digits. -/
theorem Spells.eq_digits {cs : List Char} {lexeme? : Option Lexeme} (h : Spells cs lexeme?)
    (hout : ¬ Piece.Encloses ⟨cs, lexeme?⟩) {d : Char} (hd : d ∈ cs) (hdigit : d.isDigit = true) :
    lexeme? = some (.digits cs) ∧ IsDigits cs := by
  cases h with
  | blanks _ hcs =>
    have hblank := isBlank_eq_false_of_isDigit hdigit
    rw [hcs d hd] at hblank
    cases hblank
  | comment hcs _ => exact absurd ⟨_, hcs⟩ hout
  | name => exact absurd trivial hout
  | hash => exact absurd trivial hout
  | quoted => exact absurd trivial hout
  | digits hds => exact ⟨rfl, hds⟩
  | offset => exact absurd trivial hout
  | @symbol t s ht hcs =>
    subst hcs
    have hnone : (s.toList.all fun c => !c.isDigit) = true := by cases t <;> cases ht <;> decide
    have hd := List.all_eq_true.1 hnone d hd
    rw [hdigit] at hd
    cases hd

/-- Every row of digits that is not inside of something else is a piece. -/
theorem exists_piece_of_run {cs before ds after : List Char} {pieces : List Piece}
    (hcut : IsCut cs pieces) (hrun : IsRun cs before ds after)
    (hout : LiesOutside pieces before ds) :
    ∃ left right, pieces = left ++ .digits ds :: right ∧ Piece.textOf left = before := by
  obtain ⟨d, ds', hds, hdigit⟩ := hrun.digits.exists_cons
  have hlength : ds.length = ds'.length + 1 := congrArg List.length hds
  -- the piece at the first digit
  obtain ⟨left, ⟨text, lexeme?⟩, right, rfl, hle, hlt⟩ :
      ∃ left p right, pieces = left ++ p :: right ∧ (Piece.textOf left).length ≤ before.length ∧
        before.length < (Piece.textOf left).length + p.text.length := by
    refine exists_piece_at ?_
    rw [hcut.textOf_eq, hrun.eq, List.length_append, List.length_append]
    omega
  dsimp only at hlt
  have houtside : ¬ Piece.Encloses ⟨text, lexeme?⟩ := fun h => by
    have := hout left _ right rfl h
    dsimp only at this
    omega
  obtain ⟨rest, hcs, hrest⟩ := hcut.drop
  cases hrest with
  | @cons _ rest _ _ hspells hlongest _ =>
    -- it begins with the rest of what stands before the row
    obtain ⟨middle, rfl⟩ : Piece.textOf left <+: before := by
      refine List.prefix_of_prefix_length_le ⟨_, hcs.symm⟩ ?_ hle
      exact ⟨ds ++ after, by rw [hrun.eq, List.append_assoc]⟩
    have hline : text ++ rest = middle ++ (ds ++ after) := by
      have h := hrun.eq
      rw [hcs, List.append_assoc, List.append_assoc] at h
      exact List.append_cancel_left h
    rw [List.length_append] at hlt
    obtain ⟨tail, rfl⟩ : middle <+: text :=
      List.prefix_of_prefix_length_le ⟨_, hline.symm⟩ ⟨_, rfl⟩ (by omega)
    rw [List.append_assoc, List.append_cancel_left_eq] at hline
    rw [List.length_append] at hlt
    have hmem : d ∈ middle ++ tail := by
      cases tail with
      | nil => simp at hlt
      | cons c tail =>
        rw [hds] at hline
        rw [(List.cons.inj hline).1]
        simp
    obtain ⟨rfl, hdigits⟩ := hspells.eq_digits houtside hmem hdigit
    -- but the row could be made longer by it
    have hmiddle : middle = [] := by
      refine Classical.byContradiction fun hne => ?_
      have hlast := List.getLast?_eq_some_getLast hne
      have h := hrun.left (middle.getLast hne) (by rw [List.getLast?_append, hlast]; rfl)
      rw [hdigits.2 _ (List.mem_append_left _ (List.getLast_mem hne))] at h
      cases h
    subst hmiddle
    have hdigits : IsDigits tail := hdigits
    have hsame : tail = ds := by
      rw [← takeWhile_append_of_stopsAt hdigits.2 (stopsAt_of_digits hdigits hlongest), hline,
        takeWhile_append_of_stopsAt hrun.digits.2 hrun.right]
    rw [hsame]
    exact ⟨left, right, rfl, (List.append_nil _).symm⟩

end BlockAutomata.Script
