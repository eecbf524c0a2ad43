import SqlTokens.Proofs.Names

/-!
# Digits behind names

A name with a point right behind it makes names of the digits that follow. What follows is told by
the tokens that have been read: `Scanner.BehindName` says that they end in such a name and a number
of points, whatever stands between them. The scanner carries one mark in the place of this history.
One scan notes in it what its token says, and of all forms two alone look at it
(`Placed.scan_forks`), so that along a run it says what the history does (`Placed.mark_scans`).
`scans_qualified` puts both together: behind such a name a digit starts a name and a point is a
point, and everywhere else each of them starts what the grammar of numbers says
(`Numeral.DigitLed`, `Numeral.PointLed`).
-/

namespace SqlTokens

/-! ## Numbers that start with a point -/

namespace Numeral

/-- The forms that start with a point in front of a digit, where the point belongs to no name: their
kind, their text, and the bytes behind it. -/
inductive PointLed : TokenKind → Bytes → Bytes → Prop where
  /-- Digits with an exponent behind them. -/
  | float {digits exponent rest : Bytes} : Digits Rune.isDigit digits → Exponent exponent →
      Stops Rune.isDigit rest → PointLed .floatLiteral (0x2E :: digits ++ exponent) rest
  /-- Digits with no exponent marked behind them. -/
  | decimal {digits rest : Bytes} : Digits Rune.isDigit digits → Stops Rune.isDigit rest →
      Stops Rune.isExponentMark rest → PointLed .decimalLiteral (0x2E :: digits) rest
  /-- Digits with a mark behind them that no exponent starts with, up to where no name goes on. -/
  | malformed {digits more rest : Bytes} {mark : UInt8} : Digits Rune.isDigit digits →
      Rune.onByte Rune.isExponentMark mark = true →
      (∀ exponent, Exponent exponent → ¬exponent <+: mark :: more ++ rest) →
      Comment.NameRun (digits ++ mark :: more) → NameEnds rest →
      PointLed .invalid (0x2E :: digits ++ mark :: more) rest

/-- None of these forms is a point. -/
theorem PointLed.kind_mem {kind : TokenKind} {text rest : Bytes} (h : PointLed kind text rest) :
    kind ∈ [TokenKind.floatLiteral, .decimalLiteral, .invalid] := by
  cases h with
  | float => decide
  | decimal => decide
  | malformed => decide

/-- More digits behind an exponent belong to it. -/
theorem Exponent.append {exponent more : Bytes} (h : Exponent exponent)
    (hmore : ∀ b ∈ more, Rune.onByte Rune.isDigit b = true) : Exponent (exponent ++ more) := by
  have hdigits {digits : Bytes} (h : Digits Rune.isDigit digits) :
      Digits Rune.isDigit (digits ++ more) :=
    ⟨List.append_ne_nil_of_left_ne_nil h.ne_nil _,
      fun b hb => (List.mem_append.mp hb).elim (h.all b) (hmore b)⟩
  cases h with
  | unsigned hmark h => exact .unsigned hmark (hdigits h)
  | signed hmark hsign h => exact .signed hmark hsign (hdigits h)

end Numeral

/-- A run over a wider class goes on where the run over a class stops. -/
theorem Cursor.skipWhile_of_subclass {p q : Rune → Bool} (hq : ∀ r, q r = true → p r = true)
    (c : Cursor) : c.skipWhile p = (c.skipWhile q).skipWhile p := by
  fun_induction Cursor.skipWhile q c with
  | case1 => rfl
  | case2 c _ hr ih => rw [← ih, Cursor.skipWhile_advance (hq _ hr)]
  | case3 => rfl

namespace Lexeme

open Numeral

variable {c : Cursor}

/-- Digits that make no number have a mark behind them, and no exponent starts with it. -/
theorem mark_of_scaled? {digits : Cursor} (h : scaled? c digits = none) :
    digits.rune.isExponentMark = true ∧ exponent? digits = none := by
  unfold scaled? at h
  split at h
  · rename_i hmark
    exact ⟨hmark, Option.map_eq_none_iff.mp h⟩
  · cases h

/-- Where no exponent is read, none lies ahead. -/
theorem not_isPrefix_of_exponent? {mark : Cursor} (h : exponent? mark = none) {exponent : Bytes}
    (hexponent : Exponent exponent) : ¬exponent <+: mark.ahead := by
  rintro ⟨behind, hbehind⟩
  -- With the digits behind it the exponent would have been read.
  have hahead : mark.ahead = (exponent ++ behind.takeWhile (Rune.onByte Rune.isDigit)) ++
      behind.dropWhile (Rune.onByte Rune.isDigit) := by
    rw [List.append_assoc, List.takeWhile_append_dropWhile, hbehind]
  have hstops : Stops Rune.isDigit (behind.dropWhile (Rune.onByte Rune.isDigit)) := by
    intro b hb
    have hhead := List.head?_dropWhile_not (Rune.onByte Rune.isDigit) behind
    rw [Option.mem_def.mp hb] at hhead
    exact hhead
  obtain ⟨stop, hstop, -⟩ := exponent?_complete
    (hexponent.append (List.all_eq_true.mp List.all_takeWhile)) hstops hahead
  rw [h] at hstop
  cases hstop

/-- A form that starts with a point in front of a digit is of the grammar, unless the point belongs
to a name. -/
theorem dot_sound (hpoint : c.rune.is '.' = true) (hdigit : c.advance.rune.isDigit = true) :
    ∃ kind stop, c.Reaches stop ∧ dot false c = whole kind c stop ∧
      PointLed kind (c.upTo stop) stop.ahead := by
  have hone : c.upTo c.advance = [0x2E] := (Cursor.upTo_advance_of_is (by decide) hpoint).1
  have hdigits := digits_skipWhile Rune.isAscii_isDigit hdigit
  have hstops := stops_skipWhile Rune.isAscii_isDigit c.advance
  have hreach : c.advance.Reaches (c.advance.skipWhile Rune.isDigit) :=
    (Cursor.Reaches.refl _).skipWhile _
  have hdot : dot false c = (scaled? c (c.advance.skipWhile Rune.isDigit)).getD
      (whole .invalid c (c.advance.skipWhile Rune.isNameChar)) := by
    unfold dot
    simp only [hdigit, Bool.not_true, Bool.or_self, Bool.false_eq_true, if_false]
  have hname : c.advance.skipWhile Rune.isNameChar =
      (c.advance.skipWhile Rune.isDigit).skipWhile Rune.isNameChar :=
    Cursor.skipWhile_of_subclass (fun _ h => Rune.isNameChar_of_isDigit h) c.advance
  rw [hdot]
  generalize c.advance.skipWhile Rune.isDigit = digits at hdigits hstops hreach hname
  rcases hscaled : scaled? c digits with _ | l
  · -- A mark without digits makes the form malformed, up to the end of the name behind the point.
    obtain ⟨hmark, hnone⟩ := mark_of_scaled? hscaled
    obtain ⟨mark, hin, htwo⟩ := upTo_advance_of_class Rune.isAscii_isExponentMark hmark
    have hstop : digits.advance.Reaches (c.advance.skipWhile Rune.isNameChar) := by
      rw [hname, ← Cursor.skipWhile_advance (Rune.isNameChar_of_isExponentMark hmark)]
      exact (Cursor.Reaches.refl _).skipWhile _
    have hrun := Comment.nameRun_upTo c.advance
    have hends : NameEnds (c.advance.skipWhile Rune.isNameChar).ahead :=
      Comment.skipWhile_ends c.advance
    generalize c.advance.skipWhile Rune.isNameChar = stop at hstop hrun hends
    have hbehind : digits.Reaches stop := (Cursor.Reaches.next digits).trans hstop
    have hahead := hbehind.ahead_eq
    rw [hreach.upTo_trans hbehind, hstop.upTo_eq_cons htwo] at hrun
    rw [hstop.upTo_eq_cons htwo] at hahead
    refine ⟨_, stop, (Cursor.Reaches.next c).trans (hreach.trans hbehind), rfl, ?_⟩
    rw [(hreach.trans hbehind).upTo_eq_cons hone, hreach.upTo_trans hbehind,
      hstop.upTo_eq_cons htwo]
    refine .malformed hdigits hin (fun exponent hexponent => ?_) hrun hends
    rw [← hahead]
    exact not_isPrefix_of_exponent? hnone hexponent
  · rcases scaled?_sound hscaled with ⟨stop, hstop, hexponent, hrest, rfl⟩ | ⟨hnone, rfl⟩
    · refine ⟨_, stop, (Cursor.Reaches.next c).trans (hreach.trans hstop), rfl, ?_⟩
      rw [(hreach.trans hstop).upTo_eq_cons hone, hreach.upTo_trans hstop]
      exact .float hdigits hexponent hrest
    · refine ⟨_, digits, (Cursor.Reaches.next c).trans hreach, rfl, ?_⟩
      rw [hreach.upTo_eq_cons hone]
      exact .decimal hdigits hstops hnone

end Lexeme

/-! ## What the mark says -/

namespace Scanner

variable {s : Scanner}

/-- Whether a token of a run of scans is a name with a point right behind it. -/
def NameAtPoint (s : Scanner) (n : Nat) : Prop :=
  ((s.scans n).scan.1.kind = .identifier ∨ (s.scans n).scan.1.kind = .quotedIdentifier) ∧
    (s.scans (n + 1)).cursor.ahead.head? = some 0x2E

/-- Whether the tokens before one of a run of scans end in a name with a point right behind it and
then in the given number of points. -/
inductive BehindName (s : Scanner) : Nat → Nat → Prop where
  /-- The name comes last. -/
  | name {n : Nat} : s.NameAtPoint n → BehindName s (n + 1) 0
  /-- One more point follows. -/
  | point {n points : Nat} : BehindName s n points → (s.scans n).scan.1.kind = .ofChar '.' →
      BehindName s (n + 1) (points + 1)

/-- A scan notes in the mark what its token says, and what it finds depends on the mark only where a
point or a digit starts the token. -/
theorem Placed.scan_forks (hs : s.Placed Vocabulary.standard) :
    s.scan.2.state.afterNameDot = nameDot s.scan.1 s.scan.2.cursor s.state.afterNameDot ∧
    ((s.scan.1.kind ≠ .ofChar '.' ∧ ∀ b ∈ s.head.ahead.head?, Rune.startsNumber b = false) ∨
    (s.head.rune.is '.' = true ∧
      s.scan.1 = (Lexeme.dot s.state.afterNameDot s.head).token s.head ∧
      s.scan.2.cursor = (Lexeme.dot s.state.afterNameDot s.head).stop) ∨
    (s.head.rune.isDigit = true ∧
      s.scan.1 = (Lexeme.number s.state.afterNameDot s.head).token s.head ∧
      s.scan.2.cursor = (Lexeme.number s.state.afterNameDot s.head).stop)) := by
  have htable : s.table = .standard := hs.table_eq
  have hself : s.state.mark s.state.afterNameDot = s.state := rfl
  rcases nextToken_forks s.config s.state s.cursor hs.canonical.le_length with
    ⟨t, next, s', hkind, hbyte, hfound⟩ | ⟨first, s', hreach, hpoint, hfound⟩ |
    ⟨first, s', b, hreach, hb, hdigit, hfound⟩
  · obtain ⟨flag, hfound⟩ := hfound s.state.afterNameDot
    rw [hself, ← htable] at hfound
    have ht : s.scan.1 = t := by rw [scan_of_nextToken hfound]
    rw [← ht] at hkind
    refine ⟨nameDot_of_ne hkind _ _ _, .inl ⟨hkind, fun b hb => hbyte b ?_⟩⟩
    rw [← Cursor.getElem?_offset] at hb
    change b ∈ s.cursor.source[s.scan.1.pos.offset]? at hb
    rwa [ht] at hb
  · have hfound := hfound s.state.afterNameDot
    rw [hself, ← htable] at hfound
    have hscan := scan_of_nextToken hfound
    obtain rfl : first = s.head := eq_head hreach (by rw [hscan]; rfl)
    rw [hscan]
    exact ⟨rfl, .inr (.inl ⟨(Cursor.rune_is_iff (by decide)).mpr hpoint, rfl, rfl⟩)⟩
  · have hfound := hfound s.state.afterNameDot
    rw [hself, ← htable] at hfound
    have hscan := scan_of_nextToken hfound
    obtain rfl : first = s.head := eq_head hreach (by rw [hscan]; rfl)
    have hrune : s.head.rune.isDigit = true :=
      (Cursor.rune_iff_head? Rune.isAscii_isDigit).mpr ⟨b, hb, hdigit⟩
    rw [hscan]
    exact ⟨rfl, .inr (.inr ⟨hrune, rfl, rfl⟩)⟩

/-- The mark says whether the tokens that have been read end in a name with a point right behind it
and any number of points. -/
theorem Placed.mark_scans (hs : s.Placed Vocabulary.standard) (h0 : s.state.afterNameDot = false)
    (n : Nat) : (s.scans n).state.afterNameDot = true ↔ ∃ points, s.BehindName n points := by
  induction n with
  | zero =>
    constructor
    · intro h
      rw [show (s.scans 0).state = s.state from rfl, h0] at h
      cases h
    · rintro ⟨points, h⟩
      cases h
  | succ n ih =>
    rw [Scanner.scans, (hs.scans n).1.scan_forks.1]
    by_cases hpoint : (s.scans n).scan.1.kind = .ofChar '.'
    · rw [nameDot_of_point hpoint, ih]
      constructor
      · rintro ⟨points, h⟩
        exact ⟨points + 1, h.point hpoint⟩
      · rintro ⟨points, h⟩
        cases h with
        | name hname =>
          obtain ⟨hkind, -⟩ := hname
          rw [hpoint] at hkind
          exact absurd hkind (by decide)
        | point h _ => exact ⟨_, h⟩
    · -- Behind another token than a point the name can only be the token itself.
      have hlast : (∃ points, s.BehindName (n + 1) points) ↔ s.NameAtPoint n := by
        constructor
        · rintro ⟨points, h⟩
          cases h with
          | name hname => exact hname
          | point _ h => exact absurd h hpoint
        · exact fun hname => ⟨0, .name hname⟩
      rw [hlast, nameDot, if_neg hpoint]
      split
      · rename_i hkind
        rw [Cursor.rune_is_iff (by decide)]
        exact ⟨fun h => ⟨hkind, h⟩, fun h => h.2⟩
      · rename_i hkind
        exact iff_of_false Bool.false_ne_true fun h => hkind h.1

/-! ## Points and digits -/

/-- Whether a scan reads a point alone. -/
structure ReadsPoint (s : Scanner) : Prop where
  /-- The token is a point. -/
  token_eq : s.scan.1 = ⟨.ofChar '.', s.head.pos, [0x2E]⟩
  /-- Nothing else is read. -/
  cursor_eq : s.scan.2.cursor = s.head.advance

/-- Whether a scan reads what the grammar of forms that start with a digit gives for the bytes from
the start of the token on. -/
structure ReadsNumber (s : Scanner) : Prop where
  /-- The token stands for the bytes from its start up to where the scan ends. -/
  ahead_eq : s.head.ahead = s.scan.1.text ++ s.scan.2.cursor.ahead
  /-- Its kind and its text are in the grammar, and no others are. -/
  exact : ∀ kind text rest, s.head.ahead = text ++ rest →
    (Numeral.DigitLed kind text rest ↔ kind = s.scan.1.kind ∧ text = s.scan.1.text)

/-- A point that comes next starts the next token. -/
theorem Placed.head_of_point (hs : s.Placed Vocabulary.standard)
    (hpoint : s.cursor.ahead.head? = some 0x2E) : s.head = s.cursor := by
  have hopens : Starter.ofByte? 0x2E = some .dot := by decide
  have hrune : s.cursor.rune = Rune.ofByte 0x2E :=
    Cursor.rune_of_head? (by decide) (by decide) hpoint
  have hskip : s.cursor.skipWhile Rune.isSpace = s.cursor :=
    Cursor.skipWhile_self (.inr (by rw [hrune]; decide))
  have hend : s.cursor.atEnd = false := by
    rw [Bool.eq_false_iff, Ne, Cursor.atEnd_iff_ahead]
    intro hnil
    rw [hnil] at hpoint
    cases hpoint
  refine (scan_of_lexeme (l := .dot s.state.afterNameDot s.cursor) hskip hend ?_).2
  rw [hs.table_eq]
  exact stepAt_of_starter _ _ _ hpoint hopens

/-- With the mark a point is a token by itself. -/
theorem Placed.readsPoint_of_mark (hs : s.Placed Vocabulary.standard)
    (hpoint : s.head.rune.is '.' = true) (hmark : s.state.afterNameDot = true) :
    s.ReadsPoint := by
  have hone : s.head.upTo s.head.advance = [0x2E] :=
    (Cursor.upTo_advance_of_is (by decide) hpoint).1
  have hhead : s.head.ahead.head? = some 0x2E := (Cursor.rune_is_iff (by decide)).mp hpoint
  rcases hs.scan_forks.2 with ⟨-, hplain⟩ | ⟨-, htoken, hcursor⟩ | ⟨hdigit, -, -⟩
  · exact absurd (hplain 0x2E hhead) (by decide)
  · rw [hmark, Lexeme.dot_true] at htoken hcursor
    rw [Lexeme.whole, hone] at htoken
    exact ⟨htoken, hcursor⟩
  · rw [Rune.is_iff.mp hpoint] at hdigit
    exact absurd hdigit (by decide)

/-- Without the mark a point in front of a digit starts a number, which may be malformed. -/
theorem Placed.pointLed_of_mark (hs : s.Placed Vocabulary.standard)
    (hpoint : s.head.rune.is '.' = true) (hdigit : s.head.advance.rune.isDigit = true)
    (hmark : s.state.afterNameDot = false) :
    Numeral.PointLed s.scan.1.kind s.scan.1.text s.scan.2.cursor.ahead := by
  have hhead : s.head.ahead.head? = some 0x2E := (Cursor.rune_is_iff (by decide)).mp hpoint
  rcases hs.scan_forks.2 with ⟨-, hplain⟩ | ⟨-, htoken, hcursor⟩ | ⟨hother, -, -⟩
  · exact absurd (hplain 0x2E hhead) (by decide)
  · obtain ⟨kind, stop, -, hdot, hled⟩ := Lexeme.dot_sound hpoint hdigit
    rw [hmark, hdot] at htoken hcursor
    rw [htoken, hcursor]
    exact hled
  · rw [Rune.is_iff.mp hpoint] at hother
    exact absurd hother (by decide)

/-- A digit that starts a token starts what the form of digits makes of it. -/
theorem Placed.number_of_digit (hs : s.Placed Vocabulary.standard)
    (hdigit : s.head.rune.isDigit = true) :
    s.scan.1 = (Lexeme.number s.state.afterNameDot s.head).token s.head ∧
      s.scan.2.cursor = (Lexeme.number s.state.afterNameDot s.head).stop := by
  obtain ⟨b, hb, hin⟩ := (Cursor.rune_iff_head? Rune.isAscii_isDigit).mp hdigit
  rcases hs.scan_forks.2 with ⟨-, hplain⟩ | ⟨hpoint, -, -⟩ | ⟨-, htoken, hcursor⟩
  · have hstarts := hplain b hb
    rw [Rune.startsNumber, hin, Bool.or_true] at hstarts
    cases hstarts
  · rw [Rune.is_iff.mp hpoint] at hdigit
    exact absurd hdigit (by decide)
  · exact ⟨htoken, hcursor⟩

/-- With the mark a digit starts a name. -/
theorem Placed.readsName_of_mark (hs : s.Placed Vocabulary.standard)
    (hdigit : s.head.rune.isDigit = true) (hmark : s.state.afterNameDot = true) :
    s.ReadsName := by
  obtain ⟨htoken, hcursor⟩ := hs.number_of_digit hdigit
  rw [hmark, Lexeme.number_true] at htoken hcursor
  exact hs.readsName (Rune.isNameChar_of_isDigit hdigit) htoken hcursor

/-- Without the mark a digit starts what the grammar says. -/
theorem Placed.readsNumber_of_mark (hs : s.Placed Vocabulary.standard)
    (hdigit : s.head.rune.isDigit = true) (hmark : s.state.afterNameDot = false) :
    s.ReadsNumber := by
  obtain ⟨htoken, hcursor⟩ := hs.number_of_digit hdigit
  obtain ⟨kind, stop, hreach, hnumber, hexact⟩ := Lexeme.number_exact hdigit
  rw [hmark, hnumber] at htoken hcursor
  refine ⟨?_, fun kind' text rest ha => ?_⟩
  · rw [htoken, hcursor]
    exact hreach.ahead_eq
  · rw [htoken]
    exact hexact kind' text rest ha

/-- Digits behind names. In every run of scans over a source under the standard table, a point right
behind a name is the next token by itself, whatever follows it. A token that starts with a digit is
the longest name that starts there if the tokens before it end in such a name with one or more
points behind it, whatever stands between the points, and else it is what the grammar of numbers
says. A token that starts with a point in front of a digit is a point alone if the tokens before it
end in such a name, with or without points behind it, and only then; else it is a number, which may
be malformed. -/
theorem scans_qualified (config : Config) (source : Bytes) (s : Scanner)
    (hs : s = start .standard config source) (n : Nat) :
    (s.NameAtPoint n → (s.scans (n + 1)).head = (s.scans (n + 1)).cursor ∧
      (s.scans (n + 1)).ReadsPoint) ∧
    ((s.scans n).head.rune.isDigit = true →
      ((∃ points, 0 < points ∧ s.BehindName n points) → (s.scans n).ReadsName) ∧
      ((¬∃ points, 0 < points ∧ s.BehindName n points) → (s.scans n).ReadsNumber)) ∧
    ((s.scans n).head.rune.is '.' = true → (s.scans n).head.advance.rune.isDigit = true →
      ((s.scans n).ReadsPoint ↔ ∃ points, s.BehindName n points) ∧
      ((¬∃ points, s.BehindName n points) → Numeral.PointLed (s.scans n).scan.1.kind
        (s.scans n).scan.1.text (s.scans n).scan.2.cursor.ahead)) := by
  have hstart : s.Placed Vocabulary.standard := by
    rw [hs]
    exact start_placed Vocabulary.standard config source
  have h0 : s.state.afterNameDot = false := by
    rw [hs]
    rfl
  have hplaced (n : Nat) : (s.scans n).Placed Vocabulary.standard := (hstart.scans n).1
  have hmark := hstart.mark_scans h0
  have hnot {n : Nat} (h : ¬∃ points, s.BehindName n points) :
      (s.scans n).state.afterNameDot = false :=
    Bool.eq_false_iff.mpr fun hflag => h ((hmark n).mp hflag)
  -- Right behind a name comes the point, and so no digit.
  have hpoint {n : Nat} (h : s.NameAtPoint n) :
      (s.scans (n + 1)).head = (s.scans (n + 1)).cursor := (hplaced (n + 1)).head_of_point h.2
  refine ⟨fun h => ⟨hpoint h, ?_⟩, fun hdigit => ⟨?_, fun h => ?_⟩,
    fun hdot hdigit => ⟨⟨?_, ?_⟩, ?_⟩⟩
  · refine (hplaced (n + 1)).readsPoint_of_mark ?_ ((hmark _).mpr ⟨0, .name h⟩)
    rw [hpoint h, Cursor.rune_is_iff (by decide)]
    exact h.2
  · rintro ⟨points, -, h⟩
    exact (hplaced n).readsName_of_mark hdigit ((hmark n).mpr ⟨points, h⟩)
  · refine (hplaced n).readsNumber_of_mark hdigit (hnot ?_)
    rintro ⟨points, hbehind⟩
    cases hbehind with
    | name hname =>
      rw [hpoint hname, Cursor.rune_iff_head? Rune.isAscii_isDigit] at hdigit
      obtain ⟨b, hb, hin⟩ := hdigit
      rw [hname.2, Option.some.injEq] at hb
      rw [← hb] at hin
      exact absurd hin (by decide)
    | point hname hkind => exact h ⟨_, Nat.succ_pos _, .point hname hkind⟩
  · intro hreads
    by_contra h
    have hled := ((hplaced n).pointLed_of_mark hdot hdigit (hnot h)).kind_mem
    have hkind : (s.scans n).scan.1.kind = .ofChar '.' := by rw [hreads.token_eq]
    rw [hkind] at hled
    exact absurd hled (by decide)
  · exact fun h => (hplaced n).readsPoint_of_mark hdot ((hmark n).mpr h)
  · exact fun h => (hplaced n).pointLed_of_mark hdot hdigit (hnot h)

/-- Behind a name and a point a number is a name, and so is its fraction behind one more point. -/
theorem scans_qualified_digits : ∃ s,
    s = start .standard {} [0x74, 0x2E, 0x31, 0x2E, 0x32] ∧ s.NameAtPoint 0 ∧
      s.BehindName 2 1 ∧ (s.scans 2).ReadsName ∧ (s.scans 2).scan.1.text = [0x31] ∧
      (s.scans 3).ReadsPoint := by
  obtain ⟨s, hs⟩ : ∃ s, s = start .standard {} [0x74, 0x2E, 0x31, 0x2E, 0x32] := ⟨_, rfl⟩
  obtain ⟨hname, hahead, hpoint, hdigit, htext⟩ : (s.scans 0).scan.1.kind = .identifier ∧
      (s.scans 1).cursor.ahead.head? = some 0x2E ∧
      (s.scans 1).scan.1.kind = .ofChar '.' ∧ (s.scans 2).head.rune.isDigit = true ∧
      (s.scans 2).scan.1.text = [0x31] := by
    rw [hs]
    decide +kernel
  have hfirst : s.NameAtPoint 0 := ⟨.inl hname, hahead⟩
  have hbehind : s.BehindName 2 1 := .point (.name hfirst) hpoint
  have hreads := ((scans_qualified {} _ s hs 2).2.1 hdigit).1 ⟨1, Nat.one_pos, hbehind⟩
  refine ⟨s, hs, hfirst, hbehind, hreads, htext, ?_⟩
  refine ((scans_qualified {} _ s hs 2).1 ⟨.inl hreads.kind_eq, ?_⟩).2
  rw [hs]
  decide +kernel

end Scanner

end SqlTokens
