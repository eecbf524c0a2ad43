import SqlTokens.Proofs.Features
import SqlTokens.Proofs.Spans
import SqlTokens.Scanner.Step

/-!
# The grammar of numbers

What a form that starts with a digit is. `Numeral.Literal` says it for the five kinds of numbers, on
the bytes of the number and those behind it, and `Numeral.DigitLed` adds that everything else is the
name that lies ahead. The reader goes by the rune behind the first digits and starts over when a
letter spoils the number; `number_sound` and `number_complete` say that it finds the numbers of the
grammar and no others, so that the two agree on every text (`Starter.outcome_number`). The name that
an exponent mark without digits makes of a number ends before the mark if there is a point
(`Starter.outcome_number_mark`).
-/

namespace SqlTokens

/-! ## Classes -/

namespace Rune

/-- The letters that mark an exponent. -/
def isExponentMark (r : Rune) : Bool := r.is 'e' || r.is 'E'

/-- The signs of an exponent. -/
def isSign (r : Rune) : Bool := r.is '+' || r.is '-'

/-- The letters that mark hexadecimal digits. -/
def isHexMark (r : Rune) : Bool := r.is 'x' || r.is 'X'

/-- The letters that mark hexadecimal or binary digits. -/
def isRadixMark (r : Rune) : Bool := r.isHexMark || r.is 'b'

/-- The marks of exponents are ASCII. -/
theorem isAscii_isExponentMark : IsAscii isExponentMark :=
  isAscii_or (isAscii_is (by decide)) (isAscii_is (by decide))

/-- The signs are ASCII. -/
theorem isAscii_isSign : IsAscii isSign :=
  isAscii_or (isAscii_is (by decide)) (isAscii_is (by decide))

/-- The marks of hexadecimal digits are ASCII. -/
theorem isAscii_isHexMark : IsAscii isHexMark :=
  isAscii_or (isAscii_is (by decide)) (isAscii_is (by decide))

/-- The marks of digits are ASCII. -/
theorem isAscii_isRadixMark : IsAscii isRadixMark :=
  isAscii_or isAscii_isHexMark (isAscii_is (by decide))

/-- The hexadecimal digits are ASCII. -/
theorem isAscii_isHexDigit : IsAscii isHexDigit :=
  isAscii_or (isAscii_or isAscii_isDigit (isAscii_within (by decide) (by decide)))
    (isAscii_within (by decide) (by decide))

/-- The binary digits are ASCII. -/
theorem isAscii_isBit : IsAscii isBit :=
  isAscii_within (by decide) (by decide)

/-- No digit marks digits. -/
theorem isRadixMark_of_isDigit {r : Rune} (h : r.isDigit = true) : r.isRadixMark = false := by
  rw [isRadixMark, isHexMark, is_eq_false h 'x' (by decide), is_eq_false h 'X' (by decide),
    is_eq_false h 'b' (by decide)]
  rfl

/-- What holds of both letters that mark an exponent holds of the rune that is one of them. -/
theorem of_isExponentMark {r : Rune} (h : r.isExponentMark = true) {q : Rune → Bool} {v : Bool}
    (hlower : q (ofChar 'e') = v) (hupper : q (ofChar 'E') = v) : q r = v := by
  rcases Bool.or_eq_true_iff.mp h with h | h
  · rw [is_iff.mp h, hlower]
  · rw [is_iff.mp h, hupper]

/-- The marks of exponents are characters of names. -/
theorem isNameChar_of_isExponentMark {r : Rune} (h : r.isExponentMark = true) :
    r.isNameChar = true :=
  of_isExponentMark h (by decide) (by decide)

/-- The marks of digits are characters of names. -/
theorem isNameChar_of_isRadixMark {r : Rune} (h : r.isRadixMark = true) : r.isNameChar = true := by
  rw [isRadixMark, isHexMark, Bool.or_eq_true, Bool.or_eq_true, is_iff, is_iff, is_iff] at h
  rcases h with (rfl | rfl) | rfl <;> decide

/-- A rune between two characters lies between any two around them. -/
theorem within_mono {r : Rune} {first last first' last' : Char}
    (hfirst : first'.toNat ≤ first.toNat) (hlast : last.toNat ≤ last'.toNat)
    (h : r.within first last = true) : r.within first' last' = true := by
  simp only [within, Bool.and_eq_true, decide_eq_true_iff] at h ⊢
  omega

/-- The digits are characters of names. -/
theorem isNameChar_of_isDigit {r : Rune} (h : r.isDigit = true) : r.isNameChar = true := by
  rw [isNameChar, isAlphanumeric, h, Bool.or_true, Bool.true_or, Bool.true_or, Bool.true_or]

/-- The binary digits are characters of names. -/
theorem isNameChar_of_isBit {r : Rune} (h : r.isBit = true) : r.isNameChar = true :=
  isNameChar_of_isDigit (within_mono (by decide) (by decide) h)

/-- The hexadecimal digits are characters of names. -/
theorem isNameChar_of_isHexDigit {r : Rune} (h : r.isHexDigit = true) : r.isNameChar = true := by
  have hletter : r.isDigit = true ∨ r.isLetter = true := by
    rw [isHexDigit, Bool.or_eq_true, Bool.or_eq_true] at h
    rw [isLetter, Bool.or_eq_true]
    rcases h with (h | h) | h
    · exact .inl h
    · exact .inr (.inl (within_mono (by decide) (by decide) h))
    · exact .inr (.inr (within_mono (by decide) (by decide) h))
  rcases hletter with h | h
  · exact isNameChar_of_isDigit h
  · rw [isNameChar, isAlphanumeric, h, Bool.true_or, Bool.true_or, Bool.true_or, Bool.true_or]

end Rune

/-! ## The grammar -/

namespace Numeral

/-- The texts of one or more bytes of a class. -/
structure Digits (p : Rune → Bool) (text : Bytes) : Prop where
  /-- There is at least one. -/
  ne_nil : text ≠ []
  /-- All are of the class. -/
  all : ∀ b ∈ text, Rune.onByte p b = true

/-- The texts that start with no byte of a class. -/
def Stops (p : Rune → Bool) (rest : Bytes) : Prop :=
  ∀ b ∈ rest.head?, Rune.onByte p b = false

/-- The texts behind which no name goes on. -/
def NameEnds (rest : Bytes) : Prop := (Rune.decode rest).1.isNameChar = false

/-- What may stand behind the first digits: nothing, or a point with any number of digits. -/
inductive Fraction : Bytes → Prop where
  /-- There is no point. -/
  | none : Fraction []
  /-- Behind the point there may be digits. -/
  | point {digits : Bytes} : (∀ b ∈ digits, Rune.onByte Rune.isDigit b = true) →
      Fraction (0x2E :: digits)

/-- The texts of exponents: a mark and digits, with or without a sign between them. -/
inductive Exponent : Bytes → Prop where
  /-- The digits follow the mark. -/
  | unsigned {mark : UInt8} {digits : Bytes} : Rune.onByte Rune.isExponentMark mark = true →
      Digits Rune.isDigit digits → Exponent (mark :: digits)
  /-- The digits follow a sign. -/
  | signed {mark sign : UInt8} {digits : Bytes} : Rune.onByte Rune.isExponentMark mark = true →
      Rune.onByte Rune.isSign sign = true → Digits Rune.isDigit digits →
      Exponent (mark :: sign :: digits)

/-- The numbers that start with a digit: their kind, their text, and the bytes behind it. -/
inductive Literal : TokenKind → Bytes → Bytes → Prop where
  /-- A name of a zero, an `x` and hexadecimal digits. -/
  | hex {mark : UInt8} {digits rest : Bytes} : Rune.onByte Rune.isHexMark mark = true →
      Digits Rune.isHexDigit digits → NameEnds rest →
      Literal .hexLiteral (0x30 :: mark :: digits) rest
  /-- A name of a zero, a lower-case `b` and binary digits. -/
  | bit {digits rest : Bytes} : Digits Rune.isBit digits → NameEnds rest →
      Literal .bitLiteral (0x30 :: 0x62 :: digits) rest
  /-- Digits with an exponent, and perhaps a fraction before it. -/
  | float {digits fraction exponent rest : Bytes} : Digits Rune.isDigit digits →
      Fraction fraction → Exponent exponent → Stops Rune.isDigit rest →
      Literal .floatLiteral (digits ++ fraction ++ exponent) rest
  /-- Digits with a point, if no exponent is marked. -/
  | decimal {digits fraction rest : Bytes} : Digits Rune.isDigit digits →
      (∀ b ∈ fraction, Rune.onByte Rune.isDigit b = true) → Stops Rune.isDigit rest →
      Stops Rune.isExponentMark rest → Literal .decimalLiteral (digits ++ 0x2E :: fraction) rest
  /-- A name of digits alone, with no point behind it. -/
  | int {digits rest : Bytes} : Digits Rune.isDigit digits → NameEnds rest →
      rest.head? ≠ some 0x2E → Literal .intLiteral digits rest

/-- The forms that start with a digit: a number, or else the longest name. -/
inductive DigitLed : TokenKind → Bytes → Bytes → Prop where
  /-- A number is what it is. -/
  | literal {kind : TokenKind} {text rest : Bytes} : Literal kind text rest →
      DigitLed kind text rest
  /-- Where no number lies ahead, the name does. -/
  | name {text rest : Bytes} : Comment.NameRun text → NameEnds rest →
      (∀ kind text' rest', text' ++ rest' = text ++ rest → ¬Literal kind text' rest') →
      DigitLed .identifier text rest

/-- An exponent starts with its mark. -/
theorem Exponent.exists_mark {exponent : Bytes} (h : Exponent exponent) :
    ∃ mark more, exponent = mark :: more ∧ Rune.onByte Rune.isExponentMark mark = true := by
  cases h with
  | unsigned hmark _ => exact ⟨_, _, rfl, hmark⟩
  | signed hmark _ _ => exact ⟨_, _, rfl, hmark⟩

/-- No exponent starts with a mark that neither a digit nor a sign follows. -/
theorem Exponent.not_isPrefix {mark : UInt8} {rest : Bytes} (hdigit : Stops Rune.isDigit rest)
    (hsign : Stops Rune.isSign rest) {exponent : Bytes} (h : Exponent exponent) :
    ¬exponent <+: mark :: rest := by
  rintro ⟨behind, hbehind⟩
  cases h with
  | unsigned _ hdigits =>
    obtain ⟨b, digits, rfl⟩ := List.exists_cons_of_ne_nil hdigits.ne_nil
    obtain ⟨-, rfl⟩ := List.cons.inj hbehind
    exact Bool.false_ne_true ((hdigit b rfl).symm.trans (hdigits.all b List.mem_cons_self))
  | signed _ hin _ =>
    obtain ⟨-, rfl⟩ := List.cons.inj hbehind
    exact Bool.false_ne_true ((hsign _ rfl).symm.trans hin)

/-! ### The grammar at a cursor -/

variable {p : Rune → Bool} {c : Cursor}

/-- Whether a byte of an ASCII class comes next is read off the rune. -/
theorem stops_iff (hp : Rune.IsAscii p) : Stops p c.ahead ↔ p c.rune = false := by
  rw [Bool.eq_false_iff, Ne, Cursor.rune_iff_head? hp, not_exists]
  constructor
  · rintro h b ⟨hb, hin⟩
    rw [h b hb] at hin
    cases hin
  · intro h b hb
    exact Bool.eq_false_iff.mpr fun hin => h b ⟨hb, hin⟩

/-- Behind a run of an ASCII class no byte of the class comes next. -/
theorem stops_skipWhile (hp : Rune.IsAscii p) (c : Cursor) : Stops p (c.skipWhile p).ahead := by
  rcases Cursor.skipWhile_stops p c with h | h
  · rw [Cursor.atEnd_iff_ahead.mp h]
    intro b hb
    cases hb
  · exact (stops_iff hp).mpr h

/-- The bytes of a run of an ASCII class are of the class. -/
theorem onByte_of_mem_skipWhile (hp : Rune.IsAscii p) (c : Cursor) :
    ∀ b ∈ c.upTo (c.skipWhile p), Rune.onByte p b = true := by
  rw [Cursor.upTo_skipWhile hp]
  exact List.all_eq_true.mp List.all_takeWhile

/-- A run that starts with a rune of its class has digits of the class. -/
theorem digits_skipWhile (hp : Rune.IsAscii p) (h : p c.rune = true) :
    Digits p (c.upTo (c.skipWhile p)) := by
  refine ⟨?_, onByte_of_mem_skipWhile hp c⟩
  obtain ⟨b, hb, hin⟩ := (Cursor.rune_iff_head? hp).mp h
  obtain ⟨rest, hrest⟩ := List.head?_eq_some_iff.mp hb
  rw [Cursor.upTo_skipWhile hp, hrest, List.takeWhile_cons_of_pos hin]
  exact List.cons_ne_nil _ _

/-- Where no name goes on, no character of names comes next. -/
theorem NameEnds.stops {rest : Bytes} (h : NameEnds rest) (hp : Rune.IsAscii p)
    (hname : ∀ r, p r = true → r.isNameChar = true) : Stops p rest := by
  intro b hb
  obtain ⟨behind, rfl⟩ := List.head?_eq_some_iff.mp hb
  rw [Bool.eq_false_iff]
  intro hin
  obtain ⟨h0, hascii⟩ := hp.byte hin
  rw [NameEnds, Rune.decode_ascii h0 hascii, hname _ hin] at h
  cases h

/-- One byte of a class is digits of it. -/
theorem digits_singleton {b : UInt8} (h : Rune.onByte p b = true) : Digits p [b] :=
  ⟨List.cons_ne_nil b [], List.forall_mem_singleton.mpr h⟩

/-- Digits start with one. -/
theorem Digits.rune {text rest : Bytes} (h : Digits p text) (hp : Rune.IsAscii p)
    (ha : c.ahead = text ++ rest) : p c.rune = true := by
  obtain ⟨b, digits, rfl⟩ := List.exists_cons_of_ne_nil h.ne_nil
  exact (Cursor.rune_iff_head? hp).mpr ⟨b, by rw [ha]; rfl, h.all b List.mem_cons_self⟩

end Numeral

/-! ## The reader -/

namespace Lexeme

open Numeral

variable {c : Cursor}

/-- A name is the longest run of name characters from its first one on. -/
theorem word_eq (h : c.rune.isNameChar = true) :
    word c = whole .identifier c (c.skipWhile Rune.isNameChar) := by
  rw [word, Cursor.skipWhile_advance h]

/-- A byte of an ASCII class is read by itself. -/
theorem upTo_advance_of_class {p : Rune → Bool} (hp : Rune.IsAscii p) (h : p c.rune = true) :
    ∃ b, Rune.onByte p b = true ∧ c.upTo c.advance = [b] := by
  obtain ⟨b, hb, hin⟩ := (Cursor.rune_iff_head? hp).mp h
  obtain ⟨rest, hrest⟩ := List.head?_eq_some_iff.mp hb
  exact ⟨b, hin, (Cursor.advance_of_onByte hp hrest hin).2.1⟩

/-- What has been read as an exponent is one, with all digits that there are. -/
theorem exponent?_sound {mark stop : Cursor} (hmark : mark.rune.isExponentMark = true)
    (h : exponent? mark = some stop) :
    Exponent (mark.upTo stop) ∧ Stops Rune.isDigit stop.ahead := by
  obtain ⟨b, hb, hone⟩ := upTo_advance_of_class Rune.isAscii_isExponentMark hmark
  unfold exponent? at h
  simp only [Option.ite_none_right_eq_some, Option.some.injEq] at h
  obtain ⟨hdigit, rfl⟩ := h
  refine ⟨?_, stops_skipWhile Rune.isAscii_isDigit _⟩
  have hdigits := digits_skipWhile Rune.isAscii_isDigit hdigit
  split at hdigits
  · rename_i hsign
    obtain ⟨sign, hsign', htwo⟩ := upTo_advance_of_class Rune.isAscii_isSign hsign
    rw [if_pos hsign, ((Cursor.Reaches.next _).skipWhile _).upTo_eq_cons hone,
      ((Cursor.Reaches.refl _).skipWhile _).upTo_eq_cons htwo]
    exact .signed hb hsign' hdigits
  · rename_i hsign
    rw [if_neg hsign, ((Cursor.Reaches.refl _).skipWhile _).upTo_eq_cons hone]
    exact .unsigned hb hdigits

/-- An exponent that lies ahead is read. -/
theorem exponent?_complete {mark : Cursor} {exponent rest : Bytes} (h : Exponent exponent)
    (hrest : Stops Rune.isDigit rest) (ha : mark.ahead = exponent ++ rest) :
    ∃ stop, exponent? mark = some stop ∧ mark.upTo stop = exponent ∧ stop.ahead = rest := by
  cases h with
  | @unsigned b digits hb hdigits =>
    obtain ⟨-, hone, hahead⟩ := Cursor.advance_of_onByte Rune.isAscii_isExponentMark ha hb
    have hdigit := hdigits.rune Rune.isAscii_isDigit hahead
    obtain ⟨hup, hbehind⟩ :=
      Cursor.skipWhile_of_run Rune.isAscii_isDigit hdigits.all hrest hahead
    refine ⟨mark.advance.skipWhile Rune.isDigit, ?_, ?_, hbehind⟩
    · simp only [exponent?, Rune.is_eq_false hdigit '+' (by decide),
        Rune.is_eq_false hdigit '-' (by decide), Bool.or_self, Bool.false_eq_true, if_false,
        hdigit, if_true]
    · rw [((Cursor.Reaches.refl _).skipWhile _).upTo_eq_cons hone, hup]
  | @signed b sign digits hb hsign hdigits =>
    obtain ⟨-, hone, hahead⟩ := Cursor.advance_of_onByte Rune.isAscii_isExponentMark ha hb
    obtain ⟨hsign', htwo, hahead'⟩ := Cursor.advance_of_onByte Rune.isAscii_isSign hahead hsign
    have hdigit := hdigits.rune Rune.isAscii_isDigit hahead'
    obtain ⟨hup, hbehind⟩ :=
      Cursor.skipWhile_of_run Rune.isAscii_isDigit hdigits.all hrest hahead'
    refine ⟨mark.advance.advance.skipWhile Rune.isDigit, ?_, ?_, hbehind⟩
    · rw [Rune.isSign] at hsign'
      simp only [exponent?, hsign', if_true, hdigit]
    · rw [((Cursor.Reaches.next _).skipWhile _).upTo_eq_cons hone,
        ((Cursor.Reaches.refl _).skipWhile _).upTo_eq_cons htwo, hup]

/-- A number with a point or an exponent has the exponent that is marked behind its digits; it has
none if none is marked. -/
theorem scaled?_sound {digits : Cursor} {l : Lexeme} (h : scaled? c digits = some l) :
    (∃ stop, digits.Reaches stop ∧ Exponent (digits.upTo stop) ∧
      Stops Rune.isDigit stop.ahead ∧ l = whole .floatLiteral c stop) ∨
    (Stops Rune.isExponentMark digits.ahead ∧ l = whole .decimalLiteral c digits) := by
  unfold scaled? at h
  split at h
  · rename_i hmark
    obtain ⟨stop, hstop, rfl⟩ := Option.map_eq_some_iff.mp h
    obtain ⟨hexponent, hrest⟩ := exponent?_sound hmark hstop
    exact .inl ⟨stop, exponent?_reaches hstop, hexponent, hrest, rfl⟩
  · rename_i hmark
    cases h
    exact .inr ⟨(stops_iff Rune.isAscii_isExponentMark).mpr (Bool.eq_false_iff.mpr hmark), rfl⟩

/-- A number with a point or an exponent is one of the grammar, if its digits are read up to the
place where the exponent may be marked. -/
theorem getD_scaled?_sound {digits : Cursor} {front fraction : Bytes} (hreach : c.Reaches digits)
    (hup : c.upTo digits = front ++ fraction) (hfront : Digits Rune.isDigit front)
    (hfraction : Fraction fraction) (hstops : Stops Rune.isDigit digits.ahead)
    (hmark : fraction = [] → digits.rune.isExponentMark = true) :
    (scaled? c digits).getD (word c) = word c ∨
      ∃ kind stop, c.Reaches stop ∧ Literal kind (c.upTo stop) stop.ahead ∧
        (scaled? c digits).getD (word c) = whole kind c stop := by
  rcases h : scaled? c digits with _ | l
  · exact .inl rfl
  · rcases scaled?_sound h with ⟨stop, hstop, hexponent, hrest, rfl⟩ | ⟨hnone, rfl⟩
    · refine .inr ⟨_, stop, hreach.trans hstop, ?_, rfl⟩
      rw [hreach.upTo_trans hstop, hup]
      exact .float hfront hfraction hexponent hrest
    · refine .inr ⟨_, digits, hreach, ?_, rfl⟩
      rw [hup]
      cases hfraction with
      | none =>
        rw [(stops_iff Rune.isAscii_isExponentMark).mp hnone] at hmark
        cases hmark rfl
      | point hdigits => exact .decimal hfront hdigits hstops hnone

/-- A literal with a leading zero is a name of its marks and its digits, and any other name is
none. -/
theorem radix_sound (kind : TokenKind) {digit : Rune → Bool} (hdigit : Rune.IsAscii digit) :
    radix kind digit c = word c ∨
      ∃ stop, c.advance.advance.Reaches stop ∧ Digits digit (c.advance.advance.upTo stop) ∧
        NameEnds stop.ahead ∧ radix kind digit c = whole kind c stop := by
  unfold radix
  simp only
  split
  · rename_i h
    rw [Bool.and_eq_true, Bool.not_eq_true'] at h
    refine .inr ⟨_, (Cursor.Reaches.refl _).skipWhile _, digits_skipWhile hdigit h.1, ?_, rfl⟩
    rw [NameEnds, ← Comment.isNameChar_rune, h.2]
  · exact .inl rfl

/-- A literal with a leading zero that lies ahead is read. -/
theorem radix_complete (kind : TokenKind) {digit : Rune → Bool} (hdigit : Rune.IsAscii digit)
    (hname : ∀ r, digit r = true → r.isNameChar = true) {digits rest : Bytes}
    (hdigits : Digits digit digits) (hrest : NameEnds rest)
    (ha : c.advance.advance.ahead = digits ++ rest) :
    ∃ stop, c.advance.advance.Reaches stop ∧ c.advance.advance.upTo stop = digits ∧
      radix kind digit c = whole kind c stop := by
  obtain ⟨hup, hbehind⟩ :=
    Cursor.skipWhile_of_run hdigit hdigits.all (hrest.stops hdigit hname) ha
  have hends : (c.advance.advance.skipWhile digit).rune.isNameChar = false := by
    rw [Comment.isNameChar_rune, hbehind, hrest]
  refine ⟨_, (Cursor.Reaches.refl _).skipWhile _, hup, ?_⟩
  simp only [radix, hdigits.rune hdigit ha, hends, Bool.not_false, Bool.and_self, if_true]

/-- In front of digits with a radix two marks are read. -/
theorem upTo_marks {mark : UInt8} (hzero : c.rune.is '0' = true)
    (hmark : c.advance.upTo c.advance.advance = [mark]) {stop : Cursor}
    (hstop : c.advance.advance.Reaches stop) :
    c.upTo stop = 0x30 :: mark :: c.advance.advance.upTo stop := by
  have hone : c.upTo c.advance = [0x30] :=
    (Cursor.upTo_advance_of_is (by decide : Rune.IsByte '0') hzero).1
  rw [((Cursor.Reaches.next _).trans hstop).upTo_eq_cons hone, hstop.upTo_eq_cons hmark]

/-- What is read of a form that starts with a digit is a number of the grammar or a name. -/
theorem number_sound (hdigit : c.rune.isDigit = true) :
    number false c = word c ∨
      ∃ kind stop, c.Reaches stop ∧ Literal kind (c.upTo stop) stop.ahead ∧
        number false c = whole kind c stop := by
  have hdigits := digits_skipWhile Rune.isAscii_isDigit hdigit
  have hstops := stops_skipWhile Rune.isAscii_isDigit c
  have hreach : c.Reaches (c.skipWhile Rune.isDigit) := (Cursor.Reaches.refl c).skipWhile _
  unfold number
  simp only [Bool.false_eq_true, if_false, Cursor.skipWhile_advance hdigit]
  generalize c.skipWhile Rune.isDigit = digits at hdigits hstops hreach
  split
  · rename_i h
    obtain ⟨hzero, hmark⟩ := Bool.and_eq_true_iff.mp h
    obtain ⟨mark, hin, htwo⟩ := upTo_advance_of_class Rune.isAscii_isHexMark hmark
    rcases radix_sound (c := c) .hexLiteral Rune.isAscii_isHexDigit with
      hword | ⟨stop, hstop, hhex, hends, heq⟩
    · exact .inl hword
    · refine .inr ⟨_, stop, (Cursor.Reaches.next c).advance.trans hstop, ?_, heq⟩
      rw [upTo_marks hzero htwo hstop]
      exact .hex hin hhex hends
  split
  · rename_i h
    obtain ⟨hzero, hmark⟩ := Bool.and_eq_true_iff.mp h
    have htwo := (Cursor.upTo_advance_of_is (by decide : Rune.IsByte 'b') hmark).1
    rcases radix_sound (c := c) .bitLiteral Rune.isAscii_isBit with
      hword | ⟨stop, hstop, hbits, hends, heq⟩
    · exact .inl hword
    · refine .inr ⟨_, stop, (Cursor.Reaches.next c).advance.trans hstop, ?_, heq⟩
      rw [upTo_marks hzero htwo hstop]
      exact .bit hbits hends
  split
  · -- Behind the point there may be more digits.
    rename_i hpoint
    have hone := (Cursor.upTo_advance_of_is (by decide : Rune.IsByte '.') hpoint).1
    have hmore : digits.advance.Reaches (digits.advance.skipWhile Rune.isDigit) :=
      (Cursor.Reaches.refl _).skipWhile _
    have hup : c.upTo (digits.advance.skipWhile Rune.isDigit) =
        c.upTo digits ++ 0x2E :: digits.advance.upTo (digits.advance.skipWhile Rune.isDigit) := by
      rw [hreach.upTo_trans ((Cursor.Reaches.next _).trans hmore), hmore.upTo_eq_cons hone]
      rfl
    exact getD_scaled?_sound (hreach.advance.trans hmore) hup hdigits
      (.point (onByte_of_mem_skipWhile Rune.isAscii_isDigit _))
      (stops_skipWhile Rune.isAscii_isDigit _) fun h => absurd h (List.cons_ne_nil _ _)
  split
  · rename_i hmark
    exact getD_scaled?_sound hreach (List.append_nil _).symm hdigits .none hstops fun _ => hmark
  split
  · exact .inl rfl
  · rename_i hpoint _ hname
    refine .inr ⟨_, _, hreach, .int hdigits ?_ ?_, rfl⟩
    · rw [NameEnds, ← Comment.isNameChar_rune, Bool.eq_false_iff]
      exact hname
    · exact mt (Cursor.rune_is_iff (by decide : Rune.IsByte '.')).mpr hpoint

/-- Behind digits that lie ahead, the rune that follows decides, unless it is one that marks digits
of another radix. -/
theorem number_digits {digits rest : Bytes} (hdigits : Digits Rune.isDigit digits)
    (hstops : Stops Rune.isDigit rest) (hmarks : Stops Rune.isRadixMark rest)
    (ha : c.ahead = digits ++ rest) :
    ∃ stop, c.Reaches stop ∧ c.upTo stop = digits ∧ stop.ahead = rest ∧
      number false c =
        if stop.rune.is '.' then
          (scaled? c (stop.advance.skipWhile Rune.isDigit)).getD (word c)
        else if stop.rune.isExponentMark then (scaled? c stop).getD (word c)
        else if stop.rune.isNameChar then word c
        else whole .intLiteral c stop := by
  have hdigit := hdigits.rune Rune.isAscii_isDigit ha
  obtain ⟨hup, hbehind⟩ := Cursor.skipWhile_of_run Rune.isAscii_isDigit hdigits.all hstops ha
  have hsecond : c.advance.rune.isRadixMark = false := by
    -- The second rune is another digit or the one behind the digits.
    obtain ⟨b, more, rfl⟩ := List.exists_cons_of_ne_nil hdigits.ne_nil
    obtain ⟨hb, hmore⟩ := List.forall_mem_cons.mp hdigits.all
    obtain ⟨-, -, hahead⟩ := Cursor.advance_of_onByte Rune.isAscii_isDigit ha hb
    rcases more with _ | ⟨d, more⟩
    · rw [← stops_iff Rune.isAscii_isRadixMark, hahead]
      exact hmarks
    · obtain ⟨hd, -⟩ := List.forall_mem_cons.mp hmore
      exact Rune.isRadixMark_of_isDigit
        (Cursor.advance_of_onByte Rune.isAscii_isDigit hahead hd).1
  obtain ⟨hhex, hbit⟩ := Bool.or_eq_false_iff.mp hsecond
  rw [Rune.isHexMark] at hhex
  refine ⟨c.skipWhile Rune.isDigit, (Cursor.Reaches.refl c).skipWhile _, hup, hbehind, ?_⟩
  unfold number
  simp only [Bool.false_eq_true, if_false, Cursor.skipWhile_advance hdigit, hhex, hbit,
    Bool.and_false]
  rfl

/-- A number with a point or an exponent is scaled where its digits end. -/
theorem number_scaled {digits fraction rest : Bytes} (hdigits : Digits Rune.isDigit digits)
    (hfraction : Fraction fraction) (hstops : Stops Rune.isDigit rest)
    (hmark : fraction = [] → ∃ mark ∈ rest.head?, Rune.onByte Rune.isExponentMark mark = true)
    (ha : c.ahead = digits ++ (fraction ++ rest)) :
    ∃ stop, c.Reaches stop ∧ c.upTo stop = digits ++ fraction ∧ stop.ahead = rest ∧
      number false c = (scaled? c stop).getD (word c) := by
  cases hfraction with
  | none =>
    obtain ⟨mark, hhead, hin⟩ := hmark rfl
    have hmarks : Stops Rune.isRadixMark rest := by
      intro b hb
      rw [Option.mem_unique hb hhead]
      exact Rune.of_isExponentMark hin (by decide) (by decide)
    obtain ⟨stop, hreach, hup, hbehind, hnumber⟩ := number_digits hdigits hstops hmarks ha
    have hrune : stop.rune.isExponentMark = true := by
      rw [Cursor.rune_iff_head? Rune.isAscii_isExponentMark, hbehind]
      exact ⟨mark, hhead, hin⟩
    refine ⟨stop, hreach, by rw [hup, List.append_nil], hbehind, ?_⟩
    rw [hnumber, Rune.is_eq_false hrune '.' (by decide), if_neg Bool.false_ne_true, if_pos hrune]
  | @point more hmore =>
    have hpoint : ∀ b ∈ (0x2E :: more ++ rest).head?, b = 0x2E := fun b hb =>
      (Option.some.inj hb).symm
    obtain ⟨stop, hreach, hup, hbehind, hnumber⟩ := number_digits hdigits
      (fun b hb => by rw [hpoint b hb]; decide) (fun b hb => by rw [hpoint b hb]; decide) ha
    obtain ⟨hone, hahead⟩ := Cursor.advance_of_ahead (by decide) hbehind
    obtain ⟨hrun, hend⟩ := Cursor.skipWhile_of_run Rune.isAscii_isDigit hmore hstops hahead
    have hnext : stop.advance.Reaches (stop.advance.skipWhile Rune.isDigit) :=
      (Cursor.Reaches.refl _).skipWhile _
    refine ⟨_, hreach.advance.trans hnext, ?_, hend, ?_⟩
    · rw [hreach.upTo_trans ((Cursor.Reaches.next _).trans hnext), hnext.upTo_eq_cons hone, hup,
        hrun]
    · rw [hnumber, if_pos ((Cursor.rune_is_iff (by decide)).mpr (by rw [hbehind]; rfl))]

/-- Where an exponent is marked, its digits decide. -/
theorem number_marked {digits fraction rest : Bytes} {mark : UInt8}
    (hdigits : Digits Rune.isDigit digits) (hfraction : Fraction fraction)
    (hmark : Rune.onByte Rune.isExponentMark mark = true)
    (ha : c.ahead = digits ++ (fraction ++ mark :: rest)) :
    ∃ stop, c.Reaches stop ∧ c.upTo stop = digits ++ fraction ∧ stop.ahead = mark :: rest ∧
      stop.rune.isExponentMark = true ∧
      number false c = ((exponent? stop).map (whole .floatLiteral c)).getD (word c) := by
  have hstops : Stops Rune.isDigit (mark :: rest) := by
    intro b hb
    rw [← Option.some.inj hb]
    exact Rune.of_isExponentMark hmark (by decide) (by decide)
  obtain ⟨stop, hreach, hup, hbehind, hnumber⟩ :=
    number_scaled hdigits hfraction hstops (fun _ => ⟨mark, rfl, hmark⟩) ha
  have hrune : stop.rune.isExponentMark = true :=
    (Cursor.advance_of_onByte Rune.isAscii_isExponentMark hbehind hmark).1
  refine ⟨stop, hreach, hup, hbehind, hrune, ?_⟩
  rw [Rune.isExponentMark] at hrune
  rw [hnumber, scaled?, if_pos hrune]

/-- In front of digits with a radix two marks lie ahead. -/
theorem marks_ahead {p : Rune → Bool} (hp : Rune.IsAscii p) {mark : UInt8} {rest : Bytes}
    (hmark : Rune.onByte p mark = true) (ha : c.ahead = 0x30 :: mark :: rest) :
    c.rune.is '0' = true ∧ p c.advance.rune = true ∧ c.advance.upTo c.advance.advance = [mark] ∧
      c.advance.advance.ahead = rest := by
  obtain ⟨-, hahead⟩ := Cursor.advance_of_ahead (by decide) ha
  exact ⟨(Cursor.rune_is_iff (by decide)).mpr (by rw [ha]; rfl),
    Cursor.advance_of_onByte hp hahead hmark⟩

/-- A number of the grammar that lies ahead is read. -/
theorem number_complete {kind : TokenKind} {text rest : Bytes} (h : Literal kind text rest)
    (ha : c.ahead = text ++ rest) :
    ∃ stop, c.Reaches stop ∧ c.upTo stop = text ∧ number false c = whole kind c stop := by
  cases h with
  | @hex mark digits rest hmark hdigits hrest =>
    obtain ⟨hzero, hx, htwo, hahead⟩ := marks_ahead Rune.isAscii_isHexMark hmark ha
    obtain ⟨stop, hstop, hup, hradix⟩ := radix_complete .hexLiteral Rune.isAscii_isHexDigit
      (fun _ => Rune.isNameChar_of_isHexDigit) hdigits hrest hahead
    refine ⟨stop, (Cursor.Reaches.next c).advance.trans hstop, ?_, ?_⟩
    · rw [upTo_marks hzero htwo hstop, hup]
    · rw [Rune.isHexMark] at hx
      simp only [number, hzero, hx, Bool.false_eq_true, if_false, Bool.and_self, if_true, hradix]
  | @bit digits rest hdigits hrest =>
    obtain ⟨hzero, hb, htwo, hahead⟩ := marks_ahead (p := fun r => r.is 'b')
      (Rune.isAscii_is (by decide)) (by decide) ha
    obtain ⟨stop, hstop, hup, hradix⟩ := radix_complete .bitLiteral Rune.isAscii_isBit
      (fun _ => Rune.isNameChar_of_isBit) hdigits hrest hahead
    have hx : (c.advance.rune.is 'x' || c.advance.rune.is 'X') = false := by
      rw [Rune.is_iff.mp hb]
      decide
    refine ⟨stop, (Cursor.Reaches.next c).advance.trans hstop, ?_, ?_⟩
    · rw [upTo_marks hzero htwo hstop, hup]
    · simp only [number, hzero, hx, hb, Bool.and_false, Bool.false_eq_true, if_false,
        Bool.and_self, if_true, hradix]
  | @float digits fraction exponent rest hdigits hfraction hexponent hrest =>
    obtain ⟨mark, more, rfl, hmark⟩ := hexponent.exists_mark
    rw [List.append_assoc, List.append_assoc] at ha
    obtain ⟨digitsEnd, hreach, hup, hbehind, -, hnumber⟩ :=
      number_marked hdigits hfraction hmark ha
    obtain ⟨stop, hstop, hup', -⟩ := exponent?_complete hexponent hrest hbehind
    refine ⟨stop, hreach.trans (exponent?_reaches hstop), ?_, ?_⟩
    · rw [hreach.upTo_trans (exponent?_reaches hstop), hup, hup']
    · rw [hnumber, hstop]
      rfl
  | @decimal digits fraction rest hdigits hfraction hrest hnone =>
    rw [List.append_assoc] at ha
    obtain ⟨stop, hreach, hup, hbehind, hnumber⟩ :=
      number_scaled hdigits (.point hfraction) hrest (fun h => by cases h) ha
    refine ⟨stop, hreach, hup, ?_⟩
    have hrune : stop.rune.isExponentMark = false := by
      rw [← stops_iff Rune.isAscii_isExponentMark, hbehind]
      exact hnone
    rw [Rune.isExponentMark] at hrune
    rw [hnumber, scaled?, hrune, if_neg Bool.false_ne_true]
    rfl
  | @int digits rest hdigits hrest hpoint =>
    obtain ⟨stop, hreach, hup, hbehind, hnumber⟩ := number_digits hdigits
      (hrest.stops Rune.isAscii_isDigit fun _ => Rune.isNameChar_of_isDigit)
      (hrest.stops Rune.isAscii_isRadixMark fun _ => Rune.isNameChar_of_isRadixMark) ha
    refine ⟨stop, hreach, hup, ?_⟩
    have hrune : stop.rune.isNameChar = false := by
      rw [Comment.isNameChar_rune, hbehind, hrest]
    have hpoint' : ¬stop.rune.is '.' = true := by
      rwa [Cursor.rune_is_iff (by decide), hbehind]
    have hmark : stop.rune.isExponentMark = false := by
      rw [Bool.eq_false_iff]
      intro h
      rw [Rune.isNameChar_of_isExponentMark h] at hrune
      cases hrune
    rw [hnumber, if_neg hpoint', hmark, hrune, if_neg Bool.false_ne_true, if_neg Bool.false_ne_true]

/-- A form that starts with a digit is what the grammar says, and the grammar says one thing. -/
theorem number_exact (hdigit : c.rune.isDigit = true) :
    ∃ kind stop, c.Reaches stop ∧ number false c = whole kind c stop ∧
      ∀ kind' text rest, c.ahead = text ++ rest →
        (DigitLed kind' text rest ↔ kind' = kind ∧ text = c.upTo stop) := by
  have hname : c.rune.isNameChar = true := Rune.isNameChar_of_isDigit hdigit
  -- Two readings of one form agree in their kind and in their text.
  have hwhole {kind kind' : TokenKind} {stop stop' : Cursor}
      (h : whole kind c stop = whole kind' c stop') : kind = kind' ∧ c.upTo stop = c.upTo stop' :=
    ⟨congrArg Lexeme.kind h, congrArg Lexeme.text h⟩
  rcases number_sound hdigit with hword | ⟨kind, stop, hreach, hliteral, hnumber⟩
  · -- A number that lies ahead would have been read.
    have hnone {kind' : TokenKind} {text rest : Bytes} (ha : c.ahead = text ++ rest) :
        ¬Literal kind' text rest := by
      intro h
      obtain ⟨stop, -, -, hnumber⟩ := number_complete h ha
      rw [hword, word_eq hname] at hnumber
      have hkind := (hwhole hnumber).1
      cases h <;> cases hkind
    have hreach : c.Reaches (c.skipWhile Rune.isNameChar) := (Cursor.Reaches.refl c).skipWhile _
    refine ⟨.identifier, c.skipWhile Rune.isNameChar, hreach, by rw [hword, word_eq hname], ?_⟩
    intro kind' text rest ha
    constructor
    · rintro (hliteral | ⟨hrun, hends, -⟩)
      · exact absurd hliteral (hnone ha)
      · exact ⟨rfl, (Comment.skipWhile_of_nameRun hrun hends ha).1.symm⟩
    · rintro ⟨rfl, rfl⟩
      rw [← hreach.ahead_of_upTo rfl ha]
      refine .name (Comment.nameRun_upTo c) (Comment.skipWhile_ends c) fun kind text' rest' h => ?_
      exact hnone (by rw [h, ← hreach.ahead_eq])
  · refine ⟨kind, stop, hreach, hnumber, ?_⟩
    intro kind' text rest ha
    constructor
    · rintro (hliteral' | ⟨-, -, hnone⟩)
      · obtain ⟨stop', -, hup, hnumber'⟩ := number_complete hliteral' ha
        obtain ⟨hkind, htext⟩ := hwhole (hnumber'.symm.trans hnumber)
        exact ⟨hkind, by rw [← hup, htext]⟩
      · exact absurd hliteral (hnone kind _ _ (by rw [← ha, ← hreach.ahead_eq]))
    · rintro ⟨rfl, rfl⟩
      rw [← hreach.ahead_of_upTo rfl ha]
      exact .literal hliteral

/-- A mark without digits makes a name of the number. -/
theorem number_unscaled {digits fraction rest : Bytes} {mark : UInt8}
    (hdigits : Digits Rune.isDigit digits) (hfraction : Fraction fraction)
    (hmark : Rune.onByte Rune.isExponentMark mark = true)
    (hnone : ∀ exponent, Exponent exponent → ¬exponent <+: mark :: rest)
    (ha : c.ahead = digits ++ (fraction ++ mark :: rest)) :
    number false c = whole .identifier c (c.skipWhile Rune.isNameChar) := by
  have hdigit := hdigits.rune Rune.isAscii_isDigit ha
  obtain ⟨digitsEnd, -, -, hbehind, hrune, hnumber⟩ := number_marked hdigits hfraction hmark ha
  have hexponent : exponent? digitsEnd = none := by
    rw [Option.eq_none_iff_forall_ne_some]
    intro stop hstop
    refine hnone _ (exponent?_sound hrune hstop).1 ⟨stop.ahead, ?_⟩
    rw [← (exponent?_reaches hstop).ahead_eq, hbehind]
  rw [hnumber, hexponent, ← word_eq (Rune.isNameChar_of_isDigit hdigit)]
  rfl

end Lexeme

/-- The grammar of forms that start with a digit. A token that starts with a digit, and does not
belong to a name with a point, has the kind and the text that the grammar gives for what lies
ahead, and no other kind and text are in the grammar. The scanner goes on right behind the text, and
nothing is reported. -/
theorem Starter.outcome_number (config : Config) (s : State) (c : Cursor)
    (hdot : s.afterNameDot = false) (hdigit : c.rune.isDigit = true) :
    ∃ kind stop, c.Reaches stop ∧
      Starter.number.outcome config s c = .token ⟨kind, c.pos, c.upTo stop⟩ stop s ∧
      ∀ kind' text rest, c.ahead = text ++ rest →
        (Numeral.DigitLed kind' text rest ↔ kind' = kind ∧ text = c.upTo stop) := by
  obtain ⟨kind, stop, hreach, hnumber, hexact⟩ := Lexeme.number_exact hdigit
  refine ⟨kind, stop, hreach, ?_, hexact⟩
  rw [Starter.outcome, hdot, hnumber, Outcome.ofLexeme, Lexeme.whole, State.report_none]
  rfl

/-- Behind a point and an exponent with a sign, a letter belongs to the next token. -/
theorem Starter.outcome_number_float : ∃ stop,
    Starter.number.outcome {} {} (.start [0x31, 0x2E, 0x35, 0x65, 0x2D, 0x33, 0x78]) =
        .token ⟨.floatLiteral, .start, [0x31, 0x2E, 0x35, 0x65, 0x2D, 0x33]⟩ stop {} ∧
      stop.ahead = [0x78] := by
  obtain ⟨kind, stop, hreach, houtcome, hexact⟩ := Starter.outcome_number {} {}
    (.start [0x31, 0x2E, 0x35, 0x65, 0x2D, 0x33, 0x78]) rfl (by decide)
  have hmore : ∀ b ∈ [0x35], Rune.onByte Rune.isDigit b = true :=
    List.forall_mem_singleton.mpr (by decide)
  have hfloat : Numeral.Literal .floatLiteral ([0x31] ++ [0x2E, 0x35] ++ [0x65, 0x2D, 0x33])
      [0x78] :=
    .float (Numeral.digits_singleton (by decide)) (.point hmore)
      (.signed (by decide) (by decide) (Numeral.digits_singleton (by decide)))
      (by rintro b ⟨⟩; decide)
  obtain ⟨rfl, htext⟩ := (hexact .floatLiteral [0x31, 0x2E, 0x35, 0x65, 0x2D, 0x33] [0x78] rfl).mp
    (.literal hfloat)
  have hahead := hreach.ahead_eq
  rw [← htext] at hahead houtcome
  have hbehind : [0x31, 0x2E, 0x35, 0x65, 0x2D, 0x33] ++ [0x78] =
      [0x31, 0x2E, 0x35, 0x65, 0x2D, 0x33] ++ stop.ahead := hahead
  exact ⟨stop, houtcome, (List.append_cancel_left hbehind).symm⟩

/-- An exponent mark without digits. Where digits, with or without a fraction, are followed by such
a mark, the token is the name that starts with the first digit. It covers the mark if there is no
point, and only then: in front of a point the name is the first digits alone. -/
theorem Starter.outcome_number_mark (config : Config) (s : State) (c : Cursor)
    (hdot : s.afterNameDot = false) (digits fraction rest : Bytes) (mark : UInt8)
    (hdigits : Numeral.Digits Rune.isDigit digits) (hfraction : Numeral.Fraction fraction)
    (hmark : Rune.onByte Rune.isExponentMark mark = true)
    (hnone : ∀ exponent, Numeral.Exponent exponent → ¬exponent <+: mark :: rest)
    (hahead : c.ahead = digits ++ (fraction ++ mark :: rest)) :
    ∃ stop, c.Reaches stop ∧
      Starter.number.outcome config s c = .token ⟨.identifier, c.pos, c.upTo stop⟩ stop s ∧
      Comment.NameRun (c.upTo stop) ∧ Numeral.NameEnds stop.ahead ∧
      (digits ++ (fraction ++ [mark]) <+: c.upTo stop ↔ fraction = []) ∧
      (fraction ≠ [] → c.upTo stop = digits) := by
  have hnumber := Lexeme.number_unscaled hdigits hfraction hmark hnone hahead
  have hrun : Comment.NameRun digits :=
    Comment.nameRun_of_ascii Rune.isAscii_isDigit (fun _ => Rune.isNameChar_of_isDigit) hdigits.all
  refine ⟨c.skipWhile Rune.isNameChar, (Cursor.Reaches.refl c).skipWhile _, ?_,
    Comment.nameRun_upTo c, Comment.skipWhile_ends c, ?_⟩
  · rw [Starter.outcome, hdot, hnumber, Outcome.ofLexeme, Lexeme.whole, State.report_none]
    rfl
  cases hfraction with
  | none =>
    -- The mark is a character of the name like the digits.
    have hmarked : Comment.NameRun (digits ++ [mark]) := by
      refine Comment.nameRun_of_ascii
        (Rune.isAscii_or Rune.isAscii_isDigit Rune.isAscii_isExponentMark)
        (fun r hr => (Bool.or_eq_true_iff.mp hr).elim Rune.isNameChar_of_isDigit
          Rune.isNameChar_of_isExponentMark) fun b hb => ?_
      rw [Rune.onByte, Bool.or_eq_true]
      rcases List.mem_append.mp hb with hb | hb
      · exact .inl (hdigits.all b hb)
      · rw [List.mem_singleton.mp hb]
        exact .inr hmark
    have hahead' : c.ahead = (digits ++ [mark]) ++ rest := by
      rw [hahead, List.append_assoc]
      rfl
    obtain ⟨behind, hreach, hup, -, hskip⟩ := Comment.skipWhile_behind hmarked hahead'
    rw [hskip, hreach.upTo_trans ((Cursor.Reaches.refl _).skipWhile _), hup]
    exact ⟨iff_of_true (List.prefix_append _ _) rfl, fun h => absurd rfl h⟩
  | @point more hmore =>
    -- The point ends the name.
    have hends : Numeral.NameEnds (0x2E :: (more ++ mark :: rest)) := by
      rw [Numeral.NameEnds, Rune.decode_ascii (by decide) (by decide)]
      decide
    obtain ⟨hup, -⟩ := Comment.skipWhile_of_nameRun hrun hends hahead
    rw [hup]
    refine ⟨iff_of_false (fun h => ?_) (List.cons_ne_nil _ _), fun _ => rfl⟩
    have hle := h.length_le
    simp only [List.length_append, List.length_cons] at hle
    omega

/-- Without a point the name covers the mark. -/
theorem Starter.outcome_number_mark_letters : ∃ stop,
    Starter.number.outcome {} {} (.start [0x39, 0x65, 0x73, 0x74]) =
        .token ⟨.identifier, .start, (Cursor.start [0x39, 0x65, 0x73, 0x74]).upTo stop⟩ stop {} ∧
      [0x39, 0x65] <+: (Cursor.start [0x39, 0x65, 0x73, 0x74]).upTo stop := by
  obtain ⟨stop, -, houtcome, -, -, hcovers, -⟩ := Starter.outcome_number_mark {} {}
    (.start [0x39, 0x65, 0x73, 0x74]) rfl [0x39] [] [0x73, 0x74] 0x65
    (Numeral.digits_singleton (by decide)) .none (by decide)
    (fun _ h => h.not_isPrefix (by rintro b ⟨⟩; decide) (by rintro b ⟨⟩; decide)) rfl
  exact ⟨stop, houtcome, hcovers.mpr rfl⟩

/-- In front of a point the name is the first digits alone, and the mark is in a later token. -/
theorem Starter.outcome_number_mark_point : ∃ c digits fraction mark stop,
    c = Cursor.start [0x31, 0x2E, 0x35, 0x65] ∧ c.ahead = digits ++ (fraction ++ [mark]) ∧
      Numeral.Digits Rune.isDigit digits ∧ Numeral.Fraction fraction ∧
      Rune.onByte Rune.isExponentMark mark = true ∧
      (∀ exponent, Numeral.Exponent exponent → ¬exponent <+: [mark]) ∧
      Starter.number.outcome {} {} c = .token ⟨.identifier, .start, [0x31]⟩ stop {} ∧
      ¬digits ++ (fraction ++ [mark]) <+: [0x31] := by
  refine ⟨_, [0x31], [0x2E, 0x35], 0x65, (Cursor.start [0x31, 0x2E, 0x35, 0x65]).advance, rfl, rfl,
    Numeral.digits_singleton (by decide), .point (List.forall_mem_singleton.mpr (by decide)),
    by decide, fun _ h => ?_, ?_, by decide⟩
  · exact h.not_isPrefix (fun b hb => by cases hb) fun b hb => by cases hb
  · decide +kernel

end SqlTokens
