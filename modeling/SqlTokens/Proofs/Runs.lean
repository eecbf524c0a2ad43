import SqlTokens.Lexeme.Number
import SqlTokens.Proofs.Cursors

/-!
# The bytes of a run

What a cursor passes over, byte by byte. The bytes between cursors append (`Reaches.upTo_trans`), an
ASCII rune is its byte (`rune_iff_head?`), and so a run of ASCII runes is a longest run of bytes
(`upTo_skipWhile`, `upTo_skipDigits`). A run up to a character stops at the first byte of that
character or at the end (`not_mem_upTo_skipWhile`, `skipWhile_stops_at`). Runs of other classes are
runs of the runes that the bytes are read as (`Rune.RunOf`), and a cursor passes over the longest
one that lies ahead (`runOf_upTo`, `skipWhile_of_runOf`).
-/

namespace SqlTokens

namespace Rune

/-- Whether every rune of a class is an ASCII character other than NUL. -/
def IsAscii (p : Rune → Bool) : Prop := ∀ r, p r = true → 0 < r.value ∧ r.value < 0x80

/-- The bytes of an ASCII class. -/
def onByte (p : Rune → Bool) (b : UInt8) : Bool := p (ofByte b)

/-- A rune in a class is no character outside it. -/
theorem is_eq_false {p : Rune → Bool} {r : Rune} (h : p r = true) (ch : Char)
    (hch : p (ofChar ch) = false) : r.is ch = false := by
  rw [Bool.eq_false_iff, Ne, is_iff]
  rintro rfl
  rw [h] at hch
  cases hch

/-- The bytes of an ASCII class are ASCII, and NUL is none of them. -/
theorem IsAscii.byte {p : Rune → Bool} (hp : IsAscii p) {b : UInt8} (h : onByte p b = true) :
    b ≠ 0 ∧ b < 0x80 := by
  obtain ⟨hpos, hlt⟩ := hp _ h
  simp only [ofByte] at hpos hlt
  refine ⟨?_, UInt8.lt_iff_toNat_lt.mpr (Int.ofNat_lt.mp hlt)⟩
  rintro rfl
  exact absurd hpos (by decide)

/-- A character of one byte is ASCII. -/
theorem isAscii_is {ch : Char} (hch : IsByte ch) : IsAscii fun r => r.is ch := by
  intro r h
  rw [is_iff_value] at h
  have hpos := hch.1
  have hlt := hch.2
  omega

/-- The runes between two ASCII characters are ASCII. -/
theorem isAscii_within {first last : Char} (hfirst : 0 < first.toNat) (hlast : last.toNat < 0x80) :
    IsAscii fun r => r.within first last := by
  intro r h
  simp only [within, Bool.and_eq_true, decide_eq_true_iff] at h
  omega

/-- Two ASCII classes together are one. -/
theorem isAscii_or {p q : Rune → Bool} (hp : IsAscii p) (hq : IsAscii q) :
    IsAscii fun r => p r || q r := by
  intro r h
  rcases Bool.or_eq_true_iff.mp h with h | h
  · exact hp r h
  · exact hq r h

/-- The blanks are ASCII. -/
theorem isAscii_isSpace : IsAscii isSpace :=
  isAscii_or (isAscii_is (by decide)) (isAscii_within (by decide) (by decide))

/-- The digits are ASCII. -/
theorem isAscii_isDigit : IsAscii isDigit :=
  isAscii_within (by decide) (by decide)

/-- The classes that have none of the marks: the end of input, malformed input and the byte-order
mark. -/
structure IsPlain (p : Rune → Bool) : Prop where
  /-- The end of input is not in the class. -/
  eof : p eof = false
  /-- Malformed input is not. -/
  invalid : p invalid = false
  /-- The byte-order mark is not. -/
  bom : p bom = false

/-- The texts all of whose runes are of a class. -/
inductive RunOf (p : Rune → Bool) : Bytes → Prop where
  /-- The empty text has no rune. -/
  | nil : RunOf p []
  /-- The first rune is of the class, and so are those behind it. -/
  | cons {text : Bytes} : p (decode text).1 = true → RunOf p (text.drop (decode text).2) →
      RunOf p text

/-- Where a text starts in its source does not matter to a class without the marks. -/
theorem IsPlain.decodeFrom {p : Rune → Bool} (hp : IsPlain p) (offset : Nat) (bytes : Bytes) :
    p (Rune.decodeFrom offset bytes).1 = p (decode bytes).1 := by
  unfold Rune.decodeFrom
  rcases hd : decode bytes with ⟨r, width⟩
  simp only
  split
  · rename_i hbom
    rw [eq_of_beq hbom.1, hp.invalid, hp.bom]
  · rfl

/-- A rune of such a class is read the same whatever follows its text. -/
theorem IsPlain.decode_append {p : Rune → Bool} (hp : IsPlain p) {text : Bytes}
    (h : p (decode text).1 = true) (rest : Bytes) : decode (text ++ rest) = decode text := by
  refine Rune.decode_append ?_ ?_ rest
  · rintro rfl
    rw [decode_nil, hp.eof] at h
    cases h
  · intro hinvalid
    rw [hinvalid, hp.invalid] at h
    cases h

end Rune

namespace Cursor

variable {c d e : Cursor}

/-! ## Bytes between cursors -/

/-- Between a cursor and itself there is nothing. -/
@[simp] theorem upTo_self (c : Cursor) : c.upTo c = [] := by
  rw [upTo, Nat.sub_self, List.take_zero]

/-- The bytes up to a cursor are those up to one before it and those from there. -/
theorem Reaches.upTo_trans (h : c.Reaches d) (h' : d.Reaches e) :
    c.upTo e = c.upTo d ++ d.upTo e := by
  -- With what is ahead of the last cursor both are what is ahead of the first.
  have hall : c.upTo e ++ e.ahead = (c.upTo d ++ d.upTo e) ++ e.ahead := by
    calc c.upTo e ++ e.ahead = c.ahead := (h.trans h').ahead_eq.symm
      _ = c.upTo d ++ d.ahead := h.ahead_eq
      _ = c.upTo d ++ (d.upTo e ++ e.ahead) := by rw [← h'.ahead_eq]
      _ = (c.upTo d ++ d.upTo e) ++ e.ahead := (List.append_assoc _ _ _).symm
  exact List.append_cancel_right hall

/-- The length of the bytes up to a cursor is the distance. -/
theorem Reaches.length_upTo (h : c.Reaches d) (hd : d.offset ≤ d.source.length) :
    (c.upTo d).length = d.offset - c.offset := by
  rw [upTo_eq, List.length_drop, List.length_take, ← h.source_eq, Nat.min_eq_left hd]

/-- The bytes up to the next cursor are those of the rune. -/
theorem upTo_advance (c : Cursor) : c.upTo c.advance = c.ahead.take c.width := by
  rcases h : c.atEnd with _ | _
  · rw [upTo, offset_advance h, Nat.add_sub_cancel_left, ← reading_eq]
    rfl
  · rw [advance_of_atEnd h, upTo_self, atEnd_iff_ahead.mp h, List.take_nil]

/-- Before the end there are such bytes. -/
theorem upTo_advance_ne_nil (h : c.atEnd = false) : c.upTo c.advance ≠ [] := by
  have hahead : c.ahead ≠ [] := fun hnil => by
    rw [atEnd_iff_ahead.mpr hnil] at h
    cases h
  rw [upTo_advance, width_eq, Ne, List.take_eq_nil_iff, not_or]
  exact ⟨Nat.ne_of_gt (Rune.decode_width_pos hahead), hahead⟩

/-- An ASCII byte is passed over by itself. -/
theorem upTo_advance_of_head? {b : UInt8} (hb : b < 0x80) (h : c.ahead.head? = some b) :
    c.upTo c.advance = [b] ∧ c.ahead = b :: c.advance.ahead := by
  obtain ⟨rest, hrest⟩ := List.head?_eq_some_iff.mp h
  have hw : c.width = 1 := by rw [width_eq, hrest, Rune.decode_width_ascii hb]
  constructor
  · rw [upTo_advance, hw, hrest, List.take_succ_cons, List.take_zero]
  · rw [ahead_advance, hw, hrest, List.drop_succ_cons, List.drop_zero]

/-- Behind it are the bytes that follow. -/
theorem advance_of_ahead {b : UInt8} (hb : b < 0x80) {rest : Bytes} (h : c.ahead = b :: rest) :
    c.upTo c.advance = [b] ∧ c.advance.ahead = rest := by
  obtain ⟨hone, hahead⟩ := upTo_advance_of_head? hb (by rw [h, List.head?_cons])
  rw [h] at hahead
  exact ⟨hone, (List.cons.inj hahead).2.symm⟩

/-- Behind several ASCII bytes, too. -/
theorem advanceBy_of_ahead {front rest : Bytes} (hascii : ∀ b ∈ front, b < 0x80) {c : Cursor}
    (h : c.ahead = front ++ rest) :
    c.upTo (c.advanceBy front.length) = front ∧ (c.advanceBy front.length).ahead = rest := by
  induction front generalizing c with
  | nil => exact ⟨upTo_self c, h⟩
  | cons b front ih =>
    obtain ⟨hb, hfront⟩ := List.forall_mem_cons.mp hascii
    obtain ⟨hone, hahead⟩ := advance_of_ahead hb h
    obtain ⟨hup, hbehind⟩ := ih hfront hahead
    refine ⟨?_, hbehind⟩
    rw [List.length_cons, advanceBy,
      (Reaches.next c).upTo_trans ((Reaches.refl _).advanceBy front.length), hone, hup]
    rfl

/-- Behind an ASCII byte that breaks no line the next column comes. -/
theorem pos_advance_of_head? {b : UInt8} (hb : b < 0x80) (hline : b ≠ 0x0A)
    (h : c.ahead.head? = some b) :
    c.advance.pos = ⟨c.pos.line, c.pos.column + 1, c.pos.offset + 1⟩ := by
  obtain ⟨rest, hrest⟩ := List.head?_eq_some_iff.mp h
  have hend : c.atEnd = false := by rw [atEnd, hrest, List.isEmpty_cons]
  have hwidth : c.width = 1 := by rw [width_eq, hrest, Rune.decode_width_ascii hb]
  have hnot : c.rune.is '\n' = false := by
    rw [Bool.eq_false_iff, Ne, rune_is_iff (by decide), h]
    exact fun hsame => hline (Option.some.inj hsame)
  rw [pos_advance hend, Position.step, if_neg (by rw [hnot]; decide), hwidth]

/-- A character of one byte is passed over as its byte. -/
theorem upTo_advance_of_is {ch : Char} (hch : Rune.IsByte ch) (h : c.rune.is ch = true) :
    c.upTo c.advance = [UInt8.ofNat ch.toNat] ∧
      c.ahead = UInt8.ofNat ch.toNat :: c.advance.ahead :=
  upTo_advance_of_head? hch.lt ((rune_is_iff hch).mp h)

/-- If the rune at a cursor is one byte, the bytes up to a later cursor start with it. -/
theorem Reaches.upTo_eq_cons (h : c.advance.Reaches d) {b : UInt8} (hone : c.upTo c.advance = [b]) :
    c.upTo d = b :: c.advance.upTo d := by
  rw [(Reaches.next c).upTo_trans h, hone, List.singleton_append]

/-! ## Runes and bytes -/

/-- An ASCII byte other than NUL is the rune at its cursor. -/
theorem rune_of_head? {b : UInt8} (h0 : b ≠ 0) (hb : b < 0x80) (h : c.ahead.head? = some b) :
    c.rune = Rune.ofByte b := by
  have hvalue : c.rune.value = b.toNat := by
    rw [rune, reading, Rune.decodeFrom_value_iff (UInt8.lt_iff_toNat_lt.mp hb), UInt8.ofNat_toNat]
    exact ⟨fun hz => h0 (UInt8.toNat_inj.mp hz), h⟩
  rw [Rune.ofByte, ← hvalue]

/-- An ASCII byte is the rune at a cursor if it comes next, and not otherwise. -/
theorem rune_eq_ofByte_iff {b : UInt8} (h0 : b ≠ 0) (hb : b < 0x80) :
    c.rune = Rune.ofByte b ↔ c.ahead.head? = some b := by
  constructor
  · intro hrune
    have hvalue : c.rune.value = b.toNat := by rw [hrune, Rune.ofByte]
    rw [rune, reading, Rune.decodeFrom_value_iff (UInt8.lt_iff_toNat_lt.mp hb),
      UInt8.ofNat_toNat] at hvalue
    exact hvalue.2
  · exact rune_of_head? h0 hb

/-- The rune at a cursor lies in an ASCII class exactly if the next byte does. -/
theorem rune_iff_head? {p : Rune → Bool} (hp : Rune.IsAscii p) :
    p c.rune = true ↔ ∃ b, c.ahead.head? = some b ∧ Rune.onByte p b = true := by
  constructor
  · -- The code of an ASCII rune is the byte that it is read from.
    intro h
    obtain ⟨hpos, hlt⟩ := hp _ h
    obtain ⟨n, hn⟩ : ∃ n : Nat, c.rune.value = n := ⟨c.rune.value.toNat, by omega⟩
    obtain ⟨-, hb⟩ := (Rune.decodeFrom_value_iff (n := n) (by omega) c.offset c.ahead).mp hn
    have hrune : Rune.ofByte (UInt8.ofNat n) = c.rune := by
      rw [Rune.ofByte, UInt8.toNat_ofNat', Nat.mod_eq_of_lt (by omega), ← hn]
    exact ⟨_, hb, by rw [Rune.onByte, hrune, h]⟩
  · -- A byte of the class is ASCII and not NUL, and so it is read as itself.
    rintro ⟨b, hb, h⟩
    obtain ⟨h0, hascii⟩ := hp.byte h
    rw [rune_of_head? h0 hascii hb]
    exact h

/-- A byte in an ASCII class is passed over by itself. -/
theorem advance_of_onByte {p : Rune → Bool} (hp : Rune.IsAscii p) {b : UInt8} {rest : Bytes}
    (ha : c.ahead = b :: rest) (hb : Rune.onByte p b = true) :
    p c.rune = true ∧ c.upTo c.advance = [b] ∧ c.advance.ahead = rest := by
  have hhead : c.ahead.head? = some b := by rw [ha, List.head?_cons]
  exact ⟨(rune_iff_head? hp).mpr ⟨b, hhead, hb⟩, advance_of_ahead (hp.byte hb).2 ha⟩

/-- A rune outside an ASCII class starts with no byte in it. -/
theorem takeWhile_ahead_eq_nil {p : Rune → Bool} (hp : Rune.IsAscii p) (h : ¬p c.rune = true) :
    c.ahead.takeWhile (Rune.onByte p) = [] := by
  rcases ha : c.ahead with _ | ⟨b, rest⟩
  · rfl
  · rw [List.takeWhile_cons, if_neg]
    intro hb
    exact h (advance_of_onByte hp ha hb).1

/-! ## Runs -/

/-- A run stops at the end or at a rune that is not in its class. -/
theorem skipWhile_stops (p : Rune → Bool) (c : Cursor) :
    (c.skipWhile p).atEnd = true ∨ p (c.skipWhile p).rune = false := by
  fun_induction skipWhile p c with
  | case1 c h => exact .inl h
  | case2 c _ _ ih => exact ih
  | case3 c _ h => exact .inr (by simpa using h)

/-- A run that stops where it starts does not move. -/
theorem skipWhile_self {p : Rune → Bool} (h : c.atEnd = true ∨ p c.rune = false) :
    c.skipWhile p = c := by
  rw [skipWhile]
  rcases h with h | h
  · rw [if_pos h]
  · rw [h, if_neg Bool.false_ne_true, ite_self]

/-- A run of an ASCII class is the longest run of its bytes. -/
theorem upTo_skipWhile {p : Rune → Bool} (hp : Rune.IsAscii p) (c : Cursor) :
    c.upTo (c.skipWhile p) = c.ahead.takeWhile (Rune.onByte p) := by
  fun_induction skipWhile p c with
  | case1 c h => rw [upTo_self, atEnd_iff_ahead.mp h, List.takeWhile_nil]
  | case2 c h hr ih =>
    -- The rune is one byte of the class, and the run goes on behind it.
    obtain ⟨b, hb, hin⟩ := (rune_iff_head? hp).mp hr
    obtain ⟨rest, ha⟩ := List.head?_eq_some_iff.mp hb
    obtain ⟨-, hone, hrest⟩ := advance_of_onByte hp ha hin
    rw [((Reaches.refl _).skipWhile p).upTo_eq_cons hone, ih, ha, List.takeWhile_cons, if_pos hin,
      hrest]
  | case3 c h hr => rw [upTo_self, takeWhile_ahead_eq_nil hp hr]

/-- Behind it are the bytes behind that run. -/
theorem ahead_skipWhile {p : Rune → Bool} (hp : Rune.IsAscii p) (c : Cursor) :
    (c.skipWhile p).ahead = c.ahead.dropWhile (Rune.onByte p) :=
  ((Reaches.refl c).skipWhile p).ahead_of_upTo (upTo_skipWhile hp c)
    List.takeWhile_append_dropWhile.symm

/-- A run goes on behind its first rune. -/
theorem skipWhile_advance {p : Rune → Bool} (h : p c.rune = true) :
    c.advance.skipWhile p = c.skipWhile p := by
  rcases hend : c.atEnd with _ | _
  · conv_rhs => rw [skipWhile, if_neg (by rw [hend]; decide), if_pos h]
  · rw [advance_of_atEnd hend]

/-- A run of an ASCII class that lies ahead, up to a byte that is not in the class, is passed
over. -/
theorem skipWhile_of_run {p : Rune → Bool} (hp : Rune.IsAscii p) {run rest : Bytes}
    (hrun : ∀ b ∈ run, Rune.onByte p b = true) (hstop : ∀ b ∈ rest.head?, Rune.onByte p b = false)
    (ha : c.ahead = run ++ rest) :
    c.upTo (c.skipWhile p) = run ∧ (c.skipWhile p).ahead = rest := by
  have hnone : rest.takeWhile (Rune.onByte p) = [] := by
    rcases rest with _ | ⟨b, rest⟩
    · rfl
    · exact List.takeWhile_cons_of_neg (by rw [hstop b rfl]; decide)
  have hup : c.upTo (c.skipWhile p) = run := by
    rw [upTo_skipWhile hp, ha, List.takeWhile_append_of_pos hrun, hnone, List.append_nil]
  exact ⟨hup, ((Reaches.refl c).skipWhile p).ahead_of_upTo hup ha⟩

/-! ### Runs of runes -/

section

variable {p : Rune → Bool} (hp : Rune.IsPlain p)
include hp

/-- Whether the rune at a cursor is of the class is read off what lies ahead. -/
theorem class_rune (c : Cursor) : p c.rune = p (Rune.decode c.ahead).1 :=
  hp.decodeFrom c.offset c.ahead

/-- Where a rune of the class stands, there is something to read. -/
theorem atEnd_eq_false_of_class (h : p c.rune = true) : c.atEnd = false := by
  rw [Bool.eq_false_iff, Ne, ← rune_eq_eof_iff]
  intro heof
  rw [heof, hp.eof] at h
  cases h

/-- What is passed over as a run is one. -/
theorem runOf_upTo (c : Cursor) : Rune.RunOf p (c.upTo (c.skipWhile p)) := by
  fun_induction skipWhile p c with
  | case1 c => rw [upTo_self]; exact .nil
  | case2 c hend hr ih =>
    have hstop : c.advance.Reaches (c.advance.skipWhile p) := (Reaches.refl _).skipWhile _
    have hwle : c.width ≤ c.ahead.length := by
      rw [width_eq]
      exact Rune.decode_width_le _
    -- The first rune of the run is read from the bytes of the run alone.
    have hdecode : Rune.decode (c.upTo (c.advance.skipWhile p)) = Rune.decode c.ahead := by
      rw [upTo, Rune.decode_take]
      have hle := hstop.offset_le
      rw [offset_advance (by simpa using hend), ← reading_eq] at hle
      rw [← width_eq, width]
      omega
    refine .cons (by rw [hdecode, ← class_rune hp, hr]) ?_
    rw [hdecode, ← width_eq, (Reaches.next c).upTo_trans hstop, upTo_advance,
      List.drop_left' (by rw [List.length_take, Nat.min_eq_left hwle])]
    exact ih
  | case3 c => rw [upTo_self]; exact .nil

/-- A run that lies ahead starts with a rune of the class. -/
theorem rune_of_runOf {run rest : Bytes} (hrun : Rune.RunOf p run) (hne : run ≠ [])
    (ha : c.ahead = run ++ rest) : p c.rune = true := by
  cases hrun with
  | nil => exact absurd rfl hne
  | cons hr _ => rw [class_rune hp, ha, hp.decode_append hr, hr]

/-- Passing over a run goes on behind a part of it that lies ahead. -/
theorem skipWhile_behind {run rest : Bytes} (hrun : Rune.RunOf p run) {c : Cursor}
    (ha : c.ahead = run ++ rest) :
    ∃ behind, c.Reaches behind ∧ c.upTo behind = run ∧ behind.ahead = rest ∧
      c.skipWhile p = behind.skipWhile p := by
  induction hrun generalizing c with
  | nil => exact ⟨c, .refl c, upTo_self c, ha, rfl⟩
  | @cons text hr hrest ih =>
    -- The first rune is read from this part alone, so the run goes on with the rest of it.
    have hdecode : Rune.decode c.ahead = Rune.decode text := by rw [ha, hp.decode_append hr]
    have hrune : p c.rune = true := by rw [class_rune hp, hdecode, hr]
    have hwle := Rune.decode_width_le text
    have hahead : c.advance.ahead = text.drop (Rune.decode text).2 ++ rest := by
      rw [ahead_advance, width_eq, hdecode, ha, List.drop_append_of_le_length hwle]
    obtain ⟨behind, hreach, hup, hbehind, hskip⟩ := ih hahead
    refine ⟨behind, (Reaches.next c).trans hreach, ?_, hbehind, ?_⟩
    · rw [(Reaches.next c).upTo_trans hreach, hup, upTo_advance, width_eq, hdecode, ha,
        List.take_append_of_le_length hwle, List.take_append_drop]
    · rw [skipWhile, if_neg (by rw [atEnd_eq_false_of_class hp hrune]; decide), if_pos hrune,
        hskip]

/-- A run ends in front of what is not of the class. -/
theorem skipWhile_ends (c : Cursor) : p (Rune.decode (c.skipWhile p).ahead).1 = false := by
  rcases skipWhile_stops p c with h | h
  · rw [atEnd_iff_ahead.mp h, Rune.decode_nil, hp.eof]
  · rw [← class_rune hp, h]

/-- The longest run that lies ahead is passed over. -/
theorem skipWhile_of_runOf {run rest : Bytes} (hrun : Rune.RunOf p run)
    (hends : p (Rune.decode rest).1 = false) {c : Cursor} (ha : c.ahead = run ++ rest) :
    c.upTo (c.skipWhile p) = run ∧ (c.skipWhile p).ahead = rest := by
  obtain ⟨behind, -, hup, hbehind, hskip⟩ := skipWhile_behind hp hrun ha
  rw [hskip, skipWhile_self (.inr (by rw [class_rune hp, hbehind, hends]))]
  exact ⟨hup, hbehind⟩

end

/-! ### Runs up to a character -/

/-- A run up to a character passes over no byte of that character. -/
theorem not_mem_upTo_skipWhile (ch : Char) (hch : Rune.IsByte ch) (c : Cursor) :
    UInt8.ofNat ch.toNat ∉ c.upTo (c.skipWhile fun r => !r.is ch) := by
  fun_induction skipWhile (fun r => !r.is ch) c with
  | case1 c => rw [upTo_self]; exact List.not_mem_nil
  | case2 c h hr ih =>
    rw [Reaches.upTo_trans (.next c) ((Reaches.refl _).skipWhile _), List.mem_append, not_or]
    refine ⟨fun hmem => ?_, ih⟩
    -- A rune with an ASCII byte is that byte.
    have htake : UInt8.ofNat ch.toNat ∈ c.ahead.take (Rune.decode c.ahead).2 := by
      rw [← width_eq, ← upTo_advance]
      exact hmem
    have hhead := (Rune.eq_head_of_mem_take hch.lt htake).1
    rw [(rune_is_iff hch).mpr hhead] at hr
    exact absurd hr (by decide)
  | case3 c => rw [upTo_self]; exact List.not_mem_nil

/-- A run up to a character stops at the byte of that character or at the end. -/
theorem skipWhile_stops_at (ch : Char) (hch : Rune.IsByte ch) (c : Cursor) :
    (c.skipWhile fun r => !r.is ch).ahead = [] ∨
      (c.skipWhile fun r => !r.is ch).ahead.head? = some (UInt8.ofNat ch.toNat) := by
  rcases skipWhile_stops (fun r => !r.is ch) c with h | h
  · exact .inl (atEnd_iff_ahead.mp h)
  · exact .inr ((rune_is_iff hch).mp (by simpa using h))

end Cursor

/-! ## Digits -/

namespace Lexeme

/-- Reading digits moves on. -/
theorem skipDigits_reaches (c : Cursor) (n : Nat) : c.Reaches (skipDigits c n) := by
  induction n generalizing c with
  | zero => exact .refl c
  | succ n ih =>
    rw [skipDigits]
    split
    · exact ((Cursor.Reaches.refl c).advance).trans (ih c.advance)
    · exact .refl c

/-- At the end there is no digit. -/
theorem skipDigits_of_atEnd {c : Cursor} (h : c.atEnd = true) (n : Nat) : skipDigits c n = c := by
  have hrune : c.rune.isDigit = false := by
    rw [Cursor.rune_eq_eof_iff.mpr h]
    decide
  cases n with
  | zero => rfl
  | succ n => rw [skipDigits, if_neg (by rw [hrune]; decide)]

/-- A version number moves on. -/
theorem version_reaches (least most : Nat) (c : Cursor) : c.Reaches (version least most c) := by
  unfold version
  simp only
  split
  · exact .refl c
  · exact skipDigits_reaches c most

/-- The digits that are read are the longest run among the next bytes. -/
theorem upTo_skipDigits (c : Cursor) (n : Nat) :
    c.upTo (skipDigits c n) = (c.ahead.take n).takeWhile (Rune.onByte Rune.isDigit) := by
  induction n generalizing c with
  | zero => rw [skipDigits, Cursor.upTo_self, List.take_zero, List.takeWhile_nil]
  | succ n ih =>
    have hdigit := Cursor.rune_iff_head? (c := c) Rune.isAscii_isDigit
    rw [skipDigits]
    rcases ha : c.ahead with _ | ⟨b, rest⟩
    · rw [if_neg (fun h => by simpa [ha] using hdigit.mp h), Cursor.upTo_self, List.take_nil,
        List.takeWhile_nil]
    · rw [List.take_succ_cons, List.takeWhile_cons]
      by_cases hb : Rune.onByte Rune.isDigit b = true
      · obtain ⟨hr, hone, hrest⟩ := Cursor.advance_of_onByte Rune.isAscii_isDigit ha hb
        rw [if_pos hr, if_pos hb, (skipDigits_reaches _ n).upTo_eq_cons hone, ih, hrest]
      · rw [if_neg hb, if_neg, Cursor.upTo_self]
        intro h
        obtain ⟨b', hb', hin⟩ := hdigit.mp h
        rw [ha, List.head?_cons, Option.some_inj] at hb'
        exact hb (by rw [hb', hin])

end Lexeme

end SqlTokens
