import SqlTokens.Scanner.Resolution
import SqlTokens.Proofs.Excerpts

/-!
# Continuations of a text

A continuation is a source that is the same as a text from some offset on, but for what comes behind
the end of the text: nothing, or a blank and something that is no parenthesis. A cursor of the text
stands at the same position of the continuation (`Continuation.cursor`), with the same bytes ahead
and those behind the end of the text after them.

As long as the text goes on, both cursors read the same rune (`Sees.rune_cursor`). At its end one
reads a blank where the other finds nothing to read, and most classes of runes do not tell the two
apart (`Sees.class_cursor`): a run of a class without the blank stops there in both
(`Sees.run_cursor`). A run over blanks goes on, and from the end of the text it goes on to the same
place (`Sees.skipWhile_skipWhile`).
-/

namespace SqlTokens

/-- What comes behind the bytes of a rune is not looked at, if it starts with an ASCII byte. -/
theorem Rune.decode_append_ascii {bytes : Bytes} (hne : bytes ≠ []) {b : UInt8} (hb : b < 0x80)
    (rest : Bytes) : decode (bytes ++ b :: rest) = decode bytes := by
  have hpos := List.length_pos_iff.mpr hne
  have hwidth : (decode (bytes ++ b :: rest)).2 ≤ bytes.length := by
    by_contra hlong
    -- A rune that goes on over the byte would have it among its own.
    have hmem : b ∈ (bytes ++ b :: rest).take (decode (bytes ++ b :: rest)).2 := by
      refine List.mem_iff_getElem?.mpr ⟨bytes.length, ?_⟩
      rw [List.getElem?_take_of_lt (by omega), List.getElem?_append_right (Nat.le_refl _),
        Nat.sub_self]
      rfl
    obtain ⟨-, hone⟩ := eq_head_of_mem_take hb hmem
    omega
  rw [← decode_take hwidth, List.take_left]

/-- A text and a source that goes on behind it. -/
structure Continuation where
  /-- The text. -/
  part : Bytes
  /-- The source. -/
  source : Bytes
  /-- The offset from which on both have the same bytes. -/
  base : Nat
  /-- What the source has behind the end of the text. -/
  tail : Bytes
  /-- Both start to agree before the end of the text. -/
  base_le : base ≤ part.length
  /-- From the offset on the source has the bytes of the text and those behind its end. -/
  drop_eq : source.drop base = part.drop base ++ tail
  /-- A point stands before the offset in both or in neither. -/
  before : base = 0 ∨ (source[base - 1]? = some 0x2E ↔ part[base - 1]? = some 0x2E)
  /-- Behind the text comes nothing, or a single blank and then no parenthesis. -/
  blank : tail = [] ∨
    ∃ b rest, tail = 0x20 :: b :: rest ∧ Scanner.isFunctionBlank b = false ∧ b ≠ 0x28

namespace Continuation

variable (x : Continuation) {c d e : Cursor}

/-- The cursor of the source that stands where a cursor of the text does. -/
def cursor (d : Cursor) : Cursor := .place x.source d.pos

/-- Whether a cursor stands in the text, where the source has the same bytes. -/
structure Sees (d : Cursor) : Prop where
  /-- The cursor reads the text. -/
  source_eq : d.source = x.part
  /-- The source has the bytes ahead. -/
  base_le : x.base ≤ d.offset
  /-- The cursor stands within the text. -/
  le_length : d.offset ≤ x.part.length

/-- Whether the text goes on at a cursor, or the source ends there too. -/
def Open (d : Cursor) : Prop := x.tail = [] ∨ d.atEnd = false

variable {x}

/-- Both cursors stand at the same position. -/
@[simp] theorem pos_cursor (x : Continuation) (d : Cursor) : (x.cursor d).pos = d.pos := rfl

/-- Both cursors stand at the same offset. -/
@[simp] theorem offset_cursor (x : Continuation) (d : Cursor) :
    (x.cursor d).offset = d.offset := rfl

/-- What comes behind the text starts with an ASCII byte. -/
theorem tail_eq (x : Continuation) : x.tail = [] ∨ ∃ rest, x.tail = 0x20 :: rest := by
  rcases x.blank with hnone | ⟨b, rest, htail, -⟩
  · exact .inl hnone
  · exact .inr ⟨b :: rest, htail⟩

/-- Where a rune is in a class that the end of input is not in, the text goes on. -/
theorem open_of (p : Rune → Bool) (h : p d.rune = true) (heof : p .eof = false) :
    x.Open d := by
  right
  rw [Bool.eq_false_iff]
  intro hend
  rw [Cursor.rune_eq_eof_iff.mpr hend, heof] at h
  cases h

/-- Where there is a character, the text goes on. -/
theorem open_of_is {ch : Char} (h : d.rune.is ch = true) : x.Open d :=
  .inr (Cursor.atEnd_eq_false_of_is h)

/-- Before the end of the text, or of the source, a place comes that is reached from there. -/
theorem Open.of_reaches (h : x.Open e) (hreach : d.Reaches e) : x.Open d := by
  refine h.imp_right fun hend => ?_
  rw [Cursor.atEnd_eq_false_iff, hreach.source_eq] at hend
  exact Cursor.atEnd_eq_false_iff.mpr (Nat.lt_of_le_of_lt hreach.offset_le hend)

namespace Sees

/-- What is reached in the text stands in it. -/
theorem reaches (h : x.Sees d) (hreach : d.Reaches e) : x.Sees e := by
  have hlength : d.offset ≤ d.source.length := by
    rw [h.source_eq]
    exact h.le_length
  have hle := hreach.le_length hlength
  rw [hreach.source_eq, h.source_eq] at hle
  exact ⟨hreach.source_eq.trans h.source_eq, Nat.le_trans h.base_le hreach.offset_le, hle⟩

/-- The next cursor stands in the text. -/
theorem next (h : x.Sees d) : x.Sees d.advance := h.reaches (.next d)

/-- The cursor behind a run stands in the text. -/
theorem run (h : x.Sees d) (p : Rune → Bool) : x.Sees (d.skipWhile p) :=
  h.reaches ((Cursor.Reaches.refl d).skipWhile p)

/-- The source has ahead what the text has, and then what comes behind it. -/
theorem ahead_cursor (h : x.Sees d) : (x.cursor d).ahead = d.ahead ++ x.tail := by
  have hbase := h.base_le
  have hlength := h.le_length
  have hskip : d.offset = x.base + (d.offset - x.base) := by omega
  calc (x.cursor d).ahead
      = (x.source.drop x.base).drop (d.offset - x.base) := by rw [List.drop_drop, ← hskip]; rfl
    _ = (x.part.drop x.base).drop (d.offset - x.base) ++ x.tail := by
        rw [x.drop_eq, List.drop_append_of_le_length]
        rw [List.length_drop]
        omega
    _ = d.ahead ++ x.tail := by
        rw [List.drop_drop, ← hskip, d.ahead_eq, h.source_eq]
        rfl

/-- Both cursors read the same rune. -/
theorem reading_cursor (h : x.Sees d) (ho : x.Open d) : (x.cursor d).reading = d.reading := by
  have hdecode : Rune.decode (x.cursor d).ahead = Rune.decode d.ahead := by
    rw [h.ahead_cursor]
    rcases x.tail_eq with hnone | ⟨rest, htail⟩
    · rw [hnone, List.append_nil]
    · rcases ho with hnone | hend
      · rw [hnone, List.append_nil]
      · have hne : d.ahead ≠ [] := by simpa [Cursor.atEnd] using hend
        rw [htail, Rune.decode_append_ascii hne (by decide)]
  rw [Cursor.reading, Cursor.reading, Rune.decodeFrom, Rune.decodeFrom, hdecode, offset_cursor]

/-- Both cursors stand at the same rune. -/
theorem rune_cursor (h : x.Sees d) (ho : x.Open d) : (x.cursor d).rune = d.rune := by
  rw [Cursor.rune, h.reading_cursor ho, Cursor.rune]

/-- At the end of the text the source has ahead what comes behind it. -/
theorem ahead_of_atEnd (h : x.Sees d) (hend : d.atEnd = true) : (x.cursor d).ahead = x.tail := by
  rw [h.ahead_cursor, Cursor.atEnd_iff_ahead.mp hend, List.nil_append]

/-- Runes are told apart no more than the end of the text and a blank are. -/
theorem class_cursor (h : x.Sees d) {α : Type} (p : Rune → α)
    (hp : p (.ofChar ' ') = p .eof) : p (x.cursor d).rune = p d.rune := by
  by_cases ho : x.Open d
  · rw [h.rune_cursor ho]
  · obtain ⟨htail, hend⟩ := not_or.mp ho
    have hend' : d.atEnd = true := by simpa using hend
    obtain ⟨rest, hrest⟩ := x.tail_eq.resolve_left htail
    have hblank : (x.cursor d).rune.is ' ' = true := by
      rw [Cursor.rune_is_iff (by decide), h.ahead_of_atEnd hend', hrest]
      rfl
    rw [Rune.is_iff.mp hblank, Cursor.rune_eq_eof_iff.mpr hend', hp]

/-- A character other than the blank stands at both cursors or at neither. -/
theorem is_cursor (h : x.Sees d) (ch : Char) (hch : (ch == ' ') = false) :
    (x.cursor d).rune.is ch = d.rune.is ch := by
  refine h.class_cursor (fun r => r.is ch) ?_
  rw [Rune.is_eof, Bool.eq_false_iff, Ne, Rune.is_iff]
  exact fun hsame => beq_eq_false_iff_ne.mp hch (Rune.ofChar_inj hsame).symm

/-- Where the text goes on, both cursors are at the end or neither is. -/
theorem atEnd_cursor (h : x.Sees d) (ho : x.Open d) : (x.cursor d).atEnd = d.atEnd := by
  rw [Bool.eq_iff_iff, ← Cursor.rune_eq_eof_iff, ← Cursor.rune_eq_eof_iff, h.rune_cursor ho]

/-- Both cursors move over the same rune. -/
theorem advance_cursor (h : x.Sees d) (ho : x.Open d) :
    (x.cursor d).advance = x.cursor d.advance := by
  rcases hend : d.atEnd with _ | _
  · have hend' : (x.cursor d).atEnd = false := by rw [h.atEnd_cursor ho, hend]
    have hwidth : (x.cursor d).width = d.width := congrArg Prod.snd (h.reading_cursor ho)
    have hpos : (x.cursor d).advance.pos = d.advance.pos := by
      rw [Cursor.pos_advance hend', Cursor.pos_advance hend, h.rune_cursor ho, hwidth, pos_cursor]
    calc (x.cursor d).advance
        = .place (x.cursor d).advance.source (x.cursor d).advance.pos := Cursor.eq_place _
      _ = x.cursor d.advance := by rw [Cursor.source_advance, hpos]; rfl
  · rw [Cursor.advance_of_atEnd hend,
      Cursor.advance_of_atEnd (by rw [h.atEnd_cursor ho, hend])]

/-- What is reached in the text is reached in the source. -/
theorem reaches_cursor (h : x.Sees d) (hreach : d.Reaches e) :
    (x.cursor d).Reaches (x.cursor e) := by
  refine (hreach.induct (P := fun e => x.Sees e ∧ (x.cursor d).Reaches (x.cursor e))
    ⟨h, .refl _⟩ fun e he => ⟨he.1.next, ?_⟩).2
  rcases hend : e.atEnd with _ | _
  · rw [← he.1.advance_cursor (.inr hend)]
    exact he.2.advance
  · rw [Cursor.advance_of_atEnd hend]
    exact he.2

/-- A run over the source is one over the text that goes on where the text ends. -/
theorem skipWhile_skipWhile (h : x.Sees d) (p : Rune → Bool) :
    (x.cursor d).skipWhile p = (x.cursor (d.skipWhile p)).skipWhile p := by
  fun_induction Cursor.skipWhile p d with
  | case1 d hend => rfl
  | case2 d hend hp ih =>
    have ho : x.Open d := .inr (Bool.eq_false_iff.mpr hend)
    rw [← ih h.next, Cursor.skipWhile, if_neg (by rwa [h.atEnd_cursor ho]),
      if_pos (by rwa [h.rune_cursor ho]), h.advance_cursor ho]
  | case3 d hend hp => rfl

/-- Both cursors move over the same run, if the text goes on behind it. -/
theorem skipWhile_cursor (h : x.Sees d) {p : Rune → Bool} (ho : x.Open (d.skipWhile p)) :
    (x.cursor d).skipWhile p = x.cursor (d.skipWhile p) := by
  have hstop := h.run p
  rw [h.skipWhile_skipWhile, Cursor.skipWhile, hstop.atEnd_cursor ho]
  rcases Cursor.skipWhile_stops p d with hend | hout
  · rw [if_pos hend]
  · rw [hstop.rune_cursor ho, hout, if_neg Bool.false_ne_true, ite_self]

/-- Both cursors move over the same run of a class without the blank. -/
theorem run_cursor (h : x.Sees d) (p : Rune → Bool)
    (hp : p (.ofChar ' ') = false) :
    (x.cursor d).skipWhile p = x.cursor (d.skipWhile p) := by
  by_cases ho : x.Open (d.skipWhile p)
  · exact h.skipWhile_cursor ho
  · -- The run ends with the text, and a blank comes behind it.
    obtain ⟨htail, hend⟩ := not_or.mp ho
    have hend' : (d.skipWhile p).atEnd = true := by simpa using hend
    obtain ⟨rest, hrest⟩ := x.tail_eq.resolve_left htail
    have hblank : (x.cursor (d.skipWhile p)).rune.is ' ' = true := by
      rw [Cursor.rune_is_iff (by decide), (h.run p).ahead_of_atEnd hend', hrest]
      rfl
    rw [h.skipWhile_skipWhile, Cursor.skipWhile, Rune.is_iff.mp hblank, hp,
      if_neg Bool.false_ne_true, ite_self]

/-- Both cursors move over as many runes, if the text goes on behind them. -/
theorem advanceBy_cursor (h : x.Sees d) {n : Nat} (ho : x.Open (d.advanceBy n)) :
    (x.cursor d).advanceBy n = x.cursor (d.advanceBy n) := by
  induction n generalizing d with
  | zero => rfl
  | succ n ih =>
    have hhere : x.Open d := ho.of_reaches ⟨n + 1, rfl⟩
    rw [Cursor.advanceBy, Cursor.advanceBy, h.advance_cursor hhere]
    exact ih h.next ho

/-- Between two cursors there are the same bytes. -/
theorem upTo_cursor (h : x.Sees d) (he : x.Sees e) :
    (x.cursor d).upTo (x.cursor e) = d.upTo e := by
  have hlength : e.offset - d.offset ≤ d.ahead.length := by
    rw [d.ahead_eq, List.length_drop, h.source_eq]
    exact Nat.sub_le_sub_right he.le_length _
  rw [Cursor.upTo, h.ahead_cursor, offset_cursor, offset_cursor,
    List.take_append_of_le_length hlength]
  rfl

/-- A text without blank comes next at both cursors or at neither. -/
theorem startsWith_cursor (h : x.Sees d) {text : Bytes} (htext : 0x20 ∉ Bytes.toUpper text) :
    (x.cursor d).startsWith text = d.startsWith text := by
  rw [Cursor.startsWith, Cursor.startsWith, h.ahead_cursor]
  rcases x.tail_eq with hnone | ⟨rest, htail⟩
  · rw [hnone, List.append_nil]
  · rcases Nat.lt_or_ge d.ahead.length text.length with hlt | hge
    · -- The blank would be among the bytes that are compared, and without it there are too few.
      have hlong : Bytes.sameLetters ((d.ahead ++ x.tail).take text.length) text = false := by
        rw [Bool.eq_false_iff, Ne, Bytes.sameLetters_iff]
        intro hsame
        refine htext ?_
        rw [← hsame]
        refine List.mem_map.mpr ⟨0x20, List.mem_iff_getElem?.mpr ⟨d.ahead.length, ?_⟩, by decide⟩
        rw [List.getElem?_take_of_lt hlt, htail, List.getElem?_append_right (Nat.le_refl _),
          Nat.sub_self]
        rfl
      have hshort : Bytes.sameLetters (d.ahead.take text.length) text = false := by
        rw [Bool.eq_false_iff, Ne, Bytes.sameLetters_iff]
        intro hsame
        have hlengths := congrArg List.length hsame
        rw [Bytes.length_toUpper, Bytes.length_toUpper, List.length_take] at hlengths
        omega
      rw [hlong, hshort]
    · rw [List.take_append_of_le_length hge]

/-- The same byte comes next at both cursors, where the text goes on. -/
theorem headD_cursor (h : x.Sees d) (ho : x.Open d) (b : UInt8) :
    (x.cursor d).ahead.headD b = d.ahead.headD b := by
  rw [h.ahead_cursor]
  rcases ho with hnone | hend
  · rw [hnone, List.append_nil]
  · obtain ⟨first, rest, hahead⟩ := List.exists_cons_of_ne_nil
      (show d.ahead ≠ [] by simpa [Cursor.atEnd] using hend)
    rw [hahead]
    rfl

end Sees

end Continuation

end SqlTokens
