import SqlTokens.Proofs.Codec
import SqlTokens.Proofs.Rewinds

/-!
# The characters of a string

The bytes of a string are read as its characters, one for one, and each takes the bytes of its
encoding, whatever follows it. Two characters do not come back as themselves: NUL, and the
byte-order mark unless it is the first (`Rune.ofCharAt`). So a reader that starts on a string yields
a list that is as long as the string (`Reader.start_readings`), and the boundaries of the source are
the offsets of its characters (`Walk.ofChars`).
-/

namespace SqlTokens

namespace Rune

/-- What a character is read as that starts at the given offset of its source: NUL is malformed, and
so is the byte-order mark behind the start. -/
def ofCharAt (offset : Nat) (ch : Char) : Rune :=
  if ch = '\x00' ∨ ch = '\ufeff' ∧ 0 < offset then invalid else ofChar ch

/-- Behind the start it does not matter where a character stands. -/
theorem ofCharAt_of_pos {offset offset' : Nat} (h : 0 < offset) (h' : 0 < offset') (ch : Char) :
    ofCharAt offset ch = ofCharAt offset' ch := by
  simp only [ofCharAt, h, h']

/-- The byte-order mark is the rune of one character. -/
theorem isBom_ofChar {ch : Char} : (ofChar ch).isBom = true ↔ ch = '\ufeff' := by
  rw [isBom, beq_iff_eq]
  constructor
  · intro h
    exact ofChar_inj h
  · rintro rfl
    rfl

/-- The mark of what is malformed is the rune of one character too. -/
theorem isInvalid_ofChar {ch : Char} : (ofChar ch).isInvalid = true ↔ ch = '\ufffd' := by
  rw [isInvalid, beq_iff_eq]
  constructor
  · intro h
    exact ofChar_inj h
  · rintro rfl
    rfl

/-- A character is read from its own bytes, whatever follows them. -/
theorem decodeFrom_encodeChar (offset : Nat) (ch : Char) (rest : Bytes) :
    decodeFrom offset (String.utf8EncodeChar ch ++ rest) = (ofCharAt offset ch, ch.utf8Size) := by
  by_cases hnul : ch = '\x00'
  · rw [hnul]
    rfl
  · rw [decodeFrom, decode_utf8EncodeChar hnul, String.length_utf8EncodeChar]
    simp only [isBom_ofChar, ofCharAt, hnul, false_or]
    split <;> rfl

/-- The runes of a string are its characters, each with the bytes of its encoding. -/
theorem runesFrom_chars (offset : Nat) (chars : List Char) :
    runesFrom offset (chars.flatMap String.utf8EncodeChar) =
      chars.mapIdx fun i ch => (ofCharAt (offset + i) ch, ch.utf8Size) := by
  induction chars generalizing offset with
  | nil => rw [List.flatMap_nil, runesFrom, if_pos rfl, List.mapIdx_nil]
  | cons ch chars ih =>
    have hne : String.utf8EncodeChar ch ++ chars.flatMap String.utf8EncodeChar ≠ [] := by
      simp [String.utf8EncodeChar_ne_nil]
    rw [List.flatMap_cons, runesFrom, if_neg hne]
    simp only [decodeFrom_encodeChar]
    rw [List.drop_left' (String.length_utf8EncodeChar ch), ih, List.mapIdx_cons, Nat.add_zero]
    -- The characters behind the first are behind the start, by offset and by number.
    congr 2
    funext i ch'
    have hsize := ch.utf8Size_pos
    rw [ofCharAt_of_pos (show 0 < offset + ch.utf8Size + i by omega)
      (show 0 < offset + (i + 1) by omega)]

end Rune

/-! ## Reading a string -/

/-- A string has at most four bytes for each character. -/
theorem Bytes.length_ofString_le (s : String) : (ofString s).length ≤ 4 * s.length := by
  rw [ofString, List.length_flatMap, ← String.length_toList]
  induction s.toList with
  | nil => exact Nat.le_refl 0
  | cons ch chars ih =>
    have hsize := ch.utf8Size_le_four
    rw [List.map_cons, List.sum_cons, List.length_cons, String.length_utf8EncodeChar]
    omega

namespace Reader

/-- What a reader yields up to the end: each rune that it reads, with the bytes it moves over. -/
def readings (r : Reader) : List (Rune × Nat) :=
  if r.atEnd then [] else (r.rune, r.advance.offset - r.offset) :: readings r.advance
termination_by r.cursor.remaining
decreasing_by
  rw [cursor_advance]
  exact Cursor.remaining_advance_lt (by simp_all [atEnd])

/-- A reader yields the runes of what lies ahead. -/
theorem readings_eq (r : Reader) : r.readings = Rune.runesFrom r.offset r.cursor.ahead := by
  fun_induction readings r with
  | case1 r h => rw [Cursor.atEnd_iff_ahead.mp h, Rune.runesFrom, if_pos rfl]
  | case2 r h ih =>
    have hend : r.atEnd = false := by simpa using h
    have hahead : r.cursor.ahead ≠ [] := fun hnil => h (Cursor.atEnd_iff_ahead.mpr hnil)
    have hwidth : (Rune.decodeAt r.source r.offset).2 = r.cursor.width :=
      (congrArg Prod.snd (Cursor.reading_eq r.cursor)).symm
    conv_rhs => rw [Rune.runesFrom, if_neg hahead]
    rw [ih, cursor_advance, Cursor.ahead_advance, offset_advance hend, Nat.add_sub_cancel_left]
    simp only [hwidth]
    rfl

/-- Each rune that is read adds one line or one column at most. -/
theorem counts_forward (source : Bytes) (n : Nat) :
    ((start source).forward n).pos.line ≤ n + 1 ∧
      ((start source).forward n).pos.column ≤ n + 1 := by
  induction n with
  | zero => exact ⟨Nat.le_refl 1, Nat.le_refl 1⟩
  | succ n ih =>
    rw [forward]
    rcases hend : ((start source).forward n).atEnd with _ | _
    · rw [pos_advance hend, Position.step]
      split <;> simp only <;> omega
    · rw [advance, if_pos hend]
      omega

/-- The reader of a string yields its characters, one for one and in order, each with the bytes of
its encoding. NUL comes back as malformed, and so does the byte-order mark in any place but the
first. The count of the runes is that of the characters. In a string whose length leaves room for
one more count no position on the way leaves its width. -/
theorem start_readings (s : String) :
    (start (Bytes.ofString s)).readings =
        s.toList.mapIdx (fun i ch => (Rune.ofCharAt i ch, ch.utf8Size)) ∧
      Rune.countRunes (Bytes.ofString s) = s.length ∧
      (s.length + 1 < countBound → ∀ n ≤ s.length,
        ((start (Bytes.ofString s)).forward n).pos.Fits) := by
  have hrunes : Rune.runesFrom 0 (Bytes.ofString s) =
      s.toList.mapIdx fun i ch => (Rune.ofCharAt i ch, ch.utf8Size) := by
    rw [Bytes.ofString, Rune.runesFrom_chars]
    simp only [Nat.zero_add]
  refine ⟨?_, ?_, fun hlen n hn => ?_⟩
  · rw [readings_eq]
    exact hrunes
  · rw [← Rune.length_runesFrom 0, hrunes, List.length_mapIdx, String.length_toList]
  · obtain ⟨hline, hcolumn⟩ := counts_forward (Bytes.ofString s) n
    have hoffset := ((start_tracks (Bytes.ofString s)).forward n).le_length
    have hbytes := Bytes.length_ofString_le s
    rw [source_forward] at hoffset
    change ((start (Bytes.ofString s)).forward n).pos.offset ≤ (Bytes.ofString s).length at hoffset
    simp only [countBound] at hlen
    refine ⟨?_, ?_, ?_⟩ <;> simp only [countBound, offsetBound] <;> omega

/-- A byte-order mark in first place is read as itself, a later one and NUL as malformed. -/
theorem start_readings_marks :
    "\ufeffé\x00😀\ufeff".length + 1 < countBound ∧
      (start (Bytes.ofString "\ufeffé\x00😀\ufeff")).readings =
        [(.bom, 3), (.ofChar 'é', 2), (.invalid, 1), (.ofChar '😀', 4), (.invalid, 3)] ∧
      ((start (Bytes.ofString "\ufeffé\x00😀\ufeff")).forward 5).pos.Fits := by
  have hlen : "\ufeffé\x00😀\ufeff".length + 1 < countBound := by decide
  obtain ⟨hreadings, -, hfits⟩ := start_readings "\ufeffé\x00😀\ufeff"
  exact ⟨hlen, hreadings, hfits hlen 5 (by decide)⟩

end Reader

/-! ## The boundaries of a string -/

/-- Whether a character is encoded at an offset of a source. -/
def EncodedAt (source : Bytes) (offset : Nat) (ch : Char) : Prop :=
  String.utf8EncodeChar ch <+: source.drop offset

instance (source : Bytes) (offset : Nat) (ch : Char) : Decidable (EncodedAt source offset ch) :=
  inferInstanceAs (Decidable (_ <+: _))

/-- Where a character is encoded, it is read. -/
theorem EncodedAt.decodeAt {source : Bytes} {offset : Nat} {ch : Char}
    (h : EncodedAt source offset ch) :
    Rune.decodeAt source offset = (Rune.ofCharAt offset ch, ch.utf8Size) := by
  obtain ⟨rest, hrest⟩ := h
  rw [Rune.decodeAt, ← hrest, Rune.decodeFrom_encodeChar]

/-- Behind a number of characters the next one is encoded. -/
theorem encodedAt_chars {chars : List Char} {n : Nat} (h : n < chars.length) :
    EncodedAt (chars.flatMap String.utf8EncodeChar)
      ((chars.take n).flatMap String.utf8EncodeChar).length chars[n] := by
  have hdrop : (chars.flatMap String.utf8EncodeChar).drop
      ((chars.take n).flatMap String.utf8EncodeChar).length =
        (chars.drop n).flatMap String.utf8EncodeChar := by
    conv_lhs => rw [← List.take_append_drop n chars, List.flatMap_append]
    exact List.drop_left' (by rw [List.take_append_drop])
  rw [EncodedAt, hdrop, List.drop_eq_getElem_cons h, List.flatMap_cons]
  exact List.prefix_append _ _

/-- A walk through a string goes from character to character. -/
theorem Walk.ofChars {chars : List Char} {n offset : Nat}
    (h : Walk (chars.flatMap String.utf8EncodeChar) 0 n offset) :
    n ≤ chars.length ∧ offset = ((chars.take n).flatMap String.utf8EncodeChar).length := by
  induction h with
  | stay => exact ⟨Nat.zero_le _, rfl⟩
  | @step n offset _ hlt ih =>
    obtain ⟨hn, rfl⟩ := ih
    -- Before the end of the string there is a character to read.
    have hless : n < chars.length := by
      refine Nat.lt_of_le_of_ne hn ?_
      rintro rfl
      rw [List.take_length] at hlt
      exact absurd hlt (Nat.lt_irrefl _)
    refine ⟨hless, ?_⟩
    rw [(encodedAt_chars hless).decodeAt, List.take_add_one, List.getElem?_eq_getElem hless,
      Option.toList_some, List.flatMap_append, List.length_append, List.flatMap_singleton,
      String.length_utf8EncodeChar]

/-- At a boundary of a string before its end there is one of its characters, which is the first only
at the start. -/
theorem Boundary.exists_encodedAt {s : String} {offset : Nat}
    (h : Boundary (Bytes.ofString s) offset) (hlt : offset < (Bytes.ofString s).length) :
    ∃ n ch, s.toList[n]? = some ch ∧ EncodedAt (Bytes.ofString s) offset ch ∧
      (0 < offset → 0 < n) := by
  obtain ⟨n, hn⟩ := h
  obtain ⟨hle, rfl⟩ := Walk.ofChars hn
  have hless : n < s.toList.length := by
    refine Nat.lt_of_le_of_ne hle ?_
    rintro rfl
    rw [List.take_length] at hlt
    exact absurd hlt (Nat.lt_irrefl _)
  refine ⟨n, _, List.getElem?_eq_getElem hless, encodedAt_chars hless, fun hpos => ?_⟩
  rw [Nat.pos_iff_ne_zero]
  rintro rfl
  exact absurd hpos (Nat.lt_irrefl 0)

end SqlTokens
