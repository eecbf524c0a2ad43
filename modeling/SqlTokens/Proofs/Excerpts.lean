import SqlTokens.Diagnostic
import SqlTokens.Token.Basic
import SqlTokens.Proofs.Runs

/-!
# Excerpts of a source

An excerpt is a part of a source that can be read alone: it starts at the start of the source or
behind a semicolon, and it goes up to the end of the source or up to a semicolon. A cursor of an
excerpt stands at a place of the whole source (`Excerpt.cursor`), where line, column and offset are
counted on from the start of the excerpt (`Position.behind`).

No rune goes on over a semicolon, so both cursors read the same rune (`Sees.rune_cursor`), and they
stay together when they move on (`Sees.advance_cursor`). Only behind the last semicolon do they
part: there the excerpt ends, and the source may go on. `Sees` says that a cursor has not come to
that place.
-/

namespace SqlTokens

/-! ## Positions behind a place -/

/-- A position in a text that starts at a place of a source, as the position in the source. The
first line of the text is the rest of the line of that place. -/
def Position.behind (base p : Position) : Position where
  line := base.line + p.line - 1
  column := if p.line = 1 then base.column + p.column - 1 else p.column
  offset := base.offset + p.offset

/-- A token of a text that starts at a place of a source, as a token of the source. -/
def Token.behind (base : Position) (t : Token) : Token := { t with pos := base.behind t.pos }

/-- An error in a text that starts at a place of a source, as an error in the source. -/
def ScanError.behind (base : Position) (e : ScanError) : ScanError :=
  { e with pos := base.behind e.pos }

/-- A warning about a text that starts at a place of a source, as a warning about the source. -/
def ScanWarning.behind (base : Position) (w : ScanWarning) : ScanWarning :=
  { w with pos := base.behind w.pos }

namespace Position

/-- A text that starts where its source does has the positions of the source. -/
@[simp] theorem start_behind (p : Position) : start.behind p = p := by
  rcases p with ⟨line, column, offset⟩
  simp only [behind, start, Nat.add_sub_cancel_left, Nat.zero_add, ite_self]

/-- A text starts at its place. -/
@[simp] theorem behind_start (base : Position) : base.behind start = base := by
  rcases base with ⟨line, column, offset⟩
  simp only [behind, start, Nat.add_sub_cancel, if_true, Nat.add_zero]

/-- A step in a text is a step in the source. -/
theorem behind_step (base : Position) {p : Position} (hline : 0 < p.line) (hcolumn : 0 < p.column)
    (r : Rune) (width : Nat) : (base.behind p).step r width = base.behind (p.step r width) := by
  rcases p with ⟨line, column, offset⟩
  simp only at hline hcolumn
  unfold step behind
  split
  · -- The next line of the text is a line of its own.
    simp only [mk.injEq, Nat.add_assoc, and_true]
    rw [if_neg (by omega)]
    exact ⟨by omega, rfl⟩
  · simp only [mk.injEq, true_and, Nat.add_assoc, and_true]
    split <;> omega

end Position

/-- Line and column of a canonical cursor count from 1. -/
theorem Cursor.Canonical.counts_pos {c : Cursor} (h : c.Canonical) :
    0 < c.pos.line ∧ 0 < c.pos.column := by
  rw [h.pos_eq, Position.ofOffset]
  exact ⟨Nat.succ_pos _, Nat.succ_pos _⟩

/-- A cursor is determined by its source and its position. -/
theorem Cursor.eq_place (c : Cursor) : c = .place c.source c.pos := by
  rcases c with ⟨source, pos, ahead, hahead⟩
  subst hahead
  rfl

/-! ## Bytes up to a semicolon -/

namespace Bytes

/-- Whether a text is another one, or what the other one has up to one of its semicolons. -/
def Cut (whole part : Bytes) : Prop :=
  whole = part ∨ ∃ front back, whole = front ++ 0x3B :: back ∧ part = front ++ [0x3B]

namespace Cut

variable {whole part : Bytes}

/-- Both texts start with the same byte. -/
theorem head?_eq (h : Cut whole part) : whole.head? = part.head? := by
  rcases h with rfl | ⟨front, back, rfl, rfl⟩
  · rfl
  · cases front with
    | nil => rfl
    | cons b front => rfl

/-- Both texts start with the same rune, since none goes on over a semicolon. -/
theorem decode_eq (h : Cut whole part) : Rune.decode whole = Rune.decode part := by
  rcases h with rfl | ⟨front, back, rfl, rfl⟩
  · rfl
  · have hpart : (front ++ 0x3B :: back).take (front.length + 1) = front ++ [0x3B] := by
      rw [List.take_length_add_append]
      rfl
    rw [← hpart, Rune.decode_take]
    by_contra hlong
    -- A rune that goes on over the semicolon would have it among its bytes.
    have hmem : (0x3B : UInt8) ∈ (front ++ 0x3B :: back).take
        (Rune.decode (front ++ 0x3B :: back)).2 := by
      have hcut : front ++ [0x3B] <+: (front ++ 0x3B :: back).take
          (Rune.decode (front ++ 0x3B :: back)).2 := by
        rw [← hpart]
        exact List.take_prefix_take_left (by omega)
      exact hcut.subset (List.mem_append_right _ (List.mem_singleton_self _))
    obtain ⟨-, hwidth⟩ := Rune.eq_head_of_mem_take (by decide) hmem
    omega

/-- A text without semicolon comes next in both or in neither. -/
theorem sameLetters_eq (h : Cut whole part) {text : Bytes} (htext : 0x3B ∉ toUpper text) :
    sameLetters (whole.take text.length) text = sameLetters (part.take text.length) text := by
  rcases h with rfl | ⟨front, back, rfl, rfl⟩
  · rfl
  · rcases Nat.lt_or_ge front.length text.length with hlt | hge
    · -- The semicolon is among the bytes that are compared.
      have hdiffer (rest : Bytes) :
          sameLetters ((front ++ 0x3B :: rest).take text.length) text = false := by
        rw [Bool.eq_false_iff, Ne, sameLetters_iff]
        intro hsame
        refine htext ?_
        rw [← hsame]
        refine List.mem_map.mpr ⟨0x3B, ?_, by decide⟩
        refine List.mem_iff_getElem?.mpr ⟨front.length, ?_⟩
        rw [List.getElem?_take_of_lt hlt]
        simp
      rw [hdiffer back, hdiffer []]
    · rw [List.take_append_of_le_length hge, List.take_append_of_le_length hge]

/-- Behind bytes of a class without the semicolon both texts go on with the same byte. -/
theorem head?_dropWhile_eq (h : Cut whole part) {p : UInt8 → Bool} (hp : p 0x3B = false) :
    (whole.dropWhile p).head? = (part.dropWhile p).head? := by
  rcases h with rfl | ⟨front, back, rfl, rfl⟩
  · rfl
  · induction front with
    | nil => simp [hp]
    | cons b front ih =>
      rw [List.cons_append, List.cons_append, List.dropWhile_cons, List.dropWhile_cons]
      split
      · exact ih
      · rfl

end Cut

end Bytes

/-! ## Excerpts -/

/-- The bytes of the byte-order mark. -/
def Rune.bomBytes : Bytes := [0xEF, 0xBB, 0xBF]

/-- A part of a source that can be read alone. -/
structure Excerpt where
  /-- The source. -/
  source : Bytes
  /-- Where the excerpt starts. -/
  base : Position
  /-- The offset at which the excerpt ends. -/
  stop : Nat
  /-- The excerpt starts before its end. -/
  base_le : base.offset ≤ stop
  /-- The excerpt ends in the source. -/
  stop_le : stop ≤ source.length
  /-- The excerpt starts where the source does, or behind a semicolon. A byte-order mark would be
  malformed there, but not at the start of a source. -/
  opened : base.offset = 0 ∨
    source[base.offset - 1]? = some 0x3B ∧ ¬Rune.bomBytes <+: source.drop base.offset
  /-- The excerpt ends where the source does, or with a semicolon. -/
  closed : source.length ≤ stop ∨ source[stop - 1]? = some 0x3B

namespace Excerpt

variable (x : Excerpt) {c d e : Cursor}

/-- The bytes of an excerpt. -/
def part : Bytes := (x.source.take x.stop).drop x.base.offset

/-- The cursor of the whole source that stands where a cursor of the excerpt does. -/
def cursor (d : Cursor) : Cursor := .place x.source (x.base.behind d.pos)

/-- Whether an offset of the source lies before the end of the excerpt, or the excerpt goes up to
the end of the source. -/
def Clear (offset : Nat) : Prop := offset < x.stop ∨ x.source.length ≤ x.stop

/-- Whether a cursor stands in an excerpt. -/
structure Holds (d : Cursor) : Prop where
  /-- The cursor reads the excerpt. -/
  source_eq : d.source = x.part
  /-- The cursor has come from the start of the excerpt. -/
  canonical : d.Canonical

/-- Whether a cursor stands in an excerpt and has ahead what the source has there. -/
structure Sees (d : Cursor) : Prop extends x.Holds d where
  /-- The end of the excerpt lies ahead, or the source ends there too. -/
  clear : x.Clear (x.cursor d).offset

variable {x}

/-- Where a cursor at a place of the whole source stands. -/
@[simp] theorem pos_cursor (x : Excerpt) (d : Cursor) :
    (x.cursor d).pos = x.base.behind d.pos := rfl

/-- Offsets count on from the start of the excerpt. -/
@[simp] theorem offset_cursor (x : Excerpt) (d : Cursor) :
    (x.cursor d).offset = x.base.offset + d.offset := rfl

/-! ### Clear offsets -/

/-- What comes before a clear offset is clear. -/
theorem Clear.of_le {m n : Nat} (h : x.Clear n) (hle : m ≤ n) : x.Clear m :=
  h.imp_left fun hlt => Nat.lt_of_le_of_lt hle hlt

/-- What has led to a clear place is clear. -/
theorem Clear.of_reaches (h : x.Clear d.offset) (hreach : c.Reaches d) : x.Clear c.offset :=
  h.of_le hreach.offset_le

/-- The excerpt has the bytes of the source at clear offsets. -/
theorem Clear.getElem?_part {i : Nat} (h : x.Clear (x.base.offset + i)) :
    x.part[i]? = x.source[x.base.offset + i]? := by
  rw [part, List.getElem?_drop]
  rcases h with hlt | hend
  · exact List.getElem?_take_of_lt hlt
  · rw [List.take_of_length_le hend]

/-- Behind a rune other than the semicolon it is still clear. -/
theorem Clear.advance (h : x.Clear c.offset) (hsource : c.source = x.source)
    (hr : c.rune.is ';' = false) : x.Clear c.advance.offset := by
  rcases h with hlt | hend
  · rcases x.closed with hend | hsemi
    · exact .inr hend
    · left
      by_contra hge
      -- The semicolon at the end of the excerpt would be among the bytes of the rune.
      have hlen : x.stop - 1 < x.source.length := (List.getElem?_eq_some_iff.mp hsemi).1
      have hatEnd : c.atEnd = false := by
        rw [Cursor.atEnd_eq_false_iff, hsource]
        omega
      rw [Cursor.offset_advance hatEnd, ← Cursor.reading_eq] at hge
      change ¬c.offset + c.width < x.stop at hge
      rw [Cursor.width_eq] at hge
      have hmem : (0x3B : UInt8) ∈ c.ahead.take (Rune.decode c.ahead).2 := by
        refine List.mem_iff_getElem?.mpr ⟨x.stop - 1 - c.offset, ?_⟩
        rw [List.getElem?_take_of_lt (by omega), c.ahead_eq, List.getElem?_drop, hsource]
        change x.source[c.offset + (x.stop - 1 - c.offset)]? = _
        rw [Nat.add_sub_cancel' (by omega), hsemi]
      have hhead := (Rune.eq_head_of_mem_take (by decide) hmem).1
      rw [(Cursor.rune_is_iff (by decide)).mpr hhead] at hr
      cases hr
  · exact .inr hend

/-- Behind runes of a class without the semicolon it is still clear. -/
theorem Clear.skipWhile (h : x.Clear c.offset) (hsource : c.source = x.source) {p : Rune → Bool}
    (hp : p (.ofChar ';') = false) : x.Clear (c.skipWhile p).offset := by
  fun_induction Cursor.skipWhile p c with
  | case1 => exact h
  | case2 c _ hpc ih =>
    exact ih (h.advance hsource (Rune.is_eq_false hpc _ hp))
      ((Cursor.source_advance c).trans hsource)
  | case3 => exact h

/-! ### Reading in step -/

/-- What is reached in an excerpt stands in it. -/
theorem Holds.reaches (h : x.Holds d) (hreach : d.Reaches e) : x.Holds e :=
  ⟨hreach.source_eq.trans h.source_eq, hreach.canonical h.canonical⟩

/-- A cursor of the excerpt stands within its source, before or at the end of the excerpt. -/
theorem Holds.offset_le (h : x.Holds d) : x.base.offset + d.offset ≤ x.stop := by
  have hle := h.canonical.le_length
  have hbase := x.base_le
  rw [h.source_eq, part, List.length_drop, List.length_take] at hle
  omega

/-- A cursor of the excerpt stands within the source. -/
theorem Holds.le_length (h : x.Holds d) : (x.cursor d).offset ≤ (x.cursor d).source.length :=
  Nat.le_trans h.offset_le x.stop_le

/-- The bytes ahead of a place of the source, and those of them that the excerpt has. -/
theorem Sees.cut (h : x.Sees d) : Bytes.Cut (x.cursor d).ahead d.ahead := by
  have hpart : d.ahead = (x.source.take x.stop).drop (x.base.offset + d.offset) := by
    rw [d.ahead_eq, h.source_eq, part, List.drop_drop]
    rfl
  have hwhole : (x.cursor d).ahead = x.source.drop (x.base.offset + d.offset) := rfl
  rw [hpart, hwhole]
  by_cases hend : x.source.length ≤ x.stop
  · rw [List.take_of_length_le hend]
    exact .inl rfl
  · have hlt : x.base.offset + d.offset < x.stop := h.clear.resolve_right hend
    have hsemi : x.source[x.stop - 1]? = some 0x3B := x.closed.resolve_left hend
    right
    -- The source is what it has before the semicolon, the semicolon, and what comes behind.
    obtain ⟨hlen, hget⟩ := List.getElem?_eq_some_iff.mp hsemi
    have hfront : (x.source.take (x.stop - 1)).length = x.stop - 1 := by
      rw [List.length_take]
      omega
    have hsplit : x.source = x.source.take (x.stop - 1) ++ 0x3B :: x.source.drop x.stop := by
      have hdrop := List.drop_eq_getElem_cons hlen
      rw [hget, Nat.sub_add_cancel (by omega)] at hdrop
      rw [← hdrop, List.take_append_drop]
    have htake : x.source.take x.stop = x.source.take (x.stop - 1) ++ [0x3B] := by
      conv => lhs; rw [hsplit]
      rw [List.take_append, List.take_of_length_le (by omega), hfront,
        show x.stop - (x.stop - 1) = 1 by omega]
      rfl
    refine ⟨(x.source.take (x.stop - 1)).drop (x.base.offset + d.offset), x.source.drop x.stop, ?_,
      ?_⟩
    · conv => lhs; rw [hsplit]
      rw [List.drop_append_of_le_length (by omega)]
    · rw [htake, List.drop_append_of_le_length (by omega)]

/-- Both cursors read the same rune. -/
theorem Sees.reading_cursor (h : x.Sees d) : (x.cursor d).reading = d.reading := by
  rw [Cursor.reading, Cursor.reading, Rune.decodeFrom, Rune.decodeFrom, h.cut.decode_eq,
    offset_cursor]
  rcases hd : Rune.decode d.ahead with ⟨r, width⟩
  by_cases hoffset : 0 < d.offset
  · simp only [hoffset, Nat.add_pos_right, and_true]
  · -- At the start of the excerpt a byte-order mark counts only if that is the start of the source.
    have hzero : d.offset = 0 := Nat.eq_zero_of_not_pos hoffset
    rcases x.opened with hbase | ⟨-, hplain⟩
    · simp only [hzero, hbase]
    · have hbom : r.isBom = false := by
        rw [Bool.eq_false_iff]
        intro hr
        have hmark : (Rune.decode (x.cursor d).ahead).1 = Rune.bom := by
          rw [h.cut.decode_eq, hd]
          exact eq_of_beq hr
        have hahead : (x.cursor d).ahead = x.source.drop (x.base.offset + d.offset) := rfl
        rw [hahead, hzero, Nat.add_zero] at hmark
        refine hplain ?_
        rw [Rune.bomBytes, ← Rune.take_of_decode_bom hmark]
        exact List.take_prefix _ _
      simp only [hbom, Bool.false_eq_true, false_and, if_false]

/-- Both cursors stand at the same rune. -/
theorem Sees.rune_cursor (h : x.Sees d) : (x.cursor d).rune = d.rune := by
  rw [Cursor.rune, h.reading_cursor, Cursor.rune]

/-- Both cursors are at the end, or neither is. -/
theorem Sees.atEnd_cursor (h : x.Sees d) : (x.cursor d).atEnd = d.atEnd := by
  rw [Bool.eq_iff_iff, ← Cursor.rune_eq_eof_iff, ← Cursor.rune_eq_eof_iff, h.rune_cursor]

/-- Both cursors move over the same rune. -/
theorem Sees.advance_cursor (h : x.Sees d) : (x.cursor d).advance = x.cursor d.advance := by
  rcases hend : d.atEnd with _ | _
  · have hend' : (x.cursor d).atEnd = false := by rw [h.atEnd_cursor, hend]
    have hwidth : (x.cursor d).width = d.width := congrArg Prod.snd h.reading_cursor
    obtain ⟨hline, hcolumn⟩ := h.canonical.counts_pos
    have hpos : (x.cursor d).advance.pos = x.base.behind d.advance.pos := by
      rw [Cursor.pos_advance hend', Cursor.pos_advance hend, h.rune_cursor, hwidth, pos_cursor,
        Position.behind_step _ hline hcolumn]
    calc (x.cursor d).advance
        = .place (x.cursor d).advance.source (x.cursor d).advance.pos := Cursor.eq_place _
      _ = x.cursor d.advance := by rw [Cursor.source_advance, hpos]; rfl
  · rw [Cursor.advance_of_atEnd hend, Cursor.advance_of_atEnd (by rw [h.atEnd_cursor, hend])]

/-- What is reached in an excerpt is seen if the place of the source is clear. -/
theorem Sees.reaches (h : x.Sees d) (hreach : d.Reaches e) (hclear : x.Clear (x.cursor e).offset) :
    x.Sees e :=
  ⟨h.toHolds.reaches hreach, hclear⟩

/-- A cursor that leads to a clear place moves on to one. -/
theorem Sees.next (h : x.Sees d) (hclear : x.Clear (x.cursor d).advance.offset) :
    x.Sees d.advance := by
  rw [h.advance_cursor] at hclear
  exact h.reaches (.next d) hclear

/-- Behind a rune other than the semicolon the bytes ahead are still the same. -/
theorem Sees.pass (h : x.Sees d) (hr : d.rune.is ';' = false) : x.Sees d.advance :=
  h.next (h.clear.advance rfl (by rwa [h.rune_cursor]))

/-- Behind a rune of a class without the semicolon the bytes ahead are still the same. -/
theorem Sees.pass_of (h : x.Sees d) {p : Rune → Bool} (hp : p (.ofChar ';') = false)
    (hr : p d.rune = true) : x.Sees d.advance :=
  h.pass (Rune.is_eq_false hr _ hp)

/-- Both cursors move over the same run, if it leads to a clear place. -/
theorem Sees.skipWhile_cursor (h : x.Sees d) {p : Rune → Bool}
    (hclear : x.Clear ((x.cursor d).skipWhile p).offset) :
    (x.cursor d).skipWhile p = x.cursor (d.skipWhile p) := by
  fun_induction Cursor.skipWhile p d with
  | case1 d hend =>
    rw [Cursor.skipWhile, if_pos (by rwa [h.atEnd_cursor])]
  | case2 d hend hp ih =>
    rw [Cursor.skipWhile, if_neg (by rwa [h.atEnd_cursor]), if_pos (by rwa [h.rune_cursor])]
      at hclear ⊢
    have hnext := h.next (hclear.of_reaches ((Cursor.Reaches.refl _).skipWhile p))
    rw [h.advance_cursor] at hclear ⊢
    exact ih hnext hclear
  | case3 d hend hp =>
    rw [Cursor.skipWhile, if_neg (by rwa [h.atEnd_cursor]), if_neg (by rwa [h.rune_cursor])]

/-- Both cursors move over the same run of a class without the semicolon. -/
theorem Sees.run_cursor (h : x.Sees d) {p : Rune → Bool} (hp : p (.ofChar ';') = false) :
    (x.cursor d).skipWhile p = x.cursor (d.skipWhile p) :=
  h.skipWhile_cursor (h.clear.skipWhile rfl hp)

/-- Behind runes of a class without the semicolon the bytes ahead are still the same. -/
theorem Sees.run (h : x.Sees d) {p : Rune → Bool} (hp : p (.ofChar ';') = false) :
    x.Sees (d.skipWhile p) := by
  refine h.reaches ((Cursor.Reaches.refl d).skipWhile p) ?_
  rw [← h.run_cursor hp]
  exact h.clear.skipWhile rfl hp

/-- Both cursors move over as many runes, if that leads to a clear place. -/
theorem Sees.advanceBy_cursor (h : x.Sees d) {n : Nat}
    (hclear : x.Clear ((x.cursor d).advanceBy n).offset) :
    (x.cursor d).advanceBy n = x.cursor (d.advanceBy n) := by
  induction n generalizing d with
  | zero => rfl
  | succ n ih =>
    rw [Cursor.advanceBy] at hclear ⊢
    have hnext := h.next (hclear.of_reaches ((Cursor.Reaches.refl _).advanceBy n))
    rw [h.advance_cursor] at hclear ⊢
    exact ih hnext hclear

/-- Between two cursors there are the same bytes. -/
theorem Holds.upTo_cursor (he : x.Holds e) (d : Cursor) (hd : d.source = x.part) :
    (x.cursor d).upTo (x.cursor e) = d.upTo e := by
  have hwithin : (x.source.take x.stop).take (x.base.offset + e.offset) =
      x.source.take (x.base.offset + e.offset) := by
    rw [List.take_take, Nat.min_eq_left he.offset_le]
  calc (x.cursor d).upTo (x.cursor e)
      = (x.source.take (x.base.offset + e.offset)).drop (x.base.offset + d.offset) :=
        Cursor.upTo_eq _ _
    _ = (x.part.take e.offset).drop d.offset := by
        rw [part, List.take_drop, List.drop_drop, hwithin]
    _ = d.upTo e := by rw [Cursor.upTo_eq, hd]

/-- A text without semicolon comes next at both cursors or at neither. -/
theorem Sees.startsWith_cursor (h : x.Sees d) {text : Bytes} (htext : 0x3B ∉ Bytes.toUpper text) :
    (x.cursor d).startsWith text = d.startsWith text :=
  h.cut.sameLetters_eq htext

/-- The same byte comes next at both cursors. -/
theorem Sees.headD_cursor (h : x.Sees d) (b : UInt8) :
    (x.cursor d).ahead.headD b = d.ahead.headD b := by
  rw [List.headD_eq_head?_getD, List.headD_eq_head?_getD, h.cut.head?_eq]

end Excerpt

end SqlTokens
