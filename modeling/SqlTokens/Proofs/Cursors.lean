import SqlTokens.Cursor.Basic
import SqlTokens.Proofs.Walk

/-!
# Cursors on the walk

A cursor that started at the start of its source and only ever moved forwards stands at a boundary,
and its position is the one of its offset (`Canonical`). Such a cursor is determined by its source
and its offset. `Reaches` says that moving on leads from one cursor to another; the bytes between
the two and the bytes ahead of the second are then the bytes ahead of the first
(`Reaches.ahead_eq`).
-/

namespace SqlTokens

namespace Cursor

/-! ## A cursor and its offset -/

/-- The rune at a cursor is the one at its offset. -/
theorem reading_eq (c : Cursor) : c.reading = Rune.decodeAt c.source c.offset := by
  rw [reading, Rune.decodeAt, c.ahead_eq]
  rfl

/-- A cursor is at the end exactly if its offset is not below the length of the source. -/
theorem atEnd_iff {c : Cursor} : c.atEnd = true ↔ c.source.length ≤ c.offset := by
  rw [atEnd, List.isEmpty_iff, c.ahead_eq, List.drop_eq_nil_iff]
  rfl

/-- A cursor is before the end exactly if its offset is that of a byte. -/
theorem atEnd_eq_false_iff {c : Cursor} : c.atEnd = false ↔ c.offset < c.source.length := by
  rw [Bool.eq_false_iff, Ne, atEnd_iff, Nat.not_le]

/-- At the end no byte is ahead, and only there. -/
theorem atEnd_iff_ahead {c : Cursor} : c.atEnd = true ↔ c.ahead = [] := by
  rw [atEnd, List.isEmpty_iff]

/-- The rune at a cursor is a character of one byte exactly if its byte comes next. -/
theorem rune_is_iff {c : Cursor} {ch : Char} (hch : Rune.IsByte ch) :
    c.rune.is ch = true ↔ c.ahead.head? = some (UInt8.ofNat ch.toNat) := by
  rw [rune, reading, Rune.decodeFrom_is_iff hch]

/-- Moving on stays in the source. -/
@[simp] theorem source_advance (c : Cursor) : c.advance.source = c.source := by
  rw [advance]
  split <;> rfl

/-- Before the end, moving on takes the offset past the rune. -/
theorem offset_advance {c : Cursor} (h : c.atEnd = false) :
    c.advance.offset = c.offset + (Rune.decodeAt c.source c.offset).2 := by
  rw [← reading_eq, advance, if_neg (by rw [h]; decide), offset, Position.step_offset]
  rfl

/-- Before the end, moving on takes at least one byte. -/
theorem offset_lt_advance {c : Cursor} (h : c.atEnd = false) : c.offset < c.advance.offset := by
  have hpos := decodeAt_width_pos (atEnd_eq_false_iff.mp h)
  rw [offset_advance h]
  omega

/-- Before the end, moving on takes the position over the rune. -/
theorem pos_advance {c : Cursor} (h : c.atEnd = false) :
    c.advance.pos = c.pos.step c.rune c.width := by
  rw [advance, if_neg (by rw [h]; decide)]

/-- At the end there is nowhere to move. -/
theorem advance_of_atEnd {c : Cursor} (h : c.atEnd = true) : c.advance = c := by
  rw [advance, if_pos h]

/-- The bytes behind a rune are those ahead without the bytes of the rune. -/
theorem ahead_advance (c : Cursor) : c.advance.ahead = c.ahead.drop c.width := by
  rcases h : c.atEnd with _ | _
  · rw [advance, if_neg (by rw [h]; decide)]
  · rw [advance_of_atEnd h, atEnd_iff_ahead.mp h, List.drop_nil]

/-- The width of the rune at a cursor is that of the first rune ahead. -/
theorem width_eq (c : Cursor) : c.width = (Rune.decode c.ahead).2 := by
  rw [width, reading, Rune.decodeFrom_width]

/-! ## Canonical cursors -/

/-- A cursor that stands where the walk from the start of its source comes to, with the position of
that place. -/
structure Canonical (c : Cursor) : Prop where
  /-- The cursor stands between two runes. -/
  boundary : Boundary c.source c.offset
  /-- The position is the one of the offset. -/
  pos_eq : c.pos = Position.ofOffset c.source c.offset

/-- The cursor at the start of a source is canonical. -/
theorem canonical_start (source : Bytes) : (start source).Canonical :=
  ⟨Boundary.zero source, (Position.ofOffset_zero source).symm⟩

namespace Canonical

variable {c d : Cursor}

/-- A canonical cursor stands within its source. -/
theorem le_length (h : c.Canonical) : c.offset ≤ c.source.length := h.boundary.le_length

/-- Moving on keeps a cursor canonical. -/
theorem advance (h : c.Canonical) : c.advance.Canonical := by
  rcases he : c.atEnd with _ | _
  · have hlt := atEnd_eq_false_iff.mp he
    constructor
    · rw [source_advance, offset_advance he]
      exact h.boundary.next hlt
    · -- The step from one position to the next is the one from boundary to boundary.
      rw [source_advance, offset_advance he, ← Position.ofOffset_step h.boundary hlt, ← h.pos_eq,
        ← reading_eq, pos_advance he]
      rfl
  · rwa [advance_of_atEnd he]

/-- In a source of bounded length the position of a canonical cursor keeps to the widths of its
counts. -/
theorem fits (h : c.Canonical) (hlen : c.source.length + 1 < countBound) : c.pos.Fits := by
  rw [h.pos_eq]
  exact Position.ofOffset_fits h.boundary hlen

/-- A canonical cursor is determined by its source and its offset. -/
theorem ext (hc : c.Canonical) (hd : d.Canonical) (hs : c.source = d.source)
    (ho : c.offset = d.offset) : c = d := by
  -- The position and the bytes ahead are both read off the offset.
  have hpos : c.pos = d.pos := by rw [hc.pos_eq, hd.pos_eq, hs, ho]
  have hahead : c.ahead = d.ahead := by rw [c.ahead_eq, d.ahead_eq, hs, hpos]
  rcases c with ⟨cs, cp, ca, _⟩
  rcases d with ⟨ds, dp, da, _⟩
  simp only at hs hpos hahead
  subst hs hpos hahead
  rfl

end Canonical

/-! ## Reaching a cursor -/

/-- Whether moving on leads from one cursor to another. -/
def Reaches (c d : Cursor) : Prop := ∃ n, c.advanceBy n = d

/-- Every cursor reaches itself. -/
theorem Reaches.refl (c : Cursor) : c.Reaches c := ⟨0, rfl⟩

/-- Every cursor reaches the next one. -/
theorem Reaches.next (c : Cursor) : c.Reaches c.advance := ⟨1, rfl⟩

/-- Moving on in two parts is moving on. -/
theorem advanceBy_add (c : Cursor) (n m : Nat) :
    c.advanceBy (n + m) = (c.advanceBy n).advanceBy m := by
  induction n generalizing c with
  | zero => rw [Nat.zero_add, advanceBy]
  | succ n ih => rw [Nat.succ_add, advanceBy, advanceBy, ih]

namespace Reaches

variable {c d e : Cursor}

/-- What is reached from a cursor that is reached is reached. -/
theorem trans (h : c.Reaches d) (h' : d.Reaches e) : c.Reaches e := by
  obtain ⟨n, rfl⟩ := h
  obtain ⟨m, rfl⟩ := h'
  exact ⟨n + m, c.advanceBy_add n m⟩

/-- The cursor behind a cursor that is reached is reached. -/
theorem advance (h : c.Reaches d) : c.Reaches d.advance := h.trans ⟨1, rfl⟩

/-- The cursor behind several runes is reached. -/
theorem advanceBy (h : c.Reaches d) (n : Nat) : c.Reaches (d.advanceBy n) := h.trans ⟨n, rfl⟩

/-- The cursor behind a run is reached. -/
theorem skipWhile (h : c.Reaches d) (p : Rune → Bool) : c.Reaches (d.skipWhile p) := by
  fun_induction Cursor.skipWhile p d with
  | case1 => exact h
  | case2 d _ _ ih => exact ih h.advance
  | case3 => exact h

/-- What holds of a cursor and is kept by moving on holds of every cursor that is reached. -/
theorem induct {P : Cursor → Prop} (h : c.Reaches d) (hc : P c)
    (hstep : ∀ e, P e → P e.advance) : P d := by
  obtain ⟨n, rfl⟩ := h
  induction n generalizing c with
  | zero => exact hc
  | succ n ih => exact ih (hstep c hc)

/-- Every cursor that is reached is in the same source. -/
theorem source_eq (h : c.Reaches d) : d.source = c.source :=
  h.induct (P := fun e => e.source = c.source) rfl fun e he => by rw [source_advance, he]

/-- No cursor that is reached stands before the one that it is reached from. -/
theorem offset_le (h : c.Reaches d) : c.offset ≤ d.offset :=
  h.induct (P := fun e => c.offset ≤ e.offset) (Nat.le_refl _) fun e he => by
    rcases hend : e.atEnd with _ | _
    · exact Nat.le_trans he (Nat.le_of_lt (offset_lt_advance hend))
    · rwa [advance_of_atEnd hend]

/-- No cursor that is reached stands behind its source, if the first does not. -/
theorem le_length (h : c.Reaches d) (hc : c.offset ≤ c.source.length) :
    d.offset ≤ d.source.length :=
  h.induct (P := fun e => e.offset ≤ e.source.length) hc fun e he => by
    rcases hend : e.atEnd with _ | _
    · rw [source_advance, offset_advance hend]
      exact decodeAt_width_le he
    · rwa [advance_of_atEnd hend]

/-- What is reached from a canonical cursor is canonical. -/
theorem canonical (h : c.Reaches d) (hc : c.Canonical) : d.Canonical :=
  h.induct hc fun _ he => he.advance

/-- The bytes ahead of a cursor that is reached are the last of those ahead. -/
theorem ahead_drop (h : c.Reaches d) : c.ahead.drop (d.offset - c.offset) = d.ahead := by
  have hle := h.offset_le
  rw [c.ahead_eq, d.ahead_eq, List.drop_drop, h.source_eq]
  congr 1
  exact Nat.add_sub_cancel' hle

/-- The bytes up to a cursor that is reached and those ahead of it are the bytes ahead. -/
theorem ahead_eq (h : c.Reaches d) : c.ahead = c.upTo d ++ d.ahead := by
  rw [← h.ahead_drop, upTo, List.take_append_drop]

/-- Where the text that lies ahead has been passed over, the bytes behind it lie ahead. -/
theorem ahead_of_upTo (h : c.Reaches d) {text rest : Bytes} (hup : c.upTo d = text)
    (ha : c.ahead = text ++ rest) : d.ahead = rest := by
  rw [h.ahead_eq, hup] at ha
  exact List.append_cancel_left ha

/-- Where the bytes behind a text lie ahead, the text has been passed over. -/
theorem upTo_of_ahead (h : c.Reaches d) {text rest : Bytes} (hd : d.ahead = rest)
    (ha : c.ahead = text ++ rest) : c.upTo d = text := by
  rw [h.ahead_eq, hd] at ha
  exact List.append_cancel_right ha

end Reaches

/-- The bytes from one cursor up to another are a slice of the source. -/
theorem upTo_eq (c d : Cursor) : c.upTo d = (c.source.take d.offset).drop c.offset := by
  rw [upTo, c.ahead_eq, List.drop_take]
  rfl

end Cursor

end SqlTokens
