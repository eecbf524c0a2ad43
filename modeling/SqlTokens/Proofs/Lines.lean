import SqlTokens.Reader.LineIndex
import SqlTokens.Proofs.Walk

/-!
# What an index of lines knows

An index knows a source up to its frontier if its starts are exactly those of the lines that begin
up to there (`Knows`). Reading a rune and looking through a stretch of the source both keep that,
whether or not the frontier is a boundary. Within the frontier the position that an index finds for
a boundary is then the position of that offset (`locate_eq`), although the index counts runes in a
text that it has cut off at the offset.
-/

namespace SqlTokens

namespace LineIndex

/-- The starts of the lines that begin up to an offset, the latest first. -/
def lineStarts (source : Bytes) : Nat → List Nat
  | 0 => [0]
  | n + 1 =>
    if source[n]? = some 0x0A then (n + 1) :: lineStarts source n else lineStarts source n

/-- Whether the starts in an index are those of the lines that begin up to its frontier. -/
structure Knows (lines : LineIndex) (source : Bytes) : Prop where
  /-- The starts are complete. -/
  starts_eq : lines.starts = lineStarts source lines.frontier
  /-- The frontier lies within the source. -/
  frontier_le : lines.frontier ≤ source.length

/-! ## The starts of lines -/

variable {source : Bytes}

/-- No line that begins up to an offset begins behind it. -/
theorem le_of_mem_lineStarts {offset start : Nat} (h : start ∈ lineStarts source offset) :
    start ≤ offset := by
  induction offset with
  | zero => simpa [lineStarts] using h
  | succ n ih =>
    rw [lineStarts] at h
    split at h
    · rcases List.mem_cons.mp h with rfl | h
      · exact Nat.le_refl _
      · exact Nat.le_succ_of_le (ih h)
    · exact Nat.le_succ_of_le (ih h)

/-- As many lines begin up to an offset as there are newlines before it, and one more. -/
theorem length_lineStarts (offset : Nat) :
    (lineStarts source offset).length = (source.take offset).count 0x0A + 1 := by
  induction offset with
  | zero => rfl
  | succ n ih =>
    rw [lineStarts, count_take_succ]
    split
    · rw [List.length_cons, ih]
    · rw [ih]

/-- The last line to begin up to an offset is the line of that offset. -/
theorem head_lineStarts (offset : Nat) :
    (lineStarts source offset).headD 0 = lineStart source offset := by
  induction offset with
  | zero => rfl
  | succ n ih =>
    rw [lineStarts, lineStart]
    split
    · rfl
    · exact ih

/-- Of the lines that begin up to one offset, those up to an earlier one are the last in the list.
-/
theorem dropWhile_lineStarts {offset stop : Nat} (h : offset ≤ stop) :
    (lineStarts source stop).dropWhile (offset < ·) = lineStarts source offset := by
  induction stop with
  | zero =>
    obtain rfl : offset = 0 := by omega
    rfl
  | succ n ih =>
    rcases Nat.lt_or_eq_of_le h with hlt | rfl
    · -- What begins behind the offset is dropped, and the rest is the list one byte earlier.
      have hn := ih (by omega)
      rw [lineStarts]
      split
      · rw [List.dropWhile_cons_of_pos (by simpa using hlt), hn]
      · exact hn
    · -- Nothing in the list lies behind the offset, so nothing is dropped.
      rcases hl : lineStarts source (n + 1) with _ | ⟨start, starts⟩
      · rfl
      · have hmem : start ∈ lineStarts source (n + 1) := by
          rw [hl]
          exact List.mem_cons_self
        have hle := le_of_mem_lineStarts hmem
        rw [List.dropWhile_cons_of_neg (by simpa using hle)]

/-- No line begins in a stretch behind bytes that are no newlines. -/
theorem lineStarts_of_no_newline {offset n : Nat}
    (h : ∀ i, offset ≤ i → i < offset + n → source[i]? ≠ some 0x0A) :
    lineStarts source (offset + n) = lineStarts source offset := by
  induction n with
  | zero => rfl
  | succ n ih =>
    rw [← Nat.add_assoc, lineStarts, if_neg (h (offset + n) (by omega) (by omega))]
    exact ih fun i hi hlt => h i hi (by omega)

/-- Looking through a stretch adds the lines that begin in it. -/
theorem startsIn_eq {offset n : Nat} (h : offset + n ≤ source.length) :
    startsIn offset ((source.take (offset + n)).drop offset) (lineStarts source offset) =
      lineStarts source (offset + n) := by
  induction n generalizing offset with
  | zero => rw [Nat.add_zero, List.drop_eq_nil_iff.mpr (List.length_take_le _ _), startsIn]
  | succ n ih =>
    have hlt : offset < (source.take (offset + (n + 1))).length := by
      rw [List.length_take]
      omega
    -- The first byte of the stretch adds a start exactly if it is a newline.
    have hoff : offset < source.length := by omega
    have hstarts : lineStarts source (offset + 1) =
        if source[offset] = 0x0A then (offset + 1) :: lineStarts source offset
        else lineStarts source offset := by
      rw [lineStarts, List.getElem?_eq_getElem hoff]
      simp only [Option.some_inj]
    have hrest := @ih (offset + 1) (by omega)
    rw [List.drop_eq_getElem_cons hlt, List.getElem_take, startsIn, ← hstarts]
    rwa [Nat.add_right_comm offset 1 n, Nat.add_assoc offset n 1] at hrest

/-! ## Keeping an index -/

/-- Before anything is read, the index knows the source up to its start. -/
theorem initial_knows (source : Bytes) : initial.Knows source :=
  ⟨rfl, Nat.zero_le _⟩

/-- The index keeps its knowledge when the rune at an offset within the frontier is read. -/
theorem Knows.record {lines : LineIndex} (h : lines.Knows source) {offset : Nat}
    (hle : offset ≤ lines.frontier) (hlt : offset < source.length) :
    (lines.record (Rune.decodeAt source offset).1
      (offset + (Rune.decodeAt source offset).2)).Knows source := by
  rw [LineIndex.record]
  split
  · rename_i hnew
    refine ⟨?_, decodeAt_width_le (Nat.le_of_lt hlt)⟩
    simp only
    rcases hnl : (Rune.decodeAt source offset).1.is '\n' with _ | _
    · obtain ⟨k, hk⟩ := Nat.exists_eq_add_of_le (Nat.le_of_lt hnew)
      rw [if_neg (by decide), h.starts_eq, hk]
      refine (lineStarts_of_no_newline fun i hi hi' => ?_).symm
      exact no_newline_of_width hnl i (by omega) (by omega)
    · -- A newline is one byte, so the frontier lies right before it.
      have hw := width_of_newline hnl
      obtain hf : lines.frontier = offset := by omega
      rw [if_pos rfl, h.starts_eq, hf, hw, lineStarts,
        if_pos ((decodeAt_newline_iff source offset).mp hnl)]
  · exact h

/-- Within the frontier or not, a rune that is read is behind the frontier afterwards. -/
theorem le_frontier_record (lines : LineIndex) (r : Rune) (stop : Nat) :
    stop ≤ (lines.record r stop).frontier := by
  rw [record]
  split
  · exact Nat.le_refl _
  · omega

/-- The index keeps its knowledge when the source is looked through. -/
theorem Knows.discover {lines : LineIndex} (h : lines.Knows source) {stop : Nat}
    (hstop : stop ≤ source.length) : (lines.discover source stop).Knows source := by
  rw [LineIndex.discover]
  split
  · rename_i hnew
    obtain ⟨k, rfl⟩ := Nat.exists_eq_add_of_le (Nat.le_of_lt hnew)
    refine ⟨?_, hstop⟩
    simp only
    rw [h.starts_eq, startsIn_eq hstop]
  · exact h

/-- What has been looked through lies within the frontier. -/
theorem le_frontier_discover (lines : LineIndex) (source : Bytes) (stop : Nat) :
    stop ≤ (lines.discover source stop).frontier := by
  rw [discover]
  split
  · exact Nat.le_refl _
  · omega

/-- What an index finds within its frontier, be it at a boundary or not: the line by the newlines
before the offset, and the column by the runes since the start of the line. -/
theorem Knows.locate_of_le {lines : LineIndex} (h : lines.Knows source) {offset : Nat}
    (hle : offset ≤ lines.frontier) :
    lines.locate source offset = ⟨(source.take offset).count 0x0A + 1,
      Rune.countRunes ((source.take offset).drop (lineStart source offset)) + 1, offset⟩ := by
  rw [locate, h.starts_eq, dropWhile_lineStarts hle, head_lineStarts, length_lineStarts]

/-- The column that an index finds counts no more than the bytes before the offset. -/
theorem locate_column_le (lines : LineIndex) (source : Bytes) (offset : Nat) :
    (lines.locate source offset).column ≤ offset + 1 := by
  refine Nat.succ_le_succ (Nat.le_trans (Rune.countRunes_le_length _) ?_)
  rw [List.length_drop]
  exact Nat.le_trans (Nat.sub_le _ _) (List.length_take_le _ _)

/-- The position that an index finds for a boundary within its frontier is that of the offset. -/
theorem Knows.locate_eq {lines : LineIndex} (h : lines.Knows source) {offset : Nat}
    (hb : Boundary source offset) (hle : offset ≤ lines.frontier) :
    lines.locate source offset = Position.ofOffset source offset := by
  obtain ⟨n, hn⟩ := hb.lineStart.walk_of_le hb (lineStart_le source offset)
  rw [h.locate_of_le hle, hn.countRunes_eq, Position.ofOffset, hn.runesBetween_eq]

end LineIndex

end SqlTokens
