import Mathlib.Algebra.GroupWithZero.Nat
import SqlTokens.Proofs.Copies
import SqlTokens.Proofs.Rewinds

/-!
# The starts of lines in order

An index of lines holds its starts the latest first. In the order of the source they are 0 and the
offsets right behind the newlines before the frontier, each of them once (`Knows.ascending_eq`), and
so they increase (`Knows.ascending_pairwise`). A line is looked up in them as in an array: its
number is how many of them do not lie behind the offset, and its text is a slice of the source.
`locate?` and `discover?` are the look-ups with every index and every slice checked. Within the
frontier no check fails (`Knows.locate?_eq`), nor does one on the way to a byte of the source
(`Knows.discover?_eq`). Every reader keeps such an index, wherever its jumps go
(`Reader.run_lines`).
-/

namespace SqlTokens

namespace LineIndex

/-- The starts of the known lines in the order of the source. -/
def ascending (lines : LineIndex) : List Nat := lines.starts.reverse

/-- A count in its width, in which the greatest value stands for every count that is greater. -/
def saturate (n : Nat) : Nat := min n (countBound - 1)

/-- A count that keeps to its width is kept as it is. -/
theorem saturate_of_lt {n : Nat} (h : n < countBound) : saturate n = n :=
  Nat.min_eq_left (Nat.le_sub_one_of_lt h)

/-- The position of an offset, like `locate`, with the place of the line among the starts and the
slice of its text checked; none if one of them is out of range. -/
def locate? (lines : LineIndex) (source : Bytes) (offset : Nat) : Option Position :=
  -- The offset belongs to the last of the lines that do not start behind it.
  let index := (lines.ascending.takeWhile (· ≤ offset)).length - 1
  lines.ascending[index]?.bind fun start =>
    (slice? source start offset).map fun line =>
      ⟨saturate (index + 1), saturate (Rune.countRunes line + 1), offset⟩

/-- The index after the source has been looked through up to an offset, like `discover`, with the
slice checked. The new frontier is the offset of the position that is looked up there. -/
def discover? (lines : LineIndex) (source : Bytes) (stop : Nat) : Option LineIndex :=
  if lines.frontier < stop then
    (slice? source lines.frontier stop).bind fun span =>
      let starts := startsIn lines.frontier span lines.starts
      (locate? ⟨starts, lines.frontier⟩ source stop).map fun pos => ⟨starts, pos.offset⟩
  else some lines

/-! ## The order of the starts -/

variable {source : Bytes}

/-- The first line starts at 0, and every other one right behind a newline. -/
theorem reverse_lineStarts (source : Bytes) (n : Nat) :
    (lineStarts source n).reverse =
      0 :: ((List.range n).filter fun i => source[i]? = some 0x0A).map (· + 1) := by
  induction n with
  | zero => rfl
  | succ n ih =>
    rw [lineStarts, List.range_succ, List.filter_append, List.map_append, ← List.cons_append, ← ih]
    split
    · rename_i hnl
      rw [List.reverse_cons, List.filter_cons_of_pos (by simpa using hnl), List.filter_nil,
        List.map_singleton]
    · rename_i hnl
      rw [List.filter_cons_of_neg (by simpa using hnl), List.filter_nil, List.map_nil,
        List.append_nil]

/-- Of the lines that begin up to one offset, those up to an earlier one come first. -/
theorem takeWhile_reverse_lineStarts {offset stop : Nat} (h : offset ≤ stop) :
    (lineStarts source stop).reverse.takeWhile (· ≤ offset) =
      (lineStarts source offset).reverse := by
  have hsplit := List.takeWhile_append_dropWhile (p := (offset < ·)) (l := lineStarts source stop)
  rw [dropWhile_lineStarts h] at hsplit
  -- The latest lines are those behind the offset, and in the order of the source they come last.
  have hlater : ((lineStarts source stop).takeWhile (offset < ·)).reverse.takeWhile (· ≤ offset) =
      [] := by
    rcases hl : ((lineStarts source stop).takeWhile (offset < ·)).reverse with _ | ⟨start, starts⟩
    · rfl
    · have hmem : start ∈ (lineStarts source stop).takeWhile (offset < ·) := by
        rw [← List.mem_reverse, hl]
        exact List.mem_cons_self
      have hlt : offset < start := by simpa using List.all_eq_true.mp List.all_takeWhile start hmem
      exact List.takeWhile_cons_of_neg (by simpa using hlt)
  rw [← hsplit, List.reverse_append, List.takeWhile_append_of_pos, hlater, List.append_nil]
  intro start hstart
  simpa using le_of_mem_lineStarts (List.mem_reverse.mp hstart)

/-- The last of the lines that begin up to an offset is the line of that offset. -/
theorem getLast?_reverse_lineStarts (offset : Nat) :
    (lineStarts source offset).reverse.getLast? = some (lineStart source offset) := by
  have hcount := @length_lineStarts source offset
  rw [List.getLast?_reverse, ← head_lineStarts]
  rcases hl : lineStarts source offset with _ | ⟨start, starts⟩
  · rw [hl] at hcount
    cases hcount
  · rfl

namespace Knows

variable {lines : LineIndex}

/-- The starts in an index are 0 and the offsets right behind the newlines before its frontier. -/
theorem ascending_eq (h : lines.Knows source) :
    lines.ascending =
      0 :: ((List.range lines.frontier).filter fun i => source[i]? = some 0x0A).map (· + 1) := by
  rw [ascending, h.starts_eq, reverse_lineStarts]

/-- The starts in an index increase. -/
theorem ascending_pairwise (h : lines.Knows source) : lines.ascending.Pairwise (· < ·) := by
  rw [h.ascending_eq, List.pairwise_cons]
  constructor
  · intro start hstart
    obtain ⟨i, -, rfl⟩ := List.mem_map.mp hstart
    exact Nat.succ_pos i
  · exact (List.pairwise_lt_range.filter _).map _ fun _ _ => Nat.succ_lt_succ

/-! ## Looking up lines -/

section lookup

variable {offset : Nat}

/-- Within the frontier, those of the starts that do not lie behind an offset are the lines that
begin up to there. -/
theorem takeWhile_ascending (h : lines.Knows source) (hle : offset ≤ lines.frontier) :
    lines.ascending.takeWhile (· ≤ offset) = (lineStarts source offset).reverse := by
  rw [ascending, h.starts_eq, takeWhile_reverse_lineStarts hle]

/-- Among the starts, the line of an offset stands behind as many others as there are newlines
before the offset. -/
theorem getElem?_ascending (h : lines.Knows source) (hle : offset ≤ lines.frontier) :
    lines.ascending[(source.take offset).count 0x0A]? = some (lineStart source offset) := by
  obtain ⟨later, hlater⟩ := List.takeWhile_prefix (· ≤ offset) (l := lines.ascending)
  rw [h.takeWhile_ascending hle] at hlater
  have hlength : (lineStarts source offset).reverse.length =
      (source.take offset).count 0x0A + 1 := by
    rw [List.length_reverse, length_lineStarts]
  have hlast := @getLast?_reverse_lineStarts source offset
  rw [List.getLast?_eq_getElem?, hlength, Nat.add_sub_cancel] at hlast
  rw [← hlater, List.getElem?_append_left (by rw [hlength]; exact Nat.lt_succ_self _), hlast]

/-- The position that is found within the frontier keeps to the widths of its counts, in a source
whose length leaves room for one more count. -/
theorem locate_fits (h : lines.Knows source) (hlen : source.length + 1 < countBound)
    (hle : offset ≤ lines.frontier) : (lines.locate source offset).Fits := by
  have hoffset := Nat.le_trans hle h.frontier_le
  have hcolumn := lines.locate_column_le source offset
  have hcount := count_take_le source offset
  rw [h.locate_of_le hle] at hcolumn ⊢
  simp only [Position.Fits, countBound, offsetBound] at hlen hcolumn ⊢
  omega

/-- Within the frontier every check of a look-up succeeds, in a source whose length leaves room for
one more count. -/
theorem locate?_eq (h : lines.Knows source) (hlen : source.length + 1 < countBound)
    (hle : offset ≤ lines.frontier) :
    lines.locate? source offset = some (lines.locate source offset) := by
  have hindex : (lines.ascending.takeWhile (· ≤ offset)).length - 1 =
      (source.take offset).count 0x0A := by
    rw [h.takeWhile_ascending hle, List.length_reverse, length_lineStarts, Nat.add_sub_cancel]
  have hslice : slice? source (lineStart source offset) offset =
      some ((source.take offset).drop (lineStart source offset)) :=
    if_pos ⟨lineStart_le source offset, Nat.le_trans hle h.frontier_le⟩
  -- Neither count comes to the greatest value.
  have hfits := h.locate_fits hlen hle
  rw [h.locate_of_le hle] at hfits ⊢
  obtain ⟨hline, hcolumn, -⟩ := hfits
  rw [locate?, hindex, h.getElem?_ascending hle, Option.bind_some, hslice, Option.map_some,
    saturate_of_lt hline, saturate_of_lt hcolumn]

end lookup

/-- Up to any offset of the source every check of the search for newlines succeeds, the look-up at
its end included. -/
theorem discover?_eq (h : lines.Knows source) (hlen : source.length + 1 < countBound) {stop : Nat}
    (hstop : stop ≤ source.length) :
    lines.discover? source stop = some (lines.discover source stop) := by
  rw [discover?]
  split
  · rename_i hnew
    have hslice : slice? source lines.frontier stop =
        some ((source.take stop).drop lines.frontier) :=
      if_pos ⟨Nat.le_of_lt hnew, hstop⟩
    have hknows := h.discover hstop
    have hlocate := hknows.locate?_eq hlen (le_frontier_discover lines source stop)
    rw [LineIndex.discover, if_pos hnew] at hlocate ⊢
    rw [hslice, Option.bind_some]
    -- The look-up asks for the starts alone, and they are the new ones.
    change (locate? ⟨_, stop⟩ source stop).map _ = _
    rw [hlocate]
    rfl
  · rename_i hold
    rw [LineIndex.discover, if_neg hold]

end Knows

end LineIndex

namespace Reader

/-- The widths of a trail add up to the way between its ends. -/
theorem Trail.add_sum {source : Bytes} {first last : Nat} {widths : List Nat}
    (h : Trail source first widths last) : first + widths.sum = last := by
  induction widths generalizing last with
  | nil => exact h.symm
  | cons width widths ih =>
    obtain ⟨before, hbefore, -, -, rfl⟩ := h
    have hsum := ih hbefore
    rw [List.sum_cons]
    omega

/-- The index of lines is exact. Take a source whose length leaves room for one more count and a
reader behind whatever operations, jumps between the bytes of a rune included. The reader stands
within its frontier and the frontier within the source. The starts that it knows increase, and they
are 0 and the offsets right behind the newlines before the frontier. The widths in the history add
up to no more than the offset, and the line is one more than the newlines before it. So each look-up
that the next operation makes is in range: the one of a step back, at an offset within the frontier,
and for a jump to a byte of the source the search for newlines up to there and the look-up behind
it. -/
theorem run_lines (source : Bytes) (hlen : source.length + 1 < countBound) (ops : List Op)
    (r : Reader) (last : Position) (hrun : run ops (start source) .start = .ok (r, last)) :
    r.offset ≤ r.lines.frontier ∧ r.lines.frontier ≤ source.length ∧
      r.lines.ascending.Pairwise (· < ·) ∧
      r.lines.ascending =
        0 :: ((List.range r.lines.frontier).filter fun i => source[i]? = some 0x0A).map (· + 1) ∧
      r.history.sum ≤ r.offset ∧
      r.pos.line = 1 + (source.take r.offset).count 0x0A ∧ r.pos.Fits ∧
      (∀ offset ≤ r.lines.frontier,
        r.lines.locate? source offset = some (r.lines.locate source offset)) ∧
      ∀ index < source.length,
        r.lines.discover? source index = some (r.lines.discover source index) ∧
        (r.lines.discover source index).locate? source index =
          some ((r.lines.discover source index).locate source index) := by
  obtain ⟨htracks, hsource⟩ := run_tracks (start_tracks source) hrun
  have hsource : r.source = source := hsource
  subst hsource
  refine ⟨htracks.within, htracks.known.frontier_le, htracks.known.ascending_pairwise,
    htracks.known.ascending_eq, ?_, ?_, htracks.fits hlen, fun offset hle => ?_,
    fun index hlt => ⟨?_, ?_⟩⟩
  · have hsum := htracks.trail.add_sum
    omega
  · rw [Nat.add_comm]
    exact htracks.line_eq
  · exact htracks.known.locate?_eq hlen hle
  · exact htracks.known.discover?_eq hlen (Nat.le_of_lt hlt)
  · exact (htracks.known.discover (Nat.le_of_lt hlt)).locate?_eq hlen
      (LineIndex.le_frontier_discover r.lines r.source index)

/-- A jump between the bytes of a character passes over the first newline. Read again from the
start, that newline is no news, and the character leads over the frontier to the second one. -/
theorem run_lines_inside :
    ([0x61, 0x0A, 0xF0, 0x9F, 0x98, 0x80, 0x0A, 0x62] : Bytes).length + 1 < countBound ∧
      ∃ r last, run [.seek 3, .advance, .seek 0, .advance, .advance, .advance, .advance]
          (start [0x61, 0x0A, 0xF0, 0x9F, 0x98, 0x80, 0x0A, 0x62]) .start = .ok (r, last) ∧
        r.lines.frontier = 7 ∧ r.lines.ascending = [0, 2, 7] ∧ r.history = [1, 4, 1, 1] ∧
        r.history.sum ≤ r.offset ∧ r.pos.line = 3 ∧
        r.lines.locate? [0x61, 0x0A, 0xF0, 0x9F, 0x98, 0x80, 0x0A, 0x62] 6 = some ⟨2, 2, 6⟩ := by
  have hlen : ([0x61, 0x0A, 0xF0, 0x9F, 0x98, 0x80, 0x0A, 0x62] : Bytes).length + 1 <
      countBound := by
    decide
  have hrun : run [.seek 3, .advance, .seek 0, .advance, .advance, .advance, .advance]
      (start [0x61, 0x0A, 0xF0, 0x9F, 0x98, 0x80, 0x0A, 0x62]) .start =
        .ok (⟨.place [0x61, 0x0A, 0xF0, 0x9F, 0x98, 0x80, 0x0A, 0x62] ⟨3, 1, 7⟩, [1, 4, 1, 1],
          ⟨[7, 2, 0], 7⟩⟩, ⟨1, 1, 0⟩) := by
    decide +kernel
  obtain ⟨-, -, -, hstarts, hsum, hline, -, hlocate, -⟩ := run_lines _ hlen _ _ _ hrun
  refine ⟨hlen, _, _, hrun, rfl, hstarts.trans (by decide), rfl, hsum, hline.trans (by decide), ?_⟩
  exact (hlocate 6 (by decide)).trans (by decide +kernel)

end Reader

end SqlTokens
