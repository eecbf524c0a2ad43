import SqlTokens.Proofs.Rewinds

/-!
# Looking and moving ahead by bytes

The byte some places ahead of a reader is one of its source, and a move by a number of bytes reads
whole runes up to the first place where that many have been read (`Covers`). The loop of the move
reads one rune after another, so what it covers from a reader on is that rune and what it covers
from the next reader on (`Covers.cons`). Both calls add the number to the offset first, and so they
keep their promise exactly if the sum keeps to the width of offsets (`run_ahead`).
-/

namespace SqlTokens

namespace Reader

/-- Whether a reader stands where another comes to that reads whole runes, with the given widths and
the latest first, up to an offset. -/
structure Covers (r : Reader) (stop : Nat) (widths : List Nat) (next : Reader) : Prop where
  /-- The reader has read one rune for each width. -/
  next_eq : next = r.forward widths.length
  /-- The widths are those of the runes. -/
  trail : Trail r.source r.offset widths next.offset
  /-- The history has heard of each of them. -/
  history_eq : next.history = widths ++ r.history
  /-- Before each of the runes the offset is not reached. -/
  before : ∀ k < widths.length, (r.forward k).offset < stop
  /-- Behind the last of them it is, or nothing is left. -/
  enough : stop ≤ next.offset ∨ next.atEnd = true

section Covers

variable {r next : Reader} {stop : Nat} {widths : List Nat}

/-- A reader that has come far enough covers the way without reading. -/
theorem covers_nil (h : stop ≤ r.offset ∨ r.atEnd = true) : r.Covers stop [] r :=
  ⟨rfl, rfl, rfl, fun _ hk => absurd hk (Nat.not_lt_zero _), h⟩

/-- A reader that has to read covers the way with the next rune and what is covered behind it. -/
theorem Covers.cons (hend : r.atEnd = false) (hlt : r.offset < stop)
    (h : r.advance.Covers stop widths next) :
    r.Covers stop (widths ++ [(Rune.decodeAt r.source r.offset).2]) next := by
  obtain ⟨hnext, htrail, hhistory, hbefore, henough⟩ := h
  have hlength : (widths ++ [(Rune.decodeAt r.source r.offset).2]).length = widths.length + 1 := by
    rw [List.length_append, List.length_singleton]
  refine ⟨?_, ?_, ?_, ?_, henough⟩
  · rw [hnext, forward_advance, hlength]
  · -- The first rune is a trail of its own.
    rw [source_advance, offset_advance hend] at htrail
    exact Trail.trans ⟨r.offset, rfl, offset_lt hend, rfl, rfl⟩ htrail
  · rw [hhistory, history_advance hend, List.append_assoc, List.singleton_append]
  · intro k hk
    rw [hlength] at hk
    rcases k with _ | k
    · exact hlt
    · rw [← forward_advance]
      exact hbefore k (Nat.lt_of_succ_lt_succ hk)

/-- Reading up to an offset covers the way to it. -/
theorem advanceTo_covers (stop : Nat) (r : Reader) :
    ∃ widths, r.Covers stop widths (r.advanceTo stop) := by
  fun_induction advanceTo stop r with
  | case1 r hend => exact ⟨[], covers_nil (.inr hend)⟩
  | case2 r hend hlt ih =>
    obtain ⟨widths, h⟩ := ih
    exact ⟨_, h.cons (Bool.eq_false_iff.mpr hend) hlt⟩
  | case3 r hend hge => exact ⟨[], covers_nil (.inl (Nat.not_lt.mp hge))⟩

end Covers

/-- Both ways of going ahead by bytes keep their promise if the offset there keeps its width. -/
theorem ahead_of_lt {r : Reader} {n : Nat} (h : r.offset + n < offsetBound) :
    r.byteAhead n = .ok r.source[r.offset + n]? ∧
      ∃ next widths, r.advanceBytes n = .ok next ∧ r.Covers (r.offset + n) widths next := by
  have hsum : r.offsetAhead n = .ok (r.offset + n) := if_pos h
  obtain ⟨widths, hcovers⟩ := advanceTo_covers (r.offset + n) r
  rw [byteAhead, advanceBytes, hsum]
  exact ⟨rfl, _, widths, rfl, hcovers⟩

/-- Both fail if it does not. -/
theorem ahead_of_le {r : Reader} {n : Nat} (h : offsetBound ≤ r.offset + n) :
    r.byteAhead n = .error .above ∧ r.advanceBytes n = .error .above := by
  have hsum : r.offsetAhead n = .error .above := if_neg (Nat.not_lt.mpr h)
  rw [byteAhead, advanceBytes, hsum]
  exact ⟨rfl, rfl⟩

/-- Whatever a reader has done before, the byte `n` places ahead of it is found if there is one, and
a move by `n` bytes reads rune by rune up to the first place where as many have been read, or up to
the end: both exactly if the sum of the offset and `n` keeps its width. Else both fail with an
overflow. In a source whose length leaves room for one more count nothing else on the way leaves its
width. -/
theorem run_ahead (source : Bytes) (ops : List Op) (r : Reader) (last : Position)
    (hrun : run ops (start source) .start = .ok (r, last)) (n : Nat) :
    (r.byteAhead n = .ok source[r.offset + n]? ↔ r.offset + n < offsetBound) ∧
      ((∃ next widths, r.advanceBytes n = .ok next ∧ r.Covers (r.offset + n) widths next) ↔
        r.offset + n < offsetBound) ∧
      (offsetBound ≤ r.offset + n →
        r.byteAhead n = .error .above ∧ r.advanceBytes n = .error .above) ∧
      (source.length + 1 < countBound → ∀ k, (r.forward k).pos.Fits) := by
  obtain ⟨htracks, hsource⟩ := run_tracks (start_tracks source) hrun
  have hsource : r.source = source := hsource
  refine ⟨⟨fun hbyte => ?_, fun h => ?_⟩, ⟨?_, fun h => ?_⟩, ahead_of_le, fun hlen k => ?_⟩
  · by_contra hge
    rw [(ahead_of_le (Nat.not_lt.mp hge)).1] at hbyte
    cases hbyte
  · rw [← hsource]
    exact (ahead_of_lt h).1
  · rintro ⟨next, widths, hmove, -⟩
    by_contra hge
    rw [(ahead_of_le (Nat.not_lt.mp hge)).2] at hmove
    cases hmove
  · exact (ahead_of_lt h).2
  · rw [← hsource, ← source_forward r k] at hlen
    exact (htracks.forward k).fits hlen

/-- Three bytes ahead of the second of these characters stands the second byte of the third, and a
move by three bytes reads that character to its end. -/
theorem run_ahead_whole :
    ∃ r last, run [.advance] (start [0x61, 0xC3, 0xA9, 0xF0, 0x9F, 0x98, 0x80, 0x62]) .start =
        .ok (r, last) ∧ r.byteAhead 3 = .ok (some 0x9F) ∧
      ∃ next widths, r.advanceBytes 3 = .ok next ∧ r.Covers 4 widths next ∧ next.offset = 7 := by
  have hrun : run [.advance] (start [0x61, 0xC3, 0xA9, 0xF0, 0x9F, 0x98, 0x80, 0x62]) .start =
      .ok ((start [0x61, 0xC3, 0xA9, 0xF0, 0x9F, 0x98, 0x80, 0x62]).advance, .start) := rfl
  obtain ⟨hbyte, hmove, -⟩ := run_ahead _ _ _ _ hrun 3
  obtain ⟨next, widths, hnext, hcovers⟩ := hmove.mpr (by decide)
  refine ⟨_, _, hrun, hbyte.mpr (by decide), next, widths, hnext, hcovers, ?_⟩
  rw [← Except.ok.inj hnext]
  decide +kernel

/-- Behind the first byte of a source the greatest number is too many for either call. -/
theorem run_ahead_overflow :
    ∃ r last, run [.advance] (start [0x61]) .start = .ok (r, last) ∧
      ([0x61] : Bytes)[r.offset + (offsetBound - 1)]? = none ∧
      r.byteAhead (offsetBound - 1) = .error .above ∧
      r.advanceBytes (offsetBound - 1) = .error .above := by
  refine ⟨(start [0x61]).advance, .start, rfl, ?_, ?_⟩
  · exact List.getElem?_eq_none (by decide)
  · exact ahead_of_le (by decide)

end Reader

end SqlTokens
