import SqlTokens.Position
import SqlTokens.Proofs.Runes

/-!
# Walks through a source

A walk goes from one offset of a source to another, rune by rune. The offsets that the walk from the
start comes to are the boundaries of the source, and every boundary has one position
(`Position.ofOffset`): its line counts the newlines before it, and its column the runes that a walk
from the start of that line meets. Stepping over a rune goes from the position of one boundary to
that of the next (`ofOffset_step`), and in a source that is not too long all of them keep to the
widths of their counts (`ofOffset_fits`). Two boundaries lie on one walk (`Walk.between`), so the
runes between them are the same however one comes to them. A walk may also start inside a rune; it
goes byte by byte then and meets the others at the end of that rune (`Walk.inside`), and at every
newline.
-/

namespace SqlTokens

/-! ## Runes and newlines at an offset -/

/-- Before the end of a source a rune takes at least one byte. -/
theorem decodeAt_width_pos {source : Bytes} {offset : Nat} (h : offset < source.length) :
    0 < (Rune.decodeAt source offset).2 := by
  rw [Rune.decodeAt, Rune.decodeFrom_width]
  apply Rune.decode_width_pos
  rw [Ne, List.drop_eq_nil_iff]
  omega

/-- A rune ends within its source. -/
theorem decodeAt_width_le {source : Bytes} {offset : Nat} (h : offset ≤ source.length) :
    offset + (Rune.decodeAt source offset).2 ≤ source.length := by
  have hle := Rune.decode_width_le (source.drop offset)
  rw [List.length_drop] at hle
  rw [Rune.decodeAt, Rune.decodeFrom_width]
  omega

/-- The rune at an offset is a newline exactly if the byte there is one. -/
theorem decodeAt_newline_iff (source : Bytes) (offset : Nat) :
    (Rune.decodeAt source offset).1.is '\n' = true ↔ source[offset]? = some 0x0A := by
  rw [Rune.decodeAt, Rune.decodeFrom_is_iff (by decide), List.head?_drop]
  rfl

/-- Among the bytes of a rune there is a newline only if that is the whole rune. -/
theorem decodeAt_width_of_newline {source : Bytes} {offset i : Nat} (hi : offset ≤ i)
    (hlt : i < offset + (Rune.decodeAt source offset).2) (h : source[i]? = some 0x0A) :
    i = offset ∧ (Rune.decodeAt source offset).2 = 1 := by
  rw [Rune.decodeAt, Rune.decodeFrom_width] at hlt ⊢
  -- The newline is one of the bytes of the rune, and an ASCII byte among those is all of them.
  have hmem : (0x0A : UInt8) ∈ (source.drop offset).take (Rune.decode (source.drop offset)).2 := by
    refine List.mem_iff_getElem?.mpr ⟨i - offset, ?_⟩
    rw [List.getElem?_take_of_lt (by omega), List.getElem?_drop, Nat.add_sub_cancel' hi, h]
  obtain ⟨-, hw⟩ := Rune.eq_head_of_mem_take (by decide) hmem
  exact ⟨by omega, hw⟩

/-- Inside a rune of a source each byte is read by itself. -/
theorem decodeAt_width_inside {source : Bytes} {offset i : Nat} (hi : offset < i)
    (hlt : i < offset + (Rune.decodeAt source offset).2) : (Rune.decodeAt source i).2 = 1 := by
  rw [Rune.decodeAt, Rune.decodeFrom_width] at hlt ⊢
  have hinside : (Rune.decode ((source.drop offset).drop (i - offset))).2 = 1 :=
    Rune.decode_width_inside (by omega) (by omega)
  rwa [List.drop_drop, Nat.add_sub_cancel' (Nat.le_of_lt hi)] at hinside

/-! ## Walks -/

/-- Whether a number of runes lead from one offset of a source to another. -/
inductive Walk (source : Bytes) (first : Nat) : Nat → Nat → Prop where
  /-- Without a rune the walk stays where it is. -/
  | stay : Walk source first 0 first
  /-- One more rune is read where the walk stands. -/
  | step {n last : Nat} : Walk source first n last → last < source.length →
      Walk source first (n + 1) (last + (Rune.decodeAt source last).2)

/-- An offset that the walk from the start of a source comes to. -/
def Boundary (source : Bytes) (offset : Nat) : Prop := ∃ n, Walk source 0 n offset

namespace Walk

variable {source : Bytes}

/-- A walk goes on by at least one byte a rune. -/
theorem add_le {first n last : Nat} (h : Walk source first n last) : first + n ≤ last := by
  induction h with
  | stay => exact Nat.le_refl _
  | step _ hlt ih =>
    have hpos := decodeAt_width_pos hlt
    omega

/-- A walk stays within its source. -/
theorem le_length {first n last : Nat} (h : Walk source first n last)
    (hfirst : first ≤ source.length) : last ≤ source.length := by
  induction h with
  | stay => exact hfirst
  | step _ hlt _ => exact decodeAt_width_le (Nat.le_of_lt hlt)

/-- Where one walk ends another may go on. -/
theorem trans {first n middle m last : Nat} (h : Walk source first n middle)
    (h' : Walk source middle m last) : Walk source first (n + m) last := by
  induction h' with
  | stay => exact h
  | step _ hlt ih => exact .step ih hlt

/-- The first rune of a walk, and the walk behind it. -/
theorem uncons {first n last : Nat} (h : Walk source first (n + 1) last) :
    first < source.length ∧ Walk source (first + (Rune.decodeAt source first).2) n last := by
  induction n generalizing last with
  | zero =>
    rcases h with _ | ⟨h0, hlt⟩
    rcases h0 with _ | _
    exact ⟨hlt, .stay⟩
  | succ n ih =>
    rcases h with _ | ⟨hn, hlt⟩
    obtain ⟨hfirst, hrest⟩ := ih hn
    exact ⟨hfirst, .step hrest hlt⟩

/-- Of two walks from one offset, the longer goes through the end of the shorter. -/
theorem between {first n middle m last : Nat} (h : Walk source first n middle)
    (h' : Walk source first m last) (hle : middle ≤ last) : ∃ k, Walk source middle k last := by
  induction n generalizing first m with
  | zero =>
    rcases h with _ | _
    exact ⟨m, h'⟩
  | succ n ih =>
    -- Both walks start with the same rune; without it they are two walks from the next offset.
    obtain ⟨hlt, hrest⟩ := h.uncons
    rcases m with _ | m
    · rcases h' with _ | _
      have hadd := h.add_le
      omega
    · exact ih hrest h'.uncons.2

end Walk

namespace Boundary

variable {source : Bytes}

/-- A walk starts at the start of a source. -/
theorem zero (source : Bytes) : Boundary source 0 := ⟨0, .stay⟩

/-- Behind a rune at a boundary there is the next boundary. -/
theorem next {offset : Nat} (h : Boundary source offset) (hlt : offset < source.length) :
    Boundary source (offset + (Rune.decodeAt source offset).2) := by
  obtain ⟨n, hn⟩ := h
  exact ⟨n + 1, .step hn hlt⟩

/-- A walk from a boundary ends at one. -/
theorem walk {first n last : Nat} (h : Boundary source first) (hw : Walk source first n last) :
    Boundary source last := by
  obtain ⟨m, hm⟩ := h
  exact ⟨m + n, hm.trans hw⟩

/-- A boundary lies within its source. -/
theorem le_length {offset : Nat} (h : Boundary source offset) : offset ≤ source.length := by
  obtain ⟨n, hn⟩ := h
  exact hn.le_length (Nat.zero_le _)

/-- Two boundaries lie on one walk. -/
theorem walk_of_le {first last : Nat} (h : Boundary source first) (h' : Boundary source last)
    (hle : first ≤ last) : ∃ n, Walk source first n last := by
  obtain ⟨n, hn⟩ := h
  obtain ⟨m, hm⟩ := h'
  exact hn.between hm hle

end Boundary

/-! ## Counting runes -/

/-- The number of runes that a walk from one offset meets before it comes to another. -/
def runesBetween (source : Bytes) (first last : Nat) : Nat :=
  if first < last ∧ first < source.length then
    runesBetween source (first + (Rune.decodeAt source first).2) last + 1
  else 0
termination_by source.length - first
decreasing_by
  rename_i h
  have := decodeAt_width_pos h.2
  omega

/-- Between the ends of a walk there are its runes. -/
theorem Walk.runesBetween_eq {source : Bytes} {first n last : Nat} (h : Walk source first n last) :
    runesBetween source first last = n := by
  induction n generalizing first with
  | zero =>
    rcases h with _ | _
    rw [runesBetween, if_neg (by omega)]
  | succ n ih =>
    obtain ⟨hlt, hrest⟩ := h.uncons
    have hadd := h.add_le
    rw [runesBetween, if_pos ⟨by omega, hlt⟩, ih hrest]

/-- The runes of a walk are those of the text between its ends, although that text is cut off where
the walk ends. -/
theorem Walk.countRunes_eq {source : Bytes} {first n last : Nat} (h : Walk source first n last) :
    Rune.countRunes ((source.take last).drop first) = n := by
  induction n generalizing first with
  | zero =>
    rcases h with _ | _
    rw [List.drop_eq_nil_iff.mpr (List.length_take_le _ _), Rune.countRunes_nil]
  | succ n ih =>
    obtain ⟨hlt, hrest⟩ := h.uncons
    have hadd := hrest.add_le
    have hpos := decodeAt_width_pos hlt
    -- The walk reads the first rune before it comes to the cut.
    have hcut : Rune.decode ((source.take last).drop first) = Rune.decode (source.drop first) := by
      rw [List.drop_take]
      apply Rune.decode_take
      rw [Rune.decodeAt, Rune.decodeFrom_width] at hadd
      omega
    have hne : (source.take last).drop first ≠ [] := by
      rw [Ne, List.drop_eq_nil_iff, List.length_take]
      omega
    rw [Rune.decodeAt, Rune.decodeFrom_width] at hrest
    rw [Rune.countRunes_of_ne_nil hne, hcut, List.drop_drop, ih hrest]

/-! ## Walks that meet -/

namespace Walk

variable {source : Bytes}

/-- From one offset to another there is one walk. -/
theorem unique {first n m last : Nat} (h : Walk source first n last)
    (h' : Walk source first m last) : n = m := by
  rw [← h.runesBetween_eq, h'.runesBetween_eq]

/-- Inside a rune a walk goes byte by byte up to its end. -/
theorem inside {offset i n : Nat} (hlt : offset < source.length) (hi : offset < i)
    (hn : i + n = offset + (Rune.decodeAt source offset).2) :
    Walk source i n (offset + (Rune.decodeAt source offset).2) := by
  have hle := decodeAt_width_le (Nat.le_of_lt hlt)
  have hbytes (k : Nat) (hk : k ≤ n) : Walk source i k (i + k) := by
    induction k with
    | zero => exact .stay
    | succ k ih =>
      have hstep := (ih (by omega)).step (show i + k < source.length by omega)
      have hend : i + k < offset + (Rune.decodeAt source offset).2 := by omega
      rwa [decodeAt_width_inside (show offset < i + k by omega) hend] at hstep
  have hall := hbytes n (Nat.le_refl n)
  rwa [hn] at hall

/-- Of two walks to one offset, the one that starts earlier has no more runes than the other has
with the bytes between their starts, even if the other starts inside a rune. -/
theorem le_add {first n start m last : Nat} (h : Walk source first n last)
    (h' : Walk source start m last) (hle : first ≤ start) : first + n ≤ start + m := by
  induction n generalizing first with
  | zero => omega
  | succ n ih =>
    obtain ⟨hlt, hrest⟩ := h.uncons
    have hpos := decodeAt_width_pos hlt
    rcases Nat.lt_or_ge start (first + (Rune.decodeAt source first).2) with hinside | hpast
    · rcases Nat.eq_or_lt_of_le hle with rfl | hbehind
      · exact Nat.le_of_eq (congrArg _ (h.unique h'))
      · -- The other goes on byte by byte, and from the end of the rune they are one walk.
        obtain ⟨k, hk⟩ := Nat.exists_eq_add_of_le (Nat.le_of_lt hinside)
        have hbytes := inside hlt hbehind hk.symm
        have hend : first + (Rune.decodeAt source first).2 ≤ last := by
          have := hrest.add_le
          omega
        obtain ⟨j, hj⟩ := hbytes.between h' hend
        have hall := (hbytes.trans hj).unique h'
        have hsame := hrest.unique hj
        omega
    · have hn := ih hrest hpast
      omega

end Walk

/-- A newline stands between two runes, wherever it is. -/
theorem boundary_of_newline {source : Bytes} {offset : Nat} (h : source[offset]? = some 0x0A) :
    Boundary source offset := by
  have hlt : offset < source.length := (List.getElem?_eq_some_iff.mp h).1
  -- The walk from the start cannot pass over it.
  have hreach (n : Nat) {before : Nat} (hn : before + n = offset) (hb : Boundary source before) :
      Boundary source offset := by
    induction n using Nat.strongRecOn generalizing before with
    | ind n ih =>
      rcases Nat.eq_zero_or_pos n with rfl | hpos
      · rwa [← hn]
      · have hbefore : before < source.length := by omega
        have hwidth := decodeAt_width_pos hbefore
        have hnext := hb.next hbefore
        have hle : before + (Rune.decodeAt source before).2 ≤ offset := by
          by_contra hover
          have hsame := (decodeAt_width_of_newline (show before ≤ offset by omega) (by omega) h).1
          omega
        obtain ⟨k, hk⟩ := Nat.exists_eq_add_of_le hle
        exact ih k (by omega) hk.symm hnext
  exact hreach offset (Nat.zero_add offset) (Boundary.zero source)

/-! ## Lines -/

/-- The offset at which the line of an offset starts. -/
def lineStart (source : Bytes) : Nat → Nat
  | 0 => 0
  | n + 1 => if source[n]? = some 0x0A then n + 1 else lineStart source n

/-- A line starts at or before each of its offsets. -/
theorem lineStart_le (source : Bytes) (offset : Nat) : lineStart source offset ≤ offset := by
  induction offset with
  | zero => exact Nat.le_refl _
  | succ n ih =>
    rw [lineStart]
    split <;> omega

/-- The newlines before an offset are those before the last byte, and that byte if it is one. -/
theorem count_take_succ (source : Bytes) (n : Nat) :
    (source.take (n + 1)).count 0x0A =
      (source.take n).count 0x0A + if source[n]? = some 0x0A then 1 else 0 := by
  rw [List.take_add_one, List.count_append]
  rcases source[n]? with _ | b
  · rfl
  · by_cases hb : b = 0x0A
    · rw [hb]
      rfl
    · rw [if_neg (by simpa using hb)]
      simp [hb]

/-- There are no more newlines before an offset than bytes. -/
theorem count_take_le (source : Bytes) (offset : Nat) :
    (source.take offset).count 0x0A ≤ min offset source.length := by
  calc (source.take offset).count 0x0A ≤ (source.take offset).length := List.count_le_length
    _ = min offset source.length := List.length_take

/-- A stretch without newline belongs to one line. -/
theorem line_of_no_newline {source : Bytes} {offset n : Nat}
    (h : ∀ i, offset ≤ i → i < offset + n → source[i]? ≠ some 0x0A) :
    lineStart source (offset + n) = lineStart source offset ∧
      (source.take (offset + n)).count 0x0A = (source.take offset).count 0x0A := by
  induction n with
  | zero => exact ⟨rfl, rfl⟩
  | succ n ih =>
    have hn := h (offset + n) (by omega) (by omega)
    obtain ⟨h1, h2⟩ := ih fun i hi hlt => h i hi (by omega)
    rw [← Nat.add_assoc, lineStart, if_neg hn, count_take_succ, if_neg hn]
    exact ⟨h1, h2⟩

/-- A rune that is no newline has no newline among its bytes. -/
theorem no_newline_of_width {source : Bytes} {offset : Nat}
    (h : (Rune.decodeAt source offset).1.is '\n' = false) :
    ∀ i, offset ≤ i → i < offset + (Rune.decodeAt source offset).2 →
      source[i]? ≠ some 0x0A := by
  intro i hi hlt hb
  obtain ⟨rfl, -⟩ := decodeAt_width_of_newline hi hlt hb
  rw [(decodeAt_newline_iff source i).mpr hb] at h
  cases h

/-- A newline is one byte. -/
theorem width_of_newline {source : Bytes} {offset : Nat}
    (h : (Rune.decodeAt source offset).1.is '\n' = true) :
    (Rune.decodeAt source offset).2 = 1 := by
  have hb := (decodeAt_newline_iff source offset).mp h
  have hlt : offset < source.length := (List.getElem?_eq_some_iff.mp hb).1
  have hpos := decodeAt_width_pos hlt
  exact (decodeAt_width_of_newline (Nat.le_refl _) (by omega) hb).2

/-- The line of a boundary starts at a boundary. -/
theorem Boundary.lineStart {source : Bytes} {offset : Nat} (h : Boundary source offset) :
    Boundary source (lineStart source offset) := by
  obtain ⟨n, hn⟩ := h
  induction n generalizing offset with
  | zero =>
    rcases hn with _ | _
    exact Boundary.zero source
  | succ n ih =>
    rcases hn with _ | ⟨hn, hlt⟩
    rename_i last
    rcases hnl : (Rune.decodeAt source last).1.is '\n' with _ | _
    · rw [(line_of_no_newline (no_newline_of_width hnl)).1]
      exact ih hn
    · -- Behind a newline the line starts at the boundary itself.
      rw [width_of_newline hnl, SqlTokens.lineStart,
        if_pos ((decodeAt_newline_iff source last).mp hnl), ← width_of_newline hnl]
      exact ⟨n + 1, .step hn hlt⟩

/-! ## Positions -/

/-- The position of an offset. -/
def Position.ofOffset (source : Bytes) (offset : Nat) : Position where
  line := (source.take offset).count 0x0A + 1
  column := runesBetween source (lineStart source offset) offset + 1
  offset := offset

namespace Position

/-- The position of the start of a source. -/
theorem ofOffset_zero (source : Bytes) : ofOffset source 0 = start := by
  rw [ofOffset, lineStart, Walk.stay.runesBetween_eq]
  simp [start]

/-- The position behind a rune at a boundary is that of the next boundary. -/
theorem ofOffset_step {source : Bytes} {offset : Nat} (h : Boundary source offset)
    (hlt : offset < source.length) :
    (ofOffset source offset).step (Rune.decodeAt source offset).1 (Rune.decodeAt source offset).2 =
      ofOffset source (offset + (Rune.decodeAt source offset).2) := by
  rcases hnl : (Rune.decodeAt source offset).1.is '\n' with _ | _
  · -- The line goes on, and the walk from its start is one rune longer.
    obtain ⟨h1, h2⟩ := line_of_no_newline (no_newline_of_width hnl)
    obtain ⟨n, hn⟩ := h.lineStart.walk_of_le h (lineStart_le source offset)
    rw [step, hnl, if_neg (by decide), ofOffset, ofOffset, h1, h2, hn.runesBetween_eq,
      (hn.step hlt).runesBetween_eq]
  · -- The next line starts right behind the newline.
    have hb := (decodeAt_newline_iff source offset).mp hnl
    rw [step, hnl, if_pos rfl, width_of_newline hnl, ofOffset, ofOffset, lineStart, if_pos hb,
      count_take_succ, if_pos hb, Walk.stay.runesBetween_eq]

/-- In a source whose length leaves room for one more count, every position of a boundary keeps to
the widths of its counts. -/
theorem ofOffset_fits {source : Bytes} {offset : Nat} (h : Boundary source offset)
    (hlen : source.length + 1 < countBound) : (ofOffset source offset).Fits := by
  have hle := h.le_length
  -- The column is at most the offset, since a walk takes at least a byte a rune.
  obtain ⟨n, hn⟩ := h.lineStart.walk_of_le h (lineStart_le source offset)
  have hadd := hn.add_le
  -- So is the line, since every newline is a byte before the offset.
  have hcount := count_take_le source offset
  rw [Fits, ofOffset, hn.runesBetween_eq]
  simp only [countBound, offsetBound] at hlen ⊢
  omega

end Position

end SqlTokens
