import SqlTokens.Proofs.Rewinds

/-!
# Counting runes

A text has as many runes as a reader takes steps from its start to its end: each step takes one away
from the count of what lies ahead (`Reader.countRunes_forward`). Where the walk through a source
comes to, the source may be cut in two, and the runes of the parts are those of the whole
(`Walk.countRunes_drop`), although each part is read as a text of its own. In front of the cut every
rune is read from its own bytes and every malformed byte stays malformed (`Rune.decode_take`), and
behind it a byte-order mark has its width, whether or not it stands at the start. The same runes are
counted by indices, with ASCII bytes not read at all (`Rune.countFrom_eq`).
-/

namespace SqlTokens

namespace Rune

/-- How far the first rune of a text reaches. An ASCII byte is told apart without being read. -/
def stride : Bytes → Nat
  | [] => 0
  | b :: rest => if b < 0x80 then 1 else (decode (b :: rest)).2

/-- It reaches as far as it is wide. -/
theorem stride_eq (bytes : Bytes) : stride bytes = (decode bytes).2 := by
  rcases bytes with _ | ⟨b, rest⟩
  · rfl
  · rw [stride]
    split
    · rename_i hascii
      exact (decode_width_ascii hascii rest).symm
    · rfl

/-- The number of runes of a text from an index on. -/
def countFrom (bytes : Bytes) (i : Nat) : Nat :=
  if i < bytes.length then countFrom bytes (i + stride (bytes.drop i)) + 1 else 0
termination_by bytes.length - i
decreasing_by
  rename_i h
  have hne : bytes.drop i ≠ [] := by simpa using h
  have hpos := decode_width_pos hne
  rw [← stride_eq] at hpos
  omega

/-- Only the empty text has no runes. -/
theorem countRunes_pos_iff {bytes : Bytes} : 0 < countRunes bytes ↔ bytes ≠ [] := by
  constructor
  · rintro hpos rfl
    rw [countRunes_nil] at hpos
    exact Nat.lt_irrefl 0 hpos
  · intro h
    rw [countRunes_of_ne_nil h]
    exact Nat.succ_pos _

/-- Counting by indices, with ASCII bytes not read, counts the runes. -/
theorem countFrom_eq (bytes : Bytes) (i : Nat) : countFrom bytes i = countRunes (bytes.drop i) := by
  fun_induction countFrom bytes i with
  | case1 i h ih =>
    have hne : bytes.drop i ≠ [] := by simpa using h
    rw [ih, stride_eq, countRunes_of_ne_nil hne, List.drop_drop]
  | case2 i h => rw [List.drop_eq_nil_iff.mpr (Nat.not_lt.mp h), countRunes_nil]

end Rune

/-- From one end of a walk there are the runes of the walk and those from its other end. -/
theorem Walk.countRunes_drop {source : Bytes} {first n last : Nat}
    (h : Walk source first n last) :
    Rune.countRunes (source.drop first) = n + Rune.countRunes (source.drop last) := by
  induction n generalizing first with
  | zero =>
    rcases h with _ | _
    rw [Nat.zero_add]
  | succ n ih =>
    obtain ⟨hlt, hrest⟩ := h.uncons
    have hcount := ih hrest
    have hne : source.drop first ≠ [] := by simpa using hlt
    rw [Rune.decodeAt, Rune.decodeFrom_width] at hcount
    rw [Rune.countRunes_of_ne_nil hne, List.drop_drop, hcount, Nat.succ_add]

namespace Reader

/-! ## The steps of a reader -/

/-- A step takes one away from the count of what lies ahead, and at the end nothing is left. -/
theorem countRunes_advance (r : Reader) :
    Rune.countRunes r.advance.cursor.ahead = Rune.countRunes r.cursor.ahead - 1 := by
  rcases hend : r.atEnd with _ | _
  · have hne : r.cursor.ahead ≠ [] := fun hnil =>
      Bool.eq_false_iff.mp hend (Cursor.atEnd_iff_ahead.mpr hnil)
    rw [cursor_advance, Cursor.ahead_advance, Cursor.width_eq, Rune.countRunes_of_ne_nil hne,
      Nat.add_sub_cancel]
  · rw [advance, if_pos hend, Cursor.atEnd_iff_ahead.mp hend, Rune.countRunes_nil]

/-- So do several steps, each of them one. -/
theorem countRunes_forward (r : Reader) (n : Nat) :
    Rune.countRunes (r.forward n).cursor.ahead = Rune.countRunes r.cursor.ahead - n := by
  induction n with
  | zero => rfl
  | succ n ih => rw [forward, countRunes_advance, ih, Nat.sub_sub]

/-- Behind a number of steps there is another one to take exactly if the runes ahead were more. -/
theorem atEnd_forward_iff (r : Reader) (n : Nat) :
    (r.forward n).atEnd = false ↔ n < Rune.countRunes r.cursor.ahead := by
  calc (r.forward n).atEnd = false
      ↔ (r.forward n).cursor.ahead ≠ [] :=
        Bool.eq_false_iff.trans (not_congr Cursor.atEnd_iff_ahead)
    _ ↔ 0 < Rune.countRunes (r.forward n).cursor.ahead := Rune.countRunes_pos_iff.symm
    _ ↔ n < Rune.countRunes r.cursor.ahead := by
        rw [countRunes_forward]
        exact Nat.sub_pos_iff_lt

/-- As many runes can be read as there are ahead. -/
theorem reads_iff {r : Reader} {n : Nat} : r.Reads n ↔ n ≤ Rune.countRunes r.cursor.ahead := by
  constructor
  · intro h
    by_contra hlt
    have hend := h _ (Nat.not_le.mp hlt)
    exact Nat.lt_irrefl _ ((r.atEnd_forward_iff _).mp hend)
  · exact fun hle k hk => (r.atEnd_forward_iff k).mpr (Nat.lt_of_lt_of_le hk hle)

/-- A reader that reads on walks through its source. -/
theorem walk_forward {r : Reader} {n : Nat} (h : r.Reads n) :
    Walk r.source r.offset n (r.forward n).offset := by
  induction n with
  | zero => exact .stay
  | succ n ih =>
    have hend := h n n.lt_succ_self
    have hwalk := ih fun k hk => h k (Nat.lt_succ_of_lt hk)
    have hlt := offset_lt hend
    rw [forward, offset_advance hend, source_forward]
    rw [source_forward] at hlt
    exact hwalk.step hlt

/-- Runes are counted as a reader steps over them, and cutting a source where the reader comes to
keeps the count. Of the steps from the start of a source those succeed whose number, from 0 on, is
below the count of its runes. Where so many steps lead, the source up to there has as many runes,
and the count of the whole is that of both parts, each read as a text of its own. The runes are also
those that are counted by indices, with ASCII bytes not read. In a source whose length leaves room
for one more count no position on the way leaves its width. -/
theorem start_steps (source : Bytes) :
    (∀ i, Rune.countFrom source i = Rune.countRunes (source.drop i)) ∧
      (∀ n, ((start source).forward n).atEnd = false ↔ n < Rune.countRunes source) ∧
      (∀ n ≤ Rune.countRunes source, ∀ k, ((start source).forward n).offset = k →
        Rune.countRunes (source.take k) = n ∧
        Rune.countRunes source =
          Rune.countRunes (source.take k) + Rune.countRunes (source.drop k)) ∧
      (source.length + 1 < countBound → ∀ n, ((start source).forward n).pos.Fits) := by
  refine ⟨Rune.countFrom_eq source, (start source).atEnd_forward_iff, ?_, fun hlen n => ?_⟩
  · rintro n hn k rfl
    have hwalk : Walk source 0 n ((start source).forward n).offset :=
      walk_forward ((reads_iff (r := start source)).mpr hn)
    -- The runes before the cut are those of the walk, and the others are ahead.
    have hbefore := hwalk.countRunes_eq
    have hwhole := hwalk.countRunes_drop
    rw [List.drop_zero] at hbefore hwhole
    exact ⟨hbefore, by rw [hbefore, hwhole]⟩
  · refine ((start_tracks source).forward n).fits ?_
    rwa [source_forward]

/-- Three steps lead over a letter, a byte-order mark and the first byte of a sequence that is cut
short. In front of that place the sequence is cut once more, and behind it its second byte stands
alone. -/
theorem start_steps_cut :
    ([0x61, 0xEF, 0xBB, 0xBF, 0xE2, 0x82, 0x62] : Bytes).length + 1 < countBound ∧
      3 ≤ Rune.countRunes [0x61, 0xEF, 0xBB, 0xBF, 0xE2, 0x82, 0x62] ∧
      ((start [0x61, 0xEF, 0xBB, 0xBF, 0xE2, 0x82, 0x62]).forward 3).offset = 5 ∧
      Rune.countRunes [0x61, 0xEF, 0xBB, 0xBF, 0xE2] = 3 ∧
      Rune.countRunes [0x61, 0xEF, 0xBB, 0xBF, 0xE2, 0x82, 0x62] =
        Rune.countRunes [0x61, 0xEF, 0xBB, 0xBF, 0xE2] + Rune.countRunes [0x82, 0x62] ∧
      ((start [0x61, 0xEF, 0xBB, 0xBF, 0xE2, 0x82, 0x62]).forward 3).pos.Fits := by
  have hlen : ([0x61, 0xEF, 0xBB, 0xBF, 0xE2, 0x82, 0x62] : Bytes).length + 1 < countBound := by
    decide
  obtain ⟨-, hsteps, hcut, hfits⟩ := start_steps [0x61, 0xEF, 0xBB, 0xBF, 0xE2, 0x82, 0x62]
  have hcount : 2 < Rune.countRunes [0x61, 0xEF, 0xBB, 0xBF, 0xE2, 0x82, 0x62] :=
    (hsteps 2).mp (by decide)
  have hoffset : ((start [0x61, 0xEF, 0xBB, 0xBF, 0xE2, 0x82, 0x62]).forward 3).offset = 5 := by
    decide
  obtain ⟨hbefore, hboth⟩ := hcut 3 hcount 5 hoffset
  exact ⟨hlen, hcount, hoffset, hbefore, hboth, hfits hlen 3⟩

end Reader

end SqlTokens
