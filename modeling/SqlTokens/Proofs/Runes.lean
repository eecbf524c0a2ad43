import Mathlib.Data.List.Basic
import Mathlib.Tactic.SplitIfs
import SqlTokens.Rune.Codec

/-!
# The bytes of a rune

What reading one rune says about the bytes it takes. An ASCII byte is a rune by itself, and the
bytes of every longer rune lie above ASCII (`decode_high`), so a search for an ASCII byte and a
search for its rune find the same place (`decodeFrom_is_iff`, `eq_head_of_mem_take`). A rune is read
from its own bytes alone: `decode_take` cuts the text anywhere behind them and reads the same rune.
-/

namespace SqlTokens

namespace Utf8

/-- Every byte of a tail lies above ASCII. -/
theorem le_of_mem_tail {b x : UInt8} {lead : Lead} {rest : Bytes} (h : lead? b = some lead)
    (hx : x ∈ lead.tail rest) : 0x80 ≤ x := by
  have hlow : 0x80 ≤ lead.low := by
    unfold lead? at h
    repeat' split at h
    all_goals cases h <;> decide
  rcases rest with _ | ⟨c, rest⟩
  · simp [Lead.tail] at hx
  · simp only [Lead.tail] at hx
    split at hx
    · rename_i hc
      rcases List.mem_cons.mp hx with rfl | hx
      · exact UInt8.le_trans hlow hc.1
      · have htail := List.all_eq_true.mp List.all_takeWhile x hx
        simp only [isTail, Bool.and_eq_true, decide_eq_true_eq] at htail
        exact htail.1
    · simp at hx

/-- A tail is shorter than the sequence that it continues. -/
theorem length_tail_lt {b : UInt8} {lead : Lead} (h : lead? b = some lead) (rest : Bytes) :
    (lead.tail rest).length < lead.size := by
  have hsize := size_of_lead? h
  rcases rest with _ | ⟨c, rest⟩
  · simp only [Lead.tail, List.length_nil]
    omega
  · simp only [Lead.tail]
    split
    · have h1 := (List.takeWhile_prefix isTail (l := rest.take (lead.size - 2))).length_le
      have h2 := List.length_take_le (lead.size - 2) rest
      simp only [List.length_cons]
      omega
    · simp only [List.length_nil]
      omega

/-- Cutting a text cuts the tail at its start. -/
theorem tail_take (lead : Lead) (rest : Bytes) (n : Nat) :
    lead.tail (rest.take n) = (lead.tail rest).take n := by
  rcases rest with _ | ⟨c, rest⟩
  · simp [Lead.tail]
  · rcases n with _ | n
    · simp [Lead.tail]
    · simp only [List.take_succ_cons, Lead.tail]
      split
      · rw [List.take_succ_cons, List.take_takeWhile, List.take_take, List.take_take,
          Nat.min_comm]
      · rfl

/-- The first byte of a tail lies in the range of second bytes. -/
theorem mem_range_of_tail_eq_cons {lead : Lead} {rest tl : Bytes} {c : UInt8}
    (h : lead.tail rest = c :: tl) : lead.low ≤ c ∧ c ≤ lead.high := by
  rcases rest with _ | ⟨d, rest⟩
  · simp [Lead.tail] at h
  · simp only [Lead.tail] at h
    split at h
    · rename_i hd
      obtain ⟨rfl, -⟩ := List.cons.inj h
      exact hd
    · simp at h

/-- The bytes of a tail behind its first lie between `80` and `BF`. -/
theorem range_of_tail_eq_cons {lead : Lead} {rest tl : Bytes} {c : UInt8}
    (h : lead.tail rest = c :: tl) : ∀ x ∈ tl, 0x80 ≤ x.toNat ∧ x.toNat ≤ 0xBF := by
  intro x hx
  rcases rest with _ | ⟨d, rest⟩
  · simp [Lead.tail] at h
  · simp only [Lead.tail] at h
    split at h
    · obtain ⟨-, rfl⟩ := List.cons.inj h
      have htail := List.all_eq_true.mp List.all_takeWhile x hx
      simp only [isTail, Bool.and_eq_true, decide_eq_true_eq, UInt8.le_iff_toNat_le] at htail
      exact htail
    · simp at h

/-- A byte that continues a sequence opens none. -/
theorem lead?_of_mem_tail {b x : UInt8} {lead : Lead} {rest : Bytes} (h : lead? b = some lead)
    (hx : x ∈ lead.tail rest) : lead? x = none := by
  have hhigh : lead.high ≤ 0xBF := by
    unfold lead? at h
    repeat' split at h
    all_goals cases h <;> decide
  -- Whether it comes second or later, it lies below the bytes that open a sequence.
  have hle : x ≤ 0xBF := by
    rcases htail : lead.tail rest with _ | ⟨c, tl⟩
    · rw [htail] at hx
      cases hx
    · rw [htail] at hx
      rcases List.mem_cons.mp hx with rfl | hx
      · exact UInt8.le_trans (mem_range_of_tail_eq_cons htail).2 hhigh
      · exact UInt8.le_iff_toNat_le.mpr (range_of_tail_eq_cons htail x hx).2
  unfold lead?
  simp only [UInt8.le_iff_toNat_le, ← UInt8.toNat_inj, UInt8.toNat_ofNat] at hle ⊢
  repeat' rw [if_neg (by omega)]

/-- The number of a sequence of two bytes. -/
theorem codePoint_two (b c : UInt8) :
    codePoint 2 b [c] = b.toNat % 32 * 64 + c.toNat % 64 := rfl

/-- The number of a sequence of three bytes. -/
theorem codePoint_three (b c d : UInt8) :
    codePoint 3 b [c, d] = (b.toNat % 16 * 64 + c.toNat % 64) * 64 + d.toNat % 64 := rfl

/-- The number of a sequence of four bytes. -/
theorem codePoint_four (b c d e : UInt8) :
    codePoint 4 b [c, d, e] =
      ((b.toNat % 8 * 64 + c.toNat % 64) * 64 + d.toNat % 64) * 64 + e.toNat % 64 := rfl

/-- A complete sequence spells a number above ASCII. -/
theorem le_codePoint {b : UInt8} {lead : Lead} {rest : Bytes} (h : lead? b = some lead)
    (ht : (lead.tail rest).length + 1 = lead.size) :
    0x80 ≤ codePoint lead.size b (lead.tail rest) := by
  rcases hl : lead.tail rest with _ | ⟨c, tl⟩
  · have hsize := size_of_lead? h
    rw [hl, List.length_nil] at ht
    omega
  · obtain ⟨hlow, hhigh⟩ := mem_range_of_tail_eq_cons hl
    rw [hl, List.length_cons] at ht
    unfold lead? at h
    simp only [UInt8.le_iff_toNat_le, ← UInt8.toNat_inj, UInt8.toNat_ofNat] at h hlow hhigh
    -- The first byte bounds the number from below; behind `E0` and `F0` the second byte does.
    have two (hn : tl.length = 0) (hb : 2 ≤ b.toNat % 32) : 0x80 ≤ codePoint 2 b (c :: tl) := by
      rw [List.length_eq_zero_iff.mp hn, codePoint_two]
      omega
    have three (hn : tl.length = 1) (hb : 1 ≤ b.toNat % 16 ∨ 32 ≤ c.toNat % 64) :
        0x80 ≤ codePoint 3 b (c :: tl) := by
      obtain ⟨d, rfl⟩ := List.length_eq_one_iff.mp hn
      rw [codePoint_three]
      omega
    have four (hn : tl.length = 2) (hb : 1 ≤ b.toNat % 8 ∨ 16 ≤ c.toNat % 64) :
        0x80 ≤ codePoint 4 b (c :: tl) := by
      obtain ⟨d, e, rfl⟩ := List.length_eq_two.mp hn
      rw [codePoint_four]
      omega
    split_ifs at h <;> cases h <;> simp only [UInt8.toNat_ofNat] at hlow hhigh ht
    · exact two (by omega) (by omega)
    · exact three (by omega) (by omega)
    · exact three (by omega) (by omega)
    · exact three (by omega) (by omega)
    · exact four (by omega) (by omega)
    · exact four (by omega) (by omega)
    · exact four (by omega) (by omega)

/-- The one sequence that spells the byte-order mark. -/
theorem eq_of_codePoint_bom {b : UInt8} {lead : Lead} {rest : Bytes} (h : lead? b = some lead)
    (ht : (lead.tail rest).length + 1 = lead.size)
    (hbom : codePoint lead.size b (lead.tail rest) = 0xFEFF) :
    b :: lead.tail rest = [0xEF, 0xBB, 0xBF] := by
  rcases hl : lead.tail rest with _ | ⟨c, tl⟩
  · have hsize := size_of_lead? h
    rw [hl, List.length_nil] at ht
    omega
  · obtain ⟨hlow, hhigh⟩ := mem_range_of_tail_eq_cons hl
    have htail := range_of_tail_eq_cons hl
    rw [hl, List.length_cons] at ht
    rw [hl] at hbom
    unfold lead? at h
    simp only [UInt8.le_iff_toNat_le, ← UInt8.toNat_inj, UInt8.toNat_ofNat] at h hlow hhigh
    -- Two bytes spell too small a number and four bytes too great a one.
    have two (hn : tl.length = 0) (hb : codePoint 2 b (c :: tl) = 0xFEFF) : False := by
      rw [List.length_eq_zero_iff.mp hn, codePoint_two] at hb
      omega
    have three (hn : tl.length = 1) (hb : codePoint 3 b (c :: tl) = 0xFEFF)
        (hrange : 0xE0 ≤ b.toNat ∧ b.toNat ≤ 0xEF) (hc : 0x80 ≤ c.toNat ∧ c.toNat ≤ 0xBF) :
        b :: c :: tl = [0xEF, 0xBB, 0xBF] := by
      obtain ⟨d, rfl⟩ := List.length_eq_one_iff.mp hn
      have hd := htail d (List.mem_singleton_self d)
      rw [codePoint_three] at hb
      have h1 : b = 0xEF := UInt8.toNat_inj.mp (show b.toNat = 0xEF by omega)
      have h2 : c = 0xBB := UInt8.toNat_inj.mp (show c.toNat = 0xBB by omega)
      have h3 : d = 0xBF := UInt8.toNat_inj.mp (show d.toNat = 0xBF by omega)
      rw [h1, h2, h3]
    have four (hn : tl.length = 2) (hb : codePoint 4 b (c :: tl) = 0xFEFF)
        (hrange : 1 ≤ b.toNat % 8 ∨ 16 ≤ c.toNat % 64) : False := by
      obtain ⟨d, e, rfl⟩ := List.length_eq_two.mp hn
      rw [codePoint_four] at hb
      omega
    split_ifs at h <;> cases h <;> simp only [UInt8.toNat_ofNat] at hlow hhigh ht hbom
    · exact (two (by omega) hbom).elim
    · exact three (by omega) hbom (by omega) (by omega)
    · exact three (by omega) hbom (by omega) (by omega)
    · exact three (by omega) hbom (by omega) (by omega)
    · exact (four (by omega) hbom (by omega)).elim
    · exact (four (by omega) hbom (by omega)).elim
    · exact (four (by omega) hbom (by omega)).elim

end Utf8

namespace Rune

/-! ## Bytes and runes -/

/-- An ASCII byte other than NUL is a rune by itself. -/
theorem decode_ascii {b : UInt8} (h0 : b ≠ 0) (hb : b < 0x80) (rest : Bytes) :
    decode (b :: rest) = (ofByte b, 1) := by
  rw [decode, if_neg h0, if_pos hb]

/-- An ASCII byte takes up one rune. -/
theorem decode_width_ascii {b : UInt8} (hb : b < 0x80) (rest : Bytes) :
    (decode (b :: rest)).2 = 1 := by
  by_cases h0 : b = 0
  · rw [decode, if_pos h0]
  · rw [decode_ascii h0 hb]

/-- A byte above ASCII starts a rune above ASCII, all of whose bytes lie above ASCII. -/
theorem decode_high {b : UInt8} (hb : 0x80 ≤ b) (rest : Bytes) :
    0x80 ≤ (decode (b :: rest)).1.value ∧
      ∀ x ∈ (b :: rest).take (decode (b :: rest)).2, 0x80 ≤ x := by
  have hone : ∀ x ∈ (b :: rest).take 1, 0x80 ≤ x := by simpa using hb
  have hnul : ¬b = 0 := by
    intro h
    rw [h] at hb
    exact absurd hb (by decide)
  rw [decode, if_neg hnul, if_neg (UInt8.not_lt.mpr hb)]
  split
  · exact ⟨by decide, hone⟩
  · rename_i lead hl
    simp only
    split
    · -- A complete sequence is its first byte and its tail.
      rename_i ht
      refine ⟨Int.ofNat_le.mpr (Utf8.le_codePoint hl ht), fun x hx => ?_⟩
      rw [← ht, List.take_succ_cons,
        ← List.prefix_iff_eq_take.mp (Utf8.tail_isPrefix lead rest)] at hx
      rcases List.mem_cons.mp hx with rfl | hx
      · exact hb
      · exact Utf8.le_of_mem_tail hl hx
    · exact ⟨by decide, hone⟩

/-- An ASCII byte among those of a rune is all of them. -/
theorem eq_head_of_mem_take {bytes : Bytes} {x : UInt8} (hx : x < 0x80)
    (h : x ∈ bytes.take (decode bytes).2) : bytes.head? = some x ∧ (decode bytes).2 = 1 := by
  rcases bytes with _ | ⟨b, rest⟩
  · simp at h
  · rcases UInt8.lt_or_le b 0x80 with hb | hb
    · rw [decode_width_ascii hb] at h ⊢
      simp only [List.take_succ_cons, List.take_zero, List.mem_singleton] at h
      exact ⟨by rw [h, List.head?_cons], rfl⟩
    · exact absurd ((decode_high hb rest).2 x h) (UInt8.not_le.mpr hx)

/-- A rune of several bytes is a leading byte with its tail. -/
theorem exists_lead {b : UInt8} {rest : Bytes} (h : 1 < (decode (b :: rest)).2) :
    ∃ lead, Utf8.lead? b = some lead ∧ (lead.tail rest).length + 1 = (decode (b :: rest)).2 := by
  simp only [decode] at h ⊢
  split_ifs at h ⊢ with hz hb
  · exact absurd h (Nat.lt_irrefl 1)
  · exact absurd h (Nat.lt_irrefl 1)
  · rcases hl : Utf8.lead? b with _ | lead
    · rw [hl] at h
      exact absurd h (Nat.lt_irrefl 1)
    · rw [hl] at h
      simp only at h ⊢
      split_ifs at h ⊢ with ht
      · exact ⟨lead, rfl, ht⟩
      · exact absurd h (Nat.lt_irrefl 1)

/-- Inside a rune each byte is read by itself. -/
theorem decode_width_inside {bytes : Bytes} {i : Nat} (hi : 0 < i) (hlt : i < (decode bytes).2) :
    (decode (bytes.drop i)).2 = 1 := by
  rcases bytes with _ | ⟨b, rest⟩
  · exact absurd hlt (Nat.not_lt_zero i)
  · obtain ⟨i, rfl⟩ : ∃ j, i = j + 1 := ⟨i - 1, by omega⟩
    obtain ⟨lead, hlead, hwidth⟩ := exists_lead (show 1 < (decode (b :: rest)).2 by omega)
    -- The byte is one of the tail.
    have hlt' : i < (lead.tail rest).length := by omega
    have hmem : (lead.tail rest)[i] ∈ lead.tail rest := List.getElem_mem hlt'
    obtain ⟨behind, hrest⟩ := Utf8.tail_isPrefix lead rest
    have hdrop : (b :: rest).drop (i + 1) =
        (lead.tail rest)[i] :: ((lead.tail rest).drop (i + 1) ++ behind) := by
      rw [List.drop_succ_cons, ← List.cons_append, List.getElem_cons_drop,
        ← List.drop_append_of_le_length (Nat.le_of_lt hlt'), hrest]
    have hhigh := Utf8.le_of_mem_tail hlead hmem
    have hnul : ¬(lead.tail rest)[i] = 0 := fun h0 => absurd (h0 ▸ hhigh) (by decide)
    rw [hdrop, decode, if_neg hnul, if_neg (UInt8.not_lt.mpr hhigh),
      Utf8.lead?_of_mem_tail hlead hmem]

/-- The byte-order mark is written in one way only. -/
theorem take_of_decode_bom {bytes : Bytes} (h : (decode bytes).1 = bom) :
    bytes.take (decode bytes).2 = [0xEF, 0xBB, 0xBF] := by
  rcases bytes with _ | ⟨b, rest⟩
  · exact absurd h (by decide)
  · simp only [decode] at h ⊢
    split_ifs at h ⊢ with hz hb
    · exact absurd h (by decide)
    · -- A byte is too small a number.
      have hvalue : (b.toNat : Int) = 0xFEFF := congrArg value h
      have hlt := b.toNat_lt
      omega
    · rcases hl : Utf8.lead? b with _ | lead
      · simp only [hl] at h
        exact absurd h (by decide)
      · simp only [hl] at h ⊢
        by_cases ht : (lead.tail rest).length + 1 = lead.size
        · rw [if_pos ht] at h ⊢
          have hvalue : ((Utf8.codePoint lead.size b (lead.tail rest) : Nat) : Int) = 0xFEFF :=
            congrArg value h
          simp only
          rw [← ht, List.take_succ_cons,
            ← List.prefix_iff_eq_take.mp (Utf8.tail_isPrefix lead rest)]
          exact Utf8.eq_of_codePoint_bom hl ht (by omega)
        · rw [if_neg ht] at h
          exact absurd h (by decide)

/-- A rune is a character exactly if its code is that of the character. -/
theorem is_iff_value {r : Rune} {ch : Char} : r.is ch = true ↔ r.value = ch.toNat := by
  rw [is_iff]
  constructor
  · intro h
    rw [h]
    rfl
  · intro h
    rcases r with ⟨value⟩
    rw [ofChar, ← h]

/-- The mark at the start of a text does not matter to a search for an ASCII code. -/
theorem decodeFrom_value_eq {n : Nat} (hn : n < 0x80) (offset : Nat) (bytes : Bytes) :
    (decodeFrom offset bytes).1.value = n ↔ (decode bytes).1.value = n := by
  unfold decodeFrom
  rcases hd : decode bytes with ⟨r, width⟩
  simp only
  split
  · -- The mark counts as malformed here, and neither of the two codes is ASCII.
    rename_i hbom
    have hr : r = bom := by simpa [isBom] using hbom.1
    rw [hr, invalid, bom]
    simp only
    omega
  · rfl

/-- The rune at the start of a text has an ASCII code exactly if that is the first byte, which is
not NUL. -/
theorem decodeFrom_value_iff {n : Nat} (hn : n < 0x80) (offset : Nat) (bytes : Bytes) :
    (decodeFrom offset bytes).1.value = n ↔ n ≠ 0 ∧ bytes.head? = some (UInt8.ofNat n) := by
  rw [decodeFrom_value_eq hn]
  rcases bytes with _ | ⟨b, rest⟩
  · simp only [decode_nil, eof, List.head?_nil, reduceCtorEq, and_false]
  · rw [List.head?_cons, Option.some_inj, ← UInt8.toNat_inj, UInt8.toNat_ofNat']
    rcases UInt8.lt_or_le b 0x80 with hb | hb
    · by_cases hz : b = 0
      · rw [decode, if_pos hz, hz, invalid]
        simp only [UInt8.toNat_zero]
        omega
      · have hz' : b.toNat ≠ 0 := fun h => hz (UInt8.toNat_inj.mp h)
        rw [decode_ascii hz hb, ofByte]
        simp only
        omega
    · have hr := (decode_high hb rest).1
      have hb' : 0x80 ≤ b.toNat := UInt8.le_iff_toNat_le.mp hb
      omega

/-- Whether a character is one byte of a source: it is ASCII and not NUL. -/
def IsByte (ch : Char) : Prop := ch.toNat ≠ 0 ∧ ch.toNat < 0x80

instance (ch : Char) : Decidable (IsByte ch) := inferInstanceAs (Decidable (_ ∧ _))

/-- The byte of a character of one byte is ASCII. -/
theorem IsByte.lt {ch : Char} (h : IsByte ch) : UInt8.ofNat ch.toNat < 0x80 := by
  have hlt := h.2
  rw [UInt8.lt_iff_toNat_lt, UInt8.toNat_ofNat', Nat.mod_eq_of_lt (by omega)]
  exact hlt

/-- The rune at the start of a text is a character of one byte exactly if its byte is there. -/
theorem decodeFrom_is_iff {ch : Char} (hch : IsByte ch) (offset : Nat) (bytes : Bytes) :
    (decodeFrom offset bytes).1.is ch = true ↔ bytes.head? = some (UInt8.ofNat ch.toNat) := by
  rw [is_iff_value, decodeFrom_value_iff hch.2]
  exact and_iff_right hch.1

/-- There are no more runes than bytes. -/
theorem countRunes_le_length (bytes : Bytes) : countRunes bytes ≤ bytes.length := by
  fun_induction countRunes bytes with
  | case1 => exact Nat.le_refl 0
  | case2 bytes h ih =>
    have hpos := decode_width_pos h
    have hlen := List.length_pos_iff.mpr h
    rw [List.length_drop] at ih
    omega

/-- A rune is read from its own bytes: what is cut off behind them does not matter. -/
theorem decode_take {bytes : Bytes} {n : Nat} (h : (decode bytes).2 ≤ n) :
    decode (bytes.take n) = decode bytes := by
  rcases bytes with _ | ⟨b, rest⟩
  · rw [List.take_nil]
  · have hpos : 0 < (decode (b :: rest)).2 := decode_width_pos (List.cons_ne_nil b rest)
    obtain ⟨n, rfl⟩ : ∃ m, n = m + 1 := ⟨n - 1, by omega⟩
    rw [List.take_succ_cons]
    simp only [decode] at h ⊢
    split_ifs at h ⊢ with hz hb
    · rfl
    · rfl
    · rcases hl : Utf8.lead? b with _ | lead
      · rfl
      · simp only [hl] at h ⊢
        rw [Utf8.tail_take]
        have hlt := Utf8.length_tail_lt hl rest
        by_cases ht : (lead.tail rest).length + 1 = lead.size
        · -- The whole sequence lies before the cut.
          rw [if_pos ht] at h
          simp only at h
          rw [List.take_of_length_le (by omega)]
        · -- A sequence that is cut short stays so when more of it is cut off.
          have hcut := List.length_take_le n (lead.tail rest)
          have hcut' := List.length_take_le' n (lead.tail rest)
          rw [if_neg ht, if_neg (by omega)]

/-- A rune that is not malformed is read the same whatever follows its text. -/
theorem decode_append {bytes : Bytes} (hne : bytes ≠ []) (h : (decode bytes).1 ≠ invalid)
    (rest : Bytes) : decode (bytes ++ rest) = decode bytes := by
  rcases bytes with _ | ⟨b, tl⟩
  · exact absurd rfl hne
  · rw [List.cons_append]
    simp only [decode] at h ⊢
    split_ifs at h ⊢ with hz hb
    · exact absurd rfl h
    · rfl
    · rcases hl : Utf8.lead? b with _ | lead
      · rfl
      · simp only [hl] at h ⊢
        -- The tail that is there is the beginning of the tail with more behind it.
        have hcut : lead.tail tl = (lead.tail (tl ++ rest)).take tl.length := by
          rw [← Utf8.tail_take, List.take_left]
        have hlt := Utf8.length_tail_lt hl (tl ++ rest)
        have hle := List.length_take_le' tl.length (lead.tail (tl ++ rest))
        by_cases ht : (lead.tail tl).length + 1 = lead.size
        · have hlen := List.length_take (i := tl.length) (l := lead.tail (tl ++ rest))
          rw [← hcut] at hle hlen
          have heq : lead.tail tl = lead.tail (tl ++ rest) := by
            rw [hcut, List.take_of_length_le (by omega)]
          rw [heq]
        · -- A sequence that is cut short is malformed.
          rw [if_neg ht] at h
          exact absurd rfl h

end Rune

end SqlTokens
