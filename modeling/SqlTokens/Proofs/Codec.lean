import Mathlib.Data.List.TakeWhile
import SqlTokens.Proofs.Runes

/-!
# The codec against standard UTF-8

The reader of runes works by a table of leading bytes; here it is compared with the encoding of
characters as the standard library has it. Reading gives back every character but NUL that is
written at the start of a text (`decode_utf8EncodeChar`), and what the table lets through is always
a character so written (`decode_sound`): no overlong spelling, surrogate or number above `10FFFF`
passes. Together they say which texts start with a rune of their own and which with a malformed
byte (`decode_exact`). U+FFFD is read like any other character; only its width tells it from the
mark of malformed input.
-/

namespace SqlTokens

namespace Utf8

/-! ## The rows of the table -/

/-- The bytes that open a sequence of two. -/
theorem lead?_two {b : UInt8} (h : 0xC2 ≤ b.toNat ∧ b.toNat ≤ 0xDF) :
    lead? b = some ⟨2, 0x80, 0xBF⟩ := by
  rw [lead?, if_pos]
  simpa [UInt8.le_iff_toNat_le] using h

/-- The bytes that open a sequence of three: behind `E0` the second byte keeps out overlong
spellings, behind `ED` surrogates. -/
theorem lead?_three {b : UInt8} (h : 0xE0 ≤ b.toNat ∧ b.toNat ≤ 0xEF) :
    lead? b = some ⟨3, if b = 0xE0 then 0xA0 else 0x80, if b = 0xED then 0x9F else 0xBF⟩ := by
  simp only [lead?, UInt8.le_iff_toNat_le, ← UInt8.toNat_inj, UInt8.toNat_ofNat]
  split_ifs <;> first | rfl | omega

/-- The bytes that open a sequence of four: behind `F0` the second byte keeps out overlong
spellings, behind `F4` numbers above `10FFFF`. -/
theorem lead?_four {b : UInt8} (h : 0xF0 ≤ b.toNat ∧ b.toNat ≤ 0xF4) :
    lead? b = some ⟨4, if b = 0xF0 then 0x90 else 0x80, if b = 0xF4 then 0x8F else 0xBF⟩ := by
  simp only [lead?, UInt8.le_iff_toNat_le, ← UInt8.toNat_inj, UInt8.toNat_ofNat]
  split_ifs <;> first | rfl | omega

/-- No other byte opens a sequence. -/
theorem range_of_lead? {b : UInt8} {lead : Lead} (h : lead? b = some lead) :
    0xC2 ≤ b.toNat ∧ b.toNat ≤ 0xF4 := by
  simp only [lead?, UInt8.le_iff_toNat_le, ← UInt8.toNat_inj, UInt8.toNat_ofNat] at h
  split_ifs at h <;> omega

/-- A tail of the promised length is read whole, whatever follows it. -/
theorem tail_append {lead : Lead} {c : UInt8} {tl : Bytes} (hc : lead.low ≤ c ∧ c ≤ lead.high)
    (htl : ∀ x ∈ tl, isTail x = true) (hlen : tl.length + 2 = lead.size) (rest : Bytes) :
    lead.tail (c :: tl ++ rest) = c :: tl := by
  have htake : (tl ++ rest).take (lead.size - 2) = tl := List.take_left' (by omega)
  rw [List.cons_append, Lead.tail, if_pos hc, htake, List.takeWhile_eq_self_iff.mpr htl]

/-- A byte that carries six bits may stand third or later. -/
theorem isTail_ofNat (n : Nat) : isTail (UInt8.ofNat (n % 64 + 128)) = true := by
  simp only [isTail, Bool.and_eq_true, decide_eq_true_eq, UInt8.le_iff_toNat_le,
    UInt8.toNat_ofNat', UInt8.toNat_ofNat]
  omega

/-- A number below 256 is the number of its byte. -/
theorem toNat_ofNat_of_lt {n : Nat} (h : n < 256) : (UInt8.ofNat n).toNat = n := by
  rw [UInt8.toNat_ofNat', Nat.mod_eq_of_lt h]

/-! ## The encoding as arithmetic -/

/-- The encoding of a character of one byte. -/
theorem encodeChar_one {ch : Char} (h : ch.toNat < 0x80) :
    String.utf8EncodeChar ch = [UInt8.ofNat ch.toNat] := by
  have hval : ch.val.toNat = ch.toNat := rfl
  simp only [String.utf8EncodeChar, hval]
  rw [if_pos (by omega)]

/-- The encoding of a character of two bytes. -/
theorem encodeChar_two {ch : Char} (h : 0x80 ≤ ch.toNat ∧ ch.toNat ≤ 0x7FF) :
    String.utf8EncodeChar ch =
      [UInt8.ofNat (ch.toNat / 64 + 0xC0), UInt8.ofNat (ch.toNat % 64 + 128)] := by
  have hval : ch.val.toNat = ch.toNat := rfl
  simp only [String.utf8EncodeChar, hval]
  rw [if_neg (by omega), if_pos (by omega), Nat.mod_eq_of_lt (a := ch.toNat / 64) (by omega)]

/-- The encoding of a character of three bytes. -/
theorem encodeChar_three {ch : Char} (h : 0x800 ≤ ch.toNat ∧ ch.toNat ≤ 0xFFFF) :
    String.utf8EncodeChar ch =
      [UInt8.ofNat (ch.toNat / 4096 + 0xE0), UInt8.ofNat (ch.toNat / 64 % 64 + 128),
        UInt8.ofNat (ch.toNat % 64 + 128)] := by
  have hval : ch.val.toNat = ch.toNat := rfl
  simp only [String.utf8EncodeChar, hval]
  rw [if_neg (by omega), if_neg (by omega), if_pos (by omega),
    Nat.mod_eq_of_lt (a := ch.toNat / 4096) (by omega)]

/-- The encoding of a character of four bytes. -/
theorem encodeChar_four {ch : Char} (h : 0x10000 ≤ ch.toNat) :
    String.utf8EncodeChar ch =
      [UInt8.ofNat (ch.toNat / 262144 + 0xF0), UInt8.ofNat (ch.toNat / 4096 % 64 + 128),
        UInt8.ofNat (ch.toNat / 64 % 64 + 128), UInt8.ofNat (ch.toNat % 64 + 128)] := by
  have hval : ch.val.toNat = ch.toNat := rfl
  have hvalid : ch.toNat < 0xD800 ∨ 0xDFFF < ch.toNat ∧ ch.toNat < 0x110000 := ch.valid
  simp only [String.utf8EncodeChar, hval]
  rw [if_neg (by omega), if_neg (by omega), if_neg (by omega),
    Nat.mod_eq_of_lt (a := ch.toNat / 262144) (by omega)]

end Utf8

namespace Rune

/-! ## Reading what is written -/

/-- A complete sequence is read as its number. -/
theorem decode_sequence {b c : UInt8} {lead : Utf8.Lead} (hl : Utf8.lead? b = some lead)
    (hc : lead.low ≤ c ∧ c ≤ lead.high) (tl : Bytes)
    (htl : ∀ x ∈ tl, Utf8.isTail x = true) (hlen : tl.length + 2 = lead.size) (rest : Bytes) :
    decode (b :: (c :: tl ++ rest)) = (⟨Utf8.codePoint lead.size b (c :: tl)⟩, lead.size) := by
  have hb := Utf8.range_of_lead? hl
  have hz : b ≠ 0 := by
    rintro rfl
    simp at hb
  have hhigh : ¬b < 0x80 := by
    rw [UInt8.lt_iff_toNat_lt]
    simp only [UInt8.toNat_ofNat]
    omega
  rw [decode, if_neg hz, if_neg hhigh, hl]
  simp only [Utf8.tail_append hc htl hlen, List.length_cons]
  rw [if_pos (by omega)]

/-- Two bytes that spell a number are read as it. -/
theorem decode_two {v : Nat} (h : 0x80 ≤ v ∧ v ≤ 0x7FF) (rest : Bytes) :
    decode ([UInt8.ofNat (v / 64 + 0xC0), UInt8.ofNat (v % 64 + 128)] ++ rest) = (⟨v⟩, 2) := by
  have hb := Utf8.toNat_ofNat_of_lt (show v / 64 + 0xC0 < 256 by omega)
  have hc := Utf8.toNat_ofNat_of_lt (show v % 64 + 128 < 256 by omega)
  have hl := Utf8.lead?_two (b := UInt8.ofNat (v / 64 + 0xC0)) (by omega)
  have hrange : (0x80 : UInt8) ≤ UInt8.ofNat (v % 64 + 128) ∧
      UInt8.ofNat (v % 64 + 128) ≤ 0xBF := by
    simp only [UInt8.le_iff_toNat_le, UInt8.toNat_ofNat, hc]
    omega
  have hread := decode_sequence hl hrange [] (by simp) rfl rest
  have hnum : Utf8.codePoint 2 (UInt8.ofNat (v / 64 + 0xC0)) [UInt8.ofNat (v % 64 + 128)] = v := by
    rw [Utf8.codePoint_two, hb, hc]
    omega
  rwa [hnum] at hread

/-- Three bytes that spell a number are read as it, if it is no surrogate. -/
theorem decode_three {v : Nat} (h : 0x800 ≤ v ∧ v ≤ 0xFFFF) (hv : v < 0xD800 ∨ 0xDFFF < v)
    (rest : Bytes) :
    decode ([UInt8.ofNat (v / 4096 + 0xE0), UInt8.ofNat (v / 64 % 64 + 128),
      UInt8.ofNat (v % 64 + 128)] ++ rest) = (⟨v⟩, 3) := by
  have hb := Utf8.toNat_ofNat_of_lt (show v / 4096 + 0xE0 < 256 by omega)
  have hc := Utf8.toNat_ofNat_of_lt (show v / 64 % 64 + 128 < 256 by omega)
  have hd := Utf8.toNat_ofNat_of_lt (show v % 64 + 128 < 256 by omega)
  have htl := Utf8.isTail_ofNat v
  generalize UInt8.ofNat (v / 4096 + 0xE0) = b at *
  generalize UInt8.ofNat (v / 64 % 64 + 128) = c at *
  generalize UInt8.ofNat (v % 64 + 128) = d at *
  have hnum : Utf8.codePoint 3 b [c, d] = v := by
    rw [Utf8.codePoint_three, hb, hc, hd]
    omega
  have hrange : (if b = 0xE0 then 0xA0 else 0x80) ≤ c ∧
      c ≤ (if b = 0xED then 0x9F else 0xBF) := by
    simp only [← UInt8.toNat_inj]
    constructor <;> split_ifs <;>
      simp only [UInt8.le_iff_toNat_le, UInt8.toNat_ofNat] at * <;> omega
  have hread := decode_sequence (Utf8.lead?_three (b := b) (by omega)) hrange [d]
    (by simpa using htl) rfl rest
  rwa [hnum] at hread

/-- Four bytes that spell a number are read as it, if it is in range. -/
theorem decode_four {v : Nat} (h : 0x10000 ≤ v ∧ v ≤ 0x10FFFF) (rest : Bytes) :
    decode ([UInt8.ofNat (v / 262144 + 0xF0), UInt8.ofNat (v / 4096 % 64 + 128),
      UInt8.ofNat (v / 64 % 64 + 128), UInt8.ofNat (v % 64 + 128)] ++ rest) = (⟨v⟩, 4) := by
  have hb := Utf8.toNat_ofNat_of_lt (show v / 262144 + 0xF0 < 256 by omega)
  have hc := Utf8.toNat_ofNat_of_lt (show v / 4096 % 64 + 128 < 256 by omega)
  have hd := Utf8.toNat_ofNat_of_lt (show v / 64 % 64 + 128 < 256 by omega)
  have he := Utf8.toNat_ofNat_of_lt (show v % 64 + 128 < 256 by omega)
  have htl := Utf8.isTail_ofNat (v / 64)
  have htl' := Utf8.isTail_ofNat v
  generalize UInt8.ofNat (v / 262144 + 0xF0) = b at *
  generalize UInt8.ofNat (v / 4096 % 64 + 128) = c at *
  generalize UInt8.ofNat (v / 64 % 64 + 128) = d at *
  generalize UInt8.ofNat (v % 64 + 128) = e at *
  have hnum : Utf8.codePoint 4 b [c, d, e] = v := by
    rw [Utf8.codePoint_four, hb, hc, hd, he]
    omega
  have hrange : (if b = 0xF0 then 0x90 else 0x80) ≤ c ∧
      c ≤ (if b = 0xF4 then 0x8F else 0xBF) := by
    simp only [← UInt8.toNat_inj]
    constructor <;> split_ifs <;>
      simp only [UInt8.le_iff_toNat_le, UInt8.toNat_ofNat] at * <;> omega
  have hread := decode_sequence (Utf8.lead?_four (b := b) (by omega)) hrange [d, e]
    (by simp [htl, htl']) rfl rest
  rwa [hnum] at hread

/-- A character other than NUL is read back from its encoding, whatever follows it. -/
theorem decode_utf8EncodeChar {ch : Char} (h : ch ≠ '\x00') (rest : Bytes) :
    decode (String.utf8EncodeChar ch ++ rest) =
      (ofChar ch, (String.utf8EncodeChar ch).length) := by
  have hpos : ch.toNat ≠ 0 := fun h0 => h (Char.toNat_inj.mp h0)
  have hvalid : ch.toNat < 0xD800 ∨ 0xDFFF < ch.toNat ∧ ch.toNat < 0x110000 := ch.valid
  rcases Nat.lt_or_ge ch.toNat 0x80 with h1 | h1
  · -- An ASCII byte is its own rune.
    have hb : UInt8.ofNat ch.toNat < 0x80 := IsByte.lt ⟨hpos, h1⟩
    have hnum := Utf8.toNat_ofNat_of_lt (show ch.toNat < 256 by omega)
    have hz : UInt8.ofNat ch.toNat ≠ 0 := fun hz => hpos (by rw [← hnum, hz, UInt8.toNat_zero])
    rw [Utf8.encodeChar_one h1, List.singleton_append, decode_ascii hz hb, ofByte, hnum]
    rfl
  · rcases Nat.lt_or_ge ch.toNat 0x800 with h2 | h2
    · rw [Utf8.encodeChar_two (by omega), decode_two (by omega)]
      rfl
    · rcases Nat.lt_or_ge ch.toNat 0x10000 with h3 | h3
      · rw [Utf8.encodeChar_three (by omega), decode_three (by omega) (by omega)]
        rfl
      · rw [Utf8.encodeChar_four h3, decode_four (by omega)]
        rfl

/-! ## Writing what is read -/

/-- A number in range that is no surrogate has a character. -/
theorem exists_char {v : Nat} (hv : v < 0xD800 ∨ 0xDFFF < v ∧ v < 0x110000) :
    ∃ ch : Char, ch.toNat = v :=
  ⟨Char.ofNatAux v hv, rfl⟩

/-- A byte is known by its number. -/
theorem ofNat_eq {b : UInt8} {n : Nat} (h : n = b.toNat) : UInt8.ofNat n = b := by
  rw [h, UInt8.ofNat_toNat]

/-- Two bytes that the table lets through are a character. -/
theorem encodeChar_of_two {b c : UInt8} (hb : 0xC2 ≤ b.toNat ∧ b.toNat ≤ 0xDF)
    (hc : 0x80 ≤ c.toNat ∧ c.toNat ≤ 0xBF) :
    ∃ ch : Char, ch.toNat = Utf8.codePoint 2 b [c] ∧ String.utf8EncodeChar ch = [b, c] := by
  have hv := Utf8.codePoint_two b c
  obtain ⟨ch, hch⟩ := exists_char (v := Utf8.codePoint 2 b [c]) (by omega)
  refine ⟨ch, hch, ?_⟩
  rw [Utf8.encodeChar_two (by omega), ofNat_eq (b := b) (by omega), ofNat_eq (b := c) (by omega)]

/-- Three bytes that the table lets through are a character. -/
theorem encodeChar_of_three {b c d : UInt8} (hb : 0xE0 ≤ b.toNat ∧ b.toNat ≤ 0xEF)
    (hc : 0x80 ≤ c.toNat ∧ c.toNat ≤ 0xBF) (hlow : b.toNat = 0xE0 → 0xA0 ≤ c.toNat)
    (hhigh : b.toNat = 0xED → c.toNat ≤ 0x9F) (hd : 0x80 ≤ d.toNat ∧ d.toNat ≤ 0xBF) :
    ∃ ch : Char, ch.toNat = Utf8.codePoint 3 b [c, d] ∧
      String.utf8EncodeChar ch = [b, c, d] := by
  have hv := Utf8.codePoint_three b c d
  obtain ⟨ch, hch⟩ := exists_char (v := Utf8.codePoint 3 b [c, d]) (by omega)
  refine ⟨ch, hch, ?_⟩
  rw [Utf8.encodeChar_three (by omega), ofNat_eq (b := b) (by omega),
    ofNat_eq (b := c) (by omega), ofNat_eq (b := d) (by omega)]

/-- Four bytes that the table lets through are a character. -/
theorem encodeChar_of_four {b c d e : UInt8} (hb : 0xF0 ≤ b.toNat ∧ b.toNat ≤ 0xF4)
    (hc : 0x80 ≤ c.toNat ∧ c.toNat ≤ 0xBF) (hlow : b.toNat = 0xF0 → 0x90 ≤ c.toNat)
    (hhigh : b.toNat = 0xF4 → c.toNat ≤ 0x8F) (hd : 0x80 ≤ d.toNat ∧ d.toNat ≤ 0xBF)
    (he : 0x80 ≤ e.toNat ∧ e.toNat ≤ 0xBF) :
    ∃ ch : Char, ch.toNat = Utf8.codePoint 4 b [c, d, e] ∧
      String.utf8EncodeChar ch = [b, c, d, e] := by
  have hv := Utf8.codePoint_four b c d e
  obtain ⟨ch, hch⟩ := exists_char (v := Utf8.codePoint 4 b [c, d, e]) (by omega)
  refine ⟨ch, hch, ?_⟩
  rw [Utf8.encodeChar_four (by omega), ofNat_eq (b := b) (by omega),
    ofNat_eq (b := c) (by omega), ofNat_eq (b := d) (by omega), ofNat_eq (b := e) (by omega)]

/-- What the table lets through is the encoding of the character that is read. -/
theorem encodeChar_of_complete {b : UInt8} {lead : Utf8.Lead} {rest : Bytes}
    (hl : Utf8.lead? b = some lead) (ht : (lead.tail rest).length + 1 = lead.size) :
    ∃ ch : Char, ch.toNat = Utf8.codePoint lead.size b (lead.tail rest) ∧
      String.utf8EncodeChar ch = b :: lead.tail rest := by
  have hb := Utf8.range_of_lead? hl
  rcases htail : lead.tail rest with _ | ⟨c, tl⟩
  · have hsize := Utf8.size_of_lead? hl
    rw [htail, List.length_nil] at ht
    omega
  · have hrange := Utf8.mem_range_of_tail_eq_cons htail
    have htl := Utf8.range_of_tail_eq_cons htail
    rw [htail, List.length_cons] at ht
    rcases Nat.lt_or_ge b.toNat 0xE0 with h2 | h2
    · rw [Utf8.lead?_two ⟨hb.1, by omega⟩] at hl
      obtain rfl := Option.some.inj hl
      simp only [UInt8.le_iff_toNat_le, UInt8.toNat_ofNat] at hrange ht
      rw [List.length_eq_zero_iff.mp (by omega : tl.length = 0)]
      exact encodeChar_of_two ⟨hb.1, by omega⟩ hrange
    · rcases Nat.lt_or_ge b.toNat 0xF0 with h3 | h3
      · rw [Utf8.lead?_three ⟨h2, by omega⟩] at hl
        obtain rfl := Option.some.inj hl
        simp only [← UInt8.toNat_inj, UInt8.le_iff_toNat_le, UInt8.toNat_ofNat,
          apply_ite UInt8.toNat] at hrange ht
        obtain ⟨d, rfl⟩ := List.length_eq_one_iff.mp (by omega : tl.length = 1)
        have hd := htl d (List.mem_singleton_self d)
        split_ifs at hrange <;>
          exact encodeChar_of_three (by omega) (by omega) (by omega) (by omega) hd
      · rw [Utf8.lead?_four ⟨h3, hb.2⟩] at hl
        obtain rfl := Option.some.inj hl
        simp only [← UInt8.toNat_inj, UInt8.le_iff_toNat_le, UInt8.toNat_ofNat,
          apply_ite UInt8.toNat] at hrange ht
        obtain ⟨d, e, rfl⟩ := List.length_eq_two.mp (by omega : tl.length = 2)
        have hd := htl d (by simp)
        have he := htl e (by simp)
        split_ifs at hrange <;>
          exact encodeChar_of_four (by omega) (by omega) (by omega) (by omega) hd he

/-- A text that does not start with a malformed byte starts with the encoding of a character other
than NUL. -/
theorem decode_sound {bytes : Bytes} (h : bytes ≠ []) (hd : decode bytes ≠ (invalid, 1)) :
    ∃ ch : Char, ch ≠ '\x00' ∧ String.utf8EncodeChar ch <+: bytes := by
  revert hd
  fun_cases decode bytes with
  | case1 => exact absurd rfl h
  | case3 b rest hz hb =>
    intro _
    have hlt : b.toNat < 0x80 := UInt8.lt_iff_toNat_lt.mp hb
    obtain ⟨ch, hch⟩ := exists_char (v := b.toNat) (by omega)
    refine ⟨ch, ?_, ?_⟩
    · rintro rfl
      exact hz (UInt8.toNat_inj.mp hch.symm)
    · rw [Utf8.encodeChar_one (by omega), ofNat_eq hch]
      exact List.prefix_append [b] rest
  | case5 b rest hz hb lead hl tail ht =>
    intro _
    obtain ⟨ch, hnum, hbytes⟩ := encodeChar_of_complete hl ht
    refine ⟨ch, ?_, ?_⟩
    · rintro rfl
      have hle := Utf8.le_codePoint hl ht
      rw [← hnum] at hle
      exact absurd hle (by decide)
    · rw [hbytes]
      exact List.cons_prefix_cons.mpr ⟨rfl, Utf8.tail_isPrefix lead rest⟩
  | _ => exact fun hd => absurd rfl hd

/-! ## The codec -/

/-- The runes that are characters are those of characters. -/
theorem char?_eq_some_iff {r : Rune} {ch : Char} : r.char? = some ch ↔ r = ofChar ch := by
  constructor
  · intro h
    rcases r with ⟨value⟩
    unfold char? at h
    split_ifs at h with hv
    have hch : ch.toNat = value.toNat := by
      rw [← Option.some.inj h, Char.ofNat, dif_pos hv.2]
      rfl
    rw [ofChar, hch, Int.toNat_of_nonneg hv.1]
  · rintro rfl
    exact char?_ofChar ch

/-- The rune of a character is written as the character. -/
theorem encode_ofChar (ch : Char) : encode (ofChar ch) = String.utf8EncodeChar ch := by
  rw [encode, char?_ofChar, Option.getD_some]

/-- The codec is exact: a rune that is a character other than NUL is read back from its bytes; a
text that starts with the encoding of such a character is read as it, every other text that is not
empty as a malformed byte, and only the empty text as the end of input; what is no character is
written as U+FFFD. -/
theorem decode_exact :
    (∀ (r : Rune) (ch : Char) (rest : Bytes), r.char? = some ch → ch ≠ '\x00' →
      decode (encode r ++ rest) = (r, (encode r).length)) ∧
    (∀ bytes : Bytes, bytes ≠ [] →
      (∀ ch : Char, ch ≠ '\x00' → String.utf8EncodeChar ch <+: bytes →
        ∃ width, decode bytes = (ofChar ch, width) ∧ encode (ofChar ch) = bytes.take width) ∧
      ((¬∃ ch : Char, ch ≠ '\x00' ∧ String.utf8EncodeChar ch <+: bytes) →
        decode bytes = (invalid, 1))) ∧
    (∀ bytes : Bytes, decode bytes = (eof, 0) ↔ bytes = []) ∧
    (∀ r : Rune, r.char? = none → encode r = [0xEF, 0xBF, 0xBD]) := by
  refine ⟨?_, fun bytes hne => ⟨?_, ?_⟩, fun bytes => ⟨?_, ?_⟩, ?_⟩
  · intro r ch rest hr hch
    rw [char?_eq_some_iff.mp hr, encode_ofChar, decode_utf8EncodeChar hch]
  · rintro ch hch ⟨rest, rfl⟩
    refine ⟨_, decode_utf8EncodeChar hch rest, ?_⟩
    rw [encode_ofChar, List.take_left]
  · intro hnone
    by_contra hd
    exact hnone (decode_sound hne hd)
  · intro heof
    by_contra hne
    exact decode_ne_eof hne (by rw [heof])
  · rintro rfl
    exact decode_nil
  · intro r hr
    rw [encode, hr]
    rfl

/-- U+FFFD is read back with its width, the overlong spelling of NUL is a malformed byte, and the
end of input is written as U+FFFD. -/
theorem decode_exact_bounds :
    decode ([0xEF, 0xBF, 0xBD] ++ [0x41]) = (invalid, 3) ∧
      decode [0xC0, 0x80] = (invalid, 1) ∧ encode eof = [0xEF, 0xBF, 0xBD] := by
  obtain ⟨hread, htext, -, hwrite⟩ := decode_exact
  refine ⟨hread invalid '\ufffd' [0x41] rfl (by decide), ?_, hwrite eof rfl⟩
  refine (htext [0xC0, 0x80] (by decide)).2 ?_
  rintro ⟨ch, -, hprefix⟩
  rcases Nat.lt_or_ge ch.toNat 0x80 with h1 | h1
  · -- One byte is ASCII.
    rw [Utf8.encodeChar_one h1, List.cons_prefix_cons, ← UInt8.toNat_inj,
      Utf8.toNat_ofNat_of_lt (by omega)] at hprefix
    exact absurd hprefix.1 (Nat.ne_of_lt (Nat.lt_trans h1 (by decide)))
  · rcases Nat.lt_or_ge ch.toNat 0x800 with h2 | h2
    · -- The first of two bytes is `C2` or greater.
      rw [Utf8.encodeChar_two (by omega), List.cons_prefix_cons, ← UInt8.toNat_inj,
        Utf8.toNat_ofNat_of_lt (by omega)] at hprefix
      have hfirst : ch.toNat / 64 + 0xC0 = 0xC0 := hprefix.1
      omega
    · -- Three or four bytes do not fit.
      have hlen := hprefix.length_le
      rcases Nat.lt_or_ge ch.toNat 0x10000 with h3 | h3
      · rw [Utf8.encodeChar_three (by omega)] at hlen
        exact absurd hlen (by simp)
      · rw [Utf8.encodeChar_four h3] at hlen
        exact absurd hlen (by simp)

end Rune

end SqlTokens
