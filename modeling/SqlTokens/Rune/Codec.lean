import SqlTokens.Rune.Basic
import SqlTokens.Utf8.Sequence

/-!
# Runes from bytes and back

`decode` reads the rune at the start of a byte text together with its width. It never fails: what is
not the complete encoding of a character is one `invalid` rune of width 1, and so is NUL. `decodeAt`
reads at an offset, where a byte-order mark counts as `invalid` unless the offset is 0. `encode`
writes UTF-8, with U+FFFD for what is no character. Widths are positive as long as bytes are left
(`decode_width_pos`), so a walk from rune to rune ends.
-/

namespace SqlTokens.Rune

/-- The rune at the start of a text, and how many bytes it takes. -/
def decode : Bytes → Rune × Nat
  | [] => (eof, 0)
  | b :: rest =>
    -- NUL is no character of a source.
    if b = 0 then (invalid, 1)
    else if b < 0x80 then (ofByte b, 1)
    else match Utf8.lead? b with
      | none => (invalid, 1)
      | some lead =>
        let tail := lead.tail rest
        -- A sequence that is cut short gives up its first byte alone.
        if tail.length + 1 = lead.size then (⟨Utf8.codePoint lead.size b tail⟩, lead.size)
        else (invalid, 1)

/-- The rune at the start of a text that itself starts at the given offset of its source. -/
def decodeFrom (offset : Nat) (bytes : Bytes) : Rune × Nat :=
  match decode bytes with
  | (r, width) => if r.isBom ∧ 0 < offset then (invalid, width) else (r, width)

/-- The rune at an offset of a source. -/
def decodeAt (source : Bytes) (offset : Nat) : Rune × Nat :=
  decodeFrom offset (source.drop offset)

/-- The UTF-8 bytes of a rune. -/
def encode (r : Rune) : Bytes :=
  String.utf8EncodeChar (r.char?.getD '\ufffd')

/-- A rune as text; the end of input has none. -/
def text (r : Rune) : String :=
  if r = eof then "" else (r.char?.getD '\ufffd').toString

/-! ## Widths -/

/-- At the end of a text there is no rune. -/
@[simp] theorem decode_nil : decode [] = (eof, 0) := rfl

/-- A rune takes at least one byte. -/
theorem decode_width_pos {bytes : Bytes} (h : bytes ≠ []) : 0 < (decode bytes).2 := by
  fun_cases decode bytes with
  | case1 => exact absurd rfl h
  | case5 b rest _ _ lead hl tail ht =>
    have := Utf8.size_of_lead? hl
    simp only
    omega
  | _ => exact Nat.one_pos

/-- A rune takes no more bytes than there are. -/
theorem decode_width_le (bytes : Bytes) : (decode bytes).2 ≤ bytes.length := by
  fun_cases decode bytes with
  | case1 => exact Nat.le_refl 0
  | case5 b rest _ _ lead hl tail ht =>
    have : tail.length ≤ rest.length := Utf8.length_tail_le lead rest
    simp only [List.length_cons]
    omega
  | _ => simp

/-- The offset of a text does not change the width of its first rune. -/
@[simp] theorem decodeFrom_width (offset : Nat) (bytes : Bytes) :
    (decodeFrom offset bytes).2 = (decode bytes).2 := by
  unfold decodeFrom
  split
  split <;> simp_all

/-- Only the empty text starts with the end of input. -/
theorem decode_ne_eof {bytes : Bytes} (h : bytes ≠ []) : (decode bytes).1 ≠ eof := by
  have ofNat_ne (n : Nat) : (⟨n⟩ : Rune) ≠ eof := by simp [eof]
  fun_cases decode bytes with
  | case1 => exact absurd rfl h
  | case3 => exact ofNat_ne _
  | case5 => exact ofNat_ne _
  | _ => exact ofNat_ne 0xFFFD

/-- Wherever a text that is not empty starts, it does not start with the end of input. -/
theorem decodeFrom_ne_eof {bytes : Bytes} (h : bytes ≠ []) (offset : Nat) :
    (decodeFrom offset bytes).1 ≠ eof := by
  have := decode_ne_eof h
  unfold decodeFrom
  split
  split
  · exact (by decide : invalid ≠ eof)
  · simp_all

/-! ## Walks -/

/-- The runes of a text that starts at the given offset of its source, each with its width. -/
def runesFrom (offset : Nat) (bytes : Bytes) : List (Rune × Nat) :=
  if bytes = [] then []
  else
    let here := decodeFrom offset bytes
    here :: runesFrom (offset + here.2) (bytes.drop here.2)
termination_by bytes.length
decreasing_by
  rename_i h
  have := List.length_pos_iff.mpr h
  have := decode_width_pos h
  simp only [decodeFrom_width, List.length_drop]
  omega

/-- The number of runes of a text; each malformed byte is one. -/
def countRunes (bytes : Bytes) : Nat :=
  if bytes = [] then 0 else countRunes (bytes.drop (decode bytes).2) + 1
termination_by bytes.length
decreasing_by
  rename_i h
  have := List.length_pos_iff.mpr h
  have := decode_width_pos h
  simp only [List.length_drop]
  omega

/-- The empty text has no runes. -/
@[simp] theorem countRunes_nil : countRunes [] = 0 := by rw [countRunes, if_pos rfl]

/-- Every other text has one more than what follows its first rune. -/
theorem countRunes_of_ne_nil {bytes : Bytes} (h : bytes ≠ []) :
    countRunes bytes = countRunes (bytes.drop (decode bytes).2) + 1 := by
  rw [countRunes, if_neg h]

/-- As many runes are counted as a walk meets, from whichever offset. -/
theorem length_runesFrom (offset : Nat) (bytes : Bytes) :
    (runesFrom offset bytes).length = countRunes bytes := by
  fun_induction runesFrom offset bytes with
  | case1 => rw [List.length_nil, countRunes_nil]
  | case2 offset bytes h here ih =>
    rw [List.length_cons, ih, countRunes_of_ne_nil h]
    simp only [here, decodeFrom_width]

end SqlTokens.Rune
