import SqlTokens.Bytes

/-!
# The shape of UTF-8 sequences

A sequence of more than one byte is opened by a leading byte, which fixes its length and the range
of the second byte; the bytes after that lie in `80..BF`. The narrower second ranges keep out
overlong spellings (`E0`, `F0`), surrogates (`ED`) and numbers above `10FFFF` (`F4`). The reader of
runes and the reader of damaged text both follow this one table: `Lead.tail` is as much of a
sequence as is there, and the sequence is complete when the tail has `size - 1` bytes.
-/

namespace SqlTokens.Utf8

/-- What a leading byte promises: the length of its sequence and the range of the second byte. -/
structure Lead where
  /-- The number of bytes of the sequence, the leading one included. -/
  size : Nat
  /-- The least second byte. -/
  low : UInt8
  /-- The greatest second byte. -/
  high : UInt8
  deriving DecidableEq, Repr

/-- The promise of a byte that opens a sequence of several bytes; none for ASCII, for a byte that
only continues a sequence, and for a byte that no sequence has. -/
def lead? (b : UInt8) : Option Lead :=
  if 0xC2 ≤ b ∧ b ≤ 0xDF then some ⟨2, 0x80, 0xBF⟩
  else if b = 0xE0 then some ⟨3, 0xA0, 0xBF⟩
  else if b = 0xED then some ⟨3, 0x80, 0x9F⟩
  else if 0xE1 ≤ b ∧ b ≤ 0xEF then some ⟨3, 0x80, 0xBF⟩
  else if b = 0xF0 then some ⟨4, 0x90, 0xBF⟩
  else if 0xF1 ≤ b ∧ b ≤ 0xF3 then some ⟨4, 0x80, 0xBF⟩
  else if b = 0xF4 then some ⟨4, 0x80, 0x8F⟩
  else none

/-- Whether a byte may stand third or later in a sequence. -/
def isTail (b : UInt8) : Bool :=
  0x80 ≤ b && b ≤ 0xBF

/-- The bytes after a leading byte that continue its sequence, at most as many as it promises. -/
def Lead.tail (lead : Lead) : Bytes → Bytes
  | [] => []
  | b :: rest =>
    if lead.low ≤ b ∧ b ≤ lead.high then b :: (rest.take (lead.size - 2)).takeWhile isTail else []

/-- The number spelled by a leading byte and the bytes after it: six bits from each of these, and
from the leading byte those below its length mark. -/
def codePoint (size : Nat) (first : UInt8) (tail : Bytes) : Nat :=
  tail.foldl (fun n b => n * 64 + b.toNat % 64) (first.toNat % Nat.pow 2 (7 - size))

/-- A sequence that is opened has between two and four bytes. -/
theorem size_of_lead? {b : UInt8} {lead : Lead} (h : lead? b = some lead) :
    2 ≤ lead.size ∧ lead.size ≤ 4 := by
  unfold lead? at h
  repeat' split at h
  all_goals cases h <;> decide

/-- The tail is the beginning of what follows the leading byte. -/
theorem tail_isPrefix (lead : Lead) (rest : Bytes) : lead.tail rest <+: rest := by
  cases rest with
  | nil => simp [Lead.tail]
  | cons b rest =>
    simp only [Lead.tail]
    split
    · exact List.cons_prefix_cons.mpr
        ⟨rfl, (List.takeWhile_prefix _).trans (List.take_prefix _ _)⟩
    · exact List.nil_prefix

/-- The tail is no longer than what follows the leading byte. -/
theorem length_tail_le (lead : Lead) (rest : Bytes) : (lead.tail rest).length ≤ rest.length :=
  (tail_isPrefix lead rest).length_le

end SqlTokens.Utf8
