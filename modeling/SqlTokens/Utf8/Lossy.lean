import SqlTokens.Utf8.Sequence

/-!
# Text out of damaged UTF-8

`lossy` reads bytes as text and never fails: a complete sequence gives its character, and each
longest beginning of a sequence that is not completed gives one U+FFFD, as does each byte that opens
no sequence.
-/

namespace SqlTokens.Utf8

/-- The characters of a byte text, with U+FFFD in the place of each malformed part. -/
def lossyChars : Bytes → List Char
  | [] => []
  | b :: rest =>
    if b < 0x80 then Char.ofNat b.toNat :: lossyChars rest
    else match lead? b with
      | none => '\ufffd' :: lossyChars rest
      | some lead =>
        let tail := lead.tail rest
        let c := if tail.length + 1 = lead.size then Char.ofNat (codePoint lead.size b tail)
          else '\ufffd'
        c :: lossyChars (rest.drop tail.length)
termination_by bytes => bytes.length
decreasing_by all_goals simp; try omega

/-- A byte text as a string, with U+FFFD in the place of each malformed part. -/
def lossy (bytes : Bytes) : String :=
  String.ofList (lossyChars bytes)

end SqlTokens.Utf8
