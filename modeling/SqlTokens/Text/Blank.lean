/-!
# White space at the ends of an item

The characters with the Unicode property `White_Space`, and the removal of such characters from both
ends of a text. `trim_eq_self` says that a text with no blank at either end is left as it is.
-/

namespace SqlTokens.Text

/-- The characters with the property `White_Space`. -/
def isBlank (c : Char) : Bool :=
  ('\t' ≤ c && c ≤ '\r') || c == ' ' || c == '\u0085' || c == '\u00a0' || c == '\u1680'
    || ('\u2000' ≤ c && c ≤ '\u200a') || c == '\u2028' || c == '\u2029' || c == '\u202f'
    || c == '\u205f' || c == '\u3000'

/-- The characters of a text without the blanks at either end. -/
def trim (cs : List Char) : List Char :=
  ((cs.dropWhile isBlank).reverse.dropWhile isBlank).reverse

/-- A text that starts and ends with no blank is left as it is. -/
theorem trim_eq_self {cs : List Char} (hs : ∀ c ∈ cs.head?, isBlank c = false)
    (he : ∀ c ∈ cs.getLast?, isBlank c = false) : trim cs = cs := by
  have drop (l : List Char) (h : ∀ c ∈ l.head?, isBlank c = false) : l.dropWhile isBlank = l := by
    cases l with
    | nil => rfl
    | cons c r => simp [List.dropWhile, h c (by simp)]
  unfold trim
  rw [drop cs hs, drop _ (by simpa [List.head?_reverse] using he), List.reverse_reverse]

end SqlTokens.Text
