import Mathlib.Data.List.Induction
import SqlTokens.Proofs.Starters

/-!
# Words as a list

The words of a table are kept under their upper-case spelling, where a later one takes the place of
an earlier one, and a look-up spells the name in upper case too: a short name in a buffer, a longer
one in a text of its own, and a name that is longer than every word not at all. None of this shows
in the answer. Whatever the length of a name, the look-up finds the last word of the vocabulary that
the name spells, in whichever case (`keyword?_last`). In the standard vocabulary no word takes the
place of another one, so that a name that spells a word is found as it (`SpelledBy.keyword?_eq`).
-/

namespace SqlTokens

namespace Entry

/-- Whether an entry is a word that a name spells, in whichever case. -/
def SpelledBy (e : Entry) (name : Bytes) : Prop :=
  e.role ≠ .operator ∧ e.bytes ≠ [] ∧ Bytes.sameLetters e.bytes name = true

instance (e : Entry) (name : Bytes) : Decidable (e.SpelledBy name) :=
  inferInstanceAs (Decidable (_ ∧ _ ∧ _))

/-- What a table says about the spelling of an entry. -/
def keyword (e : Entry) : Keyword := ⟨e.kind, e.role⟩

/-- A name is as long as the word that it spells. -/
theorem SpelledBy.length_eq {e : Entry} {name : Bytes} (h : e.SpelledBy name) :
    name.length = e.bytes.length := by
  rw [← Bytes.length_toUpper name, ← Bytes.sameLetters_iff.mp h.2.2, Bytes.length_toUpper]

/-- The empty name spells no word. -/
theorem not_spelledBy_nil (e : Entry) : ¬e.SpelledBy [] := fun h =>
  h.2.1 (List.length_eq_zero_iff.mp h.length_eq.symm)

end Entry

namespace Table

/-- The last word of a vocabulary that a name spells. -/
def word? (entries : List Entry) (name : Bytes) : Option Entry :=
  entries.reverse.find? (·.SpelledBy name)

/-- One more entry is added to a vocabulary behind the others. -/
theorem ofEntries_concat (entries : List Entry) (e : Entry) :
    ofEntries (entries ++ [e]) = (ofEntries entries).add e :=
  List.foldl_concat _ _ _ _

/-- One more entry takes the place of its spelling, if it is a word, and no other place. -/
theorem find?_words_add (t : Table) (e : Entry) (name : Bytes) :
    (t.add e).words.find? (Bytes.toUpper name) =
      if e.SpelledBy name then some e.keyword else t.words.find? (Bytes.toUpper name) := by
  rw [add]
  split
  · rename_i hrole
    rw [if_neg fun h => h.1 hrole]
  · rename_i hrole
    by_cases hempty : e.bytes = []
    · -- An empty text has no place among the words.
      rw [if_neg fun h => h.2.1 hempty, hempty]
      rfl
    · have hspelling : Bytes.toUpper e.bytes ≠ [] := by
        simpa [Bytes.toUpper] using hempty
      simp only [Trie.find?_insert hspelling]
      by_cases hsame : Bytes.sameLetters e.bytes name = true
      · rw [if_pos (Bytes.sameLetters_iff.mp hsame).symm, if_pos ⟨hrole, hempty, hsame⟩]
        rfl
      · rw [if_neg fun h => hsame (Bytes.sameLetters_iff.mpr h.symm), if_neg fun h => hsame h.2.2]

/-- The words of a table are the last ones of the vocabulary with their spellings. -/
theorem find?_words (entries : List Entry) (name : Bytes) :
    (ofEntries entries).words.find? (Bytes.toUpper name) =
      (word? entries name).map Entry.keyword := by
  induction entries using List.reverseRecOn with
  | nil => exact Trie.find?_empty _
  | append_singleton entries e ih =>
    rw [ofEntries_concat, find?_words_add, ih, word?, word?, List.reverse_concat,
      List.find?_cons]
    by_cases he : e.SpelledBy name
    · simp [he]
    · simp [he]

/-- No word of a vocabulary is longer than the longest word of its table. -/
theorem length_le_longestWord (entries : List Entry) :
    ∀ e ∈ entries, e.role ≠ .operator → e.bytes.length ≤ (ofEntries entries).longestWord := by
  induction entries using List.reverseRecOn with
  | nil => exact fun e he => absurd he List.not_mem_nil
  | append_singleton entries last ih =>
    intro e he hrole
    rw [ofEntries_concat, add]
    rcases List.mem_append.mp he with he | he
    · -- One more entry does not make the longest word shorter.
      have hle := ih e he hrole
      split
      · exact hle
      · exact Nat.le_trans hle (Nat.le_max_left _ _)
    · rw [List.mem_singleton.mp he] at hrole ⊢
      split
      · exact absurd ‹_› hrole
      · simp only [Bytes.length_toUpper]
        exact Nat.le_max_right _ _

/-- A look-up finds the last word of the vocabulary that the name spells. -/
theorem keyword?_eq (entries : List Entry) (name : Bytes) :
    (ofEntries entries).keyword? name = (word? entries name).map Entry.keyword := by
  rw [keyword?, spell_eq]
  split
  · rename_i hcut
    -- A name that is not looked up spells no word.
    have hnone : word? entries name = none := by
      refine List.find?_eq_none.mpr fun e he => ?_
      rw [decide_eq_true_iff]
      intro hspelled
      rcases hcut with rfl | hlong
      · exact e.not_spelledBy_nil hspelled
      · have hle := length_le_longestWord entries e (List.mem_reverse.mp he) hspelled.1
        rw [← hspelled.length_eq] at hle
        exact Nat.not_lt.mpr hle hlong
    rw [hnone]
    rfl
  · exact find?_words entries name

/-- The case of its letters does not matter to the look-up of a name. -/
theorem keyword?_congr (t : Table) {name name' : Bytes}
    (h : Bytes.toUpper name = Bytes.toUpper name') : t.keyword? name = t.keyword? name' := by
  have hlength : name.length = name'.length := by
    rw [← Bytes.length_toUpper name, h, Bytes.length_toUpper]
  have hempty : name = [] ↔ name' = [] := by
    rw [← List.length_eq_zero_iff, hlength, List.length_eq_zero_iff]
  simp only [keyword?, spell_eq, h, hlength, hempty]

/-- The last word of a vocabulary that a name spells stands in front of entries that the name does
not spell. -/
theorem word?_eq_some {entries : List Entry} {name : Bytes} {e : Entry} :
    word? entries name = some e ↔ ∃ before after, entries = before ++ e :: after ∧
      e.SpelledBy name ∧ ∀ e' ∈ after, ¬e'.SpelledBy name := by
  rw [word?, List.find?_eq_some_iff_append]
  simp only [decide_eq_true_eq, Bool.not_eq_true', decide_eq_false_iff_not]
  constructor
  · rintro ⟨hspelled, after, before, hentries, hafter⟩
    refine ⟨before.reverse, after.reverse, ?_, hspelled, ?_⟩
    · rw [← List.reverse_reverse entries, hentries, List.reverse_append, List.reverse_cons,
        List.append_assoc, List.singleton_append]
    · exact fun e' he' => hafter e' (List.mem_reverse.mp he')
  · rintro ⟨before, after, rfl, hspelled, hafter⟩
    refine ⟨hspelled, after.reverse, before.reverse, ?_, ?_⟩
    · rw [List.reverse_append, List.reverse_cons, List.append_assoc, List.singleton_append]
    · exact fun e' he' => hafter e' (List.mem_reverse.mp he')

/-- A look-up is the search for the last word that a name spells. It finds the kind and the role of
the last entry that is no operator, is not empty and is the name up to the case of ASCII letters,
and nothing if there is no such entry. The limit on the length of names hides none of these entries,
and a name that fits into the buffer is looked up there as it is in a text of its own. -/
theorem keyword?_last (entries : List Entry) (name : Bytes) :
    (∀ word, (ofEntries entries).keyword? name = some word ↔
      ∃ before e after, entries = before ++ e :: after ∧ e.SpelledBy name ∧
        (∀ e' ∈ after, ¬e'.SpelledBy name) ∧ word = e.keyword) ∧
    ((ofEntries entries).keyword? name = none ↔ ∀ e ∈ entries, ¬e.SpelledBy name) ∧
    (∀ e ∈ entries, e.SpelledBy name → name.length ≤ (ofEntries entries).longestWord) ∧
    (name.length ≤ bufferSize →
      (ofEntries entries).words.find? ((buffer name).toList.take name.length) =
        (ofEntries entries).words.find? (Bytes.toUpper name)) := by
  rw [keyword?_eq]
  refine ⟨fun word => ?_, ?_, fun e he hspelled => ?_, fun hfits => ?_⟩
  · constructor
    · intro hword
      obtain ⟨e, hlast, rfl⟩ := Option.map_eq_some_iff.mp hword
      obtain ⟨before, after, hentries, hspelled, hafter⟩ := word?_eq_some.mp hlast
      exact ⟨before, e, after, hentries, hspelled, hafter, rfl⟩
    · rintro ⟨before, e, after, hentries, hspelled, hafter, rfl⟩
      rw [word?_eq_some.mpr ⟨before, after, hentries, hspelled, hafter⟩, Option.map_some]
  · rw [Option.map_eq_none_iff, word?, List.find?_eq_none]
    simp only [List.mem_reverse, decide_eq_true_eq]
  · rw [hspelled.length_eq]
    exact length_le_longestWord entries e he hspelled.1
  · rw [take_buffer hfits]

/-- Two words that differ in case alone have one spelling, under which the later one is found, both
by a short name and by one that does not fit into the buffer; an operator with the same text is no
word. -/
theorem keyword?_last_case : ∃ entries : List Entry, ∃ short long : Bytes,
    entries = [⟨"rank", .selectWord, .keyword⟩, ⟨"Rank", .notWord, .windowFunction⟩,
      ⟨"RANK", .pipes, .operator⟩, ⟨.ofList (.replicate 65 'a'), .forWord, .keyword⟩] ∧
    short = [0x72, 0x41, 0x6E, 0x4B] ∧ long = List.replicate 65 0x41 ∧
    short.length ≤ bufferSize ∧ bufferSize < long.length ∧
    (∃ e ∈ entries, e.SpelledBy short ∧ short.length ≤ (ofEntries entries).longestWord) ∧
    (ofEntries entries).words.find? ((buffer short).toList.take short.length) =
      (ofEntries entries).words.find? (Bytes.toUpper short) ∧
    (ofEntries entries).keyword? short = some ⟨.notWord, .windowFunction⟩ ∧
    (ofEntries entries).keyword? long = some ⟨.forWord, .keyword⟩ := by
  obtain ⟨entries, hentries⟩ : ∃ entries : List Entry, entries =
      [⟨"rank", .selectWord, .keyword⟩, ⟨"Rank", .notWord, .windowFunction⟩,
        ⟨"RANK", .pipes, .operator⟩, ⟨.ofList (.replicate 65 'a'), .forWord, .keyword⟩] := ⟨_, rfl⟩
  have hsecond : (⟨"Rank", .notWord, .windowFunction⟩ : Entry).SpelledBy [0x72, 0x41, 0x6E, 0x4B] ∧
      ∀ e ∈ entries.drop 2, ¬e.SpelledBy [0x72, 0x41, 0x6E, 0x4B] := by
    rw [hentries]
    decide +kernel
  have hlast : (⟨.ofList (.replicate 65 'a'), .forWord, .keyword⟩ : Entry).SpelledBy
      (List.replicate 65 0x41) := by
    decide +kernel
  obtain ⟨hshort, -, hcut, hbuffer⟩ := keyword?_last entries [0x72, 0x41, 0x6E, 0x4B]
  obtain ⟨hlong, -⟩ := keyword?_last entries (List.replicate 65 0x41)
  have hmem : (⟨"Rank", .notWord, .windowFunction⟩ : Entry) ∈ entries := by
    rw [hentries]
    simp
  refine ⟨entries, _, _, hentries, rfl, rfl, by decide, by decide,
    ⟨_, hmem, hsecond.1, hcut _ hmem hsecond.1⟩, hbuffer (by decide), ?_, ?_⟩
  · exact (hshort _).mpr ⟨entries.take 1, _, entries.drop 2, by rw [hentries]; rfl, hsecond.1,
      hsecond.2, rfl⟩
  · exact (hlong _).mpr ⟨entries.take 3, _, [], by rw [hentries]; rfl, hlast, by simp, rfl⟩

end Table

/-! ## The standard vocabulary -/

/-- Every word of the vocabulary is found by its text, and none starts with an underscore. -/
theorem Vocabulary.standard_words : ∀ e ∈ standard, e.role ≠ .operator →
    Table.standard.keyword? e.bytes = some e.keyword ∧
      (Bytes.toUpper e.bytes).head? ≠ some 0x5F := by
  decide +kernel

namespace Entry

variable {e : Entry} {name : Bytes}

/-- A name that spells a word of the vocabulary is found as that word. -/
theorem SpelledBy.keyword?_eq (h : e.SpelledBy name) (he : e ∈ Vocabulary.standard) :
    Table.standard.keyword? name = some e.keyword := by
  rw [← Table.standard.keyword?_congr (Bytes.sameLetters_iff.mp h.2.2)]
  exact (Vocabulary.standard_words e he h.1).1

/-- A name that spells a word of the vocabulary does not start with an underscore. -/
theorem SpelledBy.head?_ne (h : e.SpelledBy name) (he : e ∈ Vocabulary.standard) :
    name.head? ≠ some 0x5F := by
  intro hhead
  refine (Vocabulary.standard_words e he h.1).2 ?_
  rw [Bytes.sameLetters_iff.mp h.2.2, Bytes.toUpper, List.head?_map, hhead]
  rfl

end Entry

end SqlTokens
