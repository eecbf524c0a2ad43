import Mathlib.Data.Nat.Find
import SqlTokens.Proofs.Codec
import SqlTokens.Proofs.Kinds
import SqlTokens.Proofs.Tries

/-!
# The longest operator

A walk through a table reads as many bytes as lead on in its trie, and never turns back. Without the
trie this is a search among the texts of the vocabulary: the walk reads the longest beginning of an
operator that comes next, as far as that is ASCII without NUL (`longest`), and gives it the kind of
the last operator with exactly this text, or that of malformed tokens. A step of the walk is one
place further down (`Deepest`), whose texts are those of `places`.

If every beginning of an operator is an operator, what is read is the longest operator that comes
next, one with a NUL apart: NUL is no character of a source, and an operator with one is never read
to its end.
-/

namespace SqlTokens

/-- Bytes that are passed over are counted by the offset. -/
theorem Cursor.Reaches.offset_eq {c d : Cursor} (h : c.Reaches d) (hne : c.upTo d ≠ []) :
    d.offset = c.offset + (c.upTo d).length := by
  have hahead : c.ahead ≠ [] := fun hnil => hne (by rw [upTo, hnil, List.take_nil])
  have hlt : c.offset < c.source.length :=
    atEnd_eq_false_iff.mp (Bool.eq_false_iff.mpr (mt atEnd_iff_ahead.mp hahead))
  have hlength := h.length_upTo (h.le_length (Nat.le_of_lt hlt))
  have hle := h.offset_le
  omega

namespace Table

/-- Whether a text has only bytes that are runes by themselves. -/
def IsPlain (p : Bytes) : Prop := ∀ b ∈ p, b ≠ 0 ∧ b < 0x80

instance (p : Bytes) : Decidable (IsPlain p) :=
  inferInstanceAs (Decidable (∀ b ∈ p, b ≠ 0 ∧ b < 0x80))

/-- Whether a text is the beginning of an operator, and not empty. -/
def Begins (entries : List Entry) (p : Bytes) : Prop :=
  p ≠ [] ∧ ∃ e ∈ operators entries, p <+: e.bytes

instance (entries : List Entry) (p : Bytes) : Decidable (Begins entries p) :=
  inferInstanceAs (Decidable (_ ∧ _))

/-- The length of the longest beginning of an operator that comes next and is plain; zero if there
is none. -/
def longest (entries : List Entry) (ahead : Bytes) : Nat :=
  Nat.findGreatest (fun n => IsPlain (ahead.take n) ∧ Begins entries (ahead.take n)) ahead.length

/-- Whether every beginning of an operator is an operator. -/
def Closed (entries : List Entry) : Prop :=
  ∀ e ∈ operators entries, ∀ p, p ≠ [] → p <+: e.bytes → p ≠ e.bytes →
    ∃ e' ∈ operators entries, e'.bytes = p

/-! ## The way down the trie -/

/-- A text that comes next, is plain and leads somewhere in a trie, and than which none is longer
that does. -/
structure Deepest (forms : Trie Form) (ahead p : Bytes) : Prop where
  /-- The text comes next. -/
  next : p <+: ahead
  /-- It is plain. -/
  plain : IsPlain p
  /-- It leads somewhere. -/
  leads : forms.Leads p
  /-- No other such text is longer. -/
  length_le : ∀ q, q <+: ahead → IsPlain q → forms.Leads q → q.length ≤ p.length

/-- Where no rune leads on, the way ends. -/
theorem deepest_of_none {forms : Trie Form} {c : Cursor} (h : follow? forms c = none) :
    Deepest forms c.ahead [] where
  next := List.nil_prefix
  plain := by simp [IsPlain]
  leads := trivial
  length_le := by
    rintro (_ | ⟨b, q⟩) hnext hplain hleads
    · exact Nat.le_refl 0
    · -- The first byte of a longer text would lead on.
      obtain ⟨rest, hrest⟩ := hnext
      obtain ⟨h0, hascii⟩ := hplain b List.mem_cons_self
      have hrune : c.rune.ascii? = some b := ascii?_rune_iff.mpr ⟨h0, hascii, by rw [← hrest]; rfl⟩
      rw [follow?, hrune, Option.bind_some] at h
      rw [Trie.Leads, h] at hleads
      exact hleads.elim

/-- Where a rune leads on, the way goes on below. -/
theorem deepest_of_some {forms below : Trie Form} {value : Option Form} {c : Cursor} {p : Bytes}
    (h : follow? forms c = some (value, below)) (hp : Deepest below c.advance.ahead p) :
    ∃ b, forms.child? b = some (value, below) ∧ c.upTo c.advance = [b] ∧
      Deepest forms c.ahead (b :: p) := by
  obtain ⟨b, hb, hchild⟩ := Option.bind_eq_some_iff.mp h
  obtain ⟨h0, hascii, hhead⟩ := ascii?_rune_iff.mp hb
  obtain ⟨hup, hahead⟩ := Cursor.upTo_advance_of_head? hascii hhead
  refine ⟨b, hchild, hup, ?_, ?_, ?_, ?_⟩
  · rw [hahead]
    exact List.cons_prefix_cons.mpr ⟨rfl, hp.next⟩
  · exact List.forall_mem_cons.mpr ⟨⟨h0, hascii⟩, hp.plain⟩
  · rw [Trie.Leads, hchild]
    exact hp.leads
  · rintro (_ | ⟨b', q⟩) hnext hplain hleads
    · exact Nat.zero_le _
    · rw [hahead] at hnext
      obtain ⟨rfl, hq⟩ := List.cons_prefix_cons.mp hnext
      rw [Trie.Leads, hchild] at hleads
      exact Nat.succ_le_succ (hp.length_le q hq (List.forall_mem_cons.mp hplain).2 hleads)

/-- Following the trie reads the deepest text. -/
theorem deepest_descend (value : Option Form) (below : Trie Form) (c : Cursor) :
    Deepest below c.ahead (c.upTo (descend value below c).2) := by
  fun_induction descend value below c with
  | case1 value below c hfollow =>
    rw [Cursor.upTo_self]
    exact deepest_of_none hfollow
  | case2 value below c value' below' hfollow ih =>
    obtain ⟨b, -, hup, hdeep⟩ := deepest_of_some hfollow ih
    rw [(descend_reaches value' below' c.advance).upTo_eq_cons hup]
    exact hdeep

/-! ## The walk -/

variable {entries : List Entry} {c stop : Cursor}

/-- If no starter comes next, the texts that come next and lead somewhere are the beginnings of
operators. -/
theorem leads_iff_begins {ahead p : Bytes} (hstart : ∀ b ∈ ahead.head?, Starter.ofByte? b = none)
    (hp : p ≠ []) (hnext : p <+: ahead) :
    (ofEntries entries).forms.Leads p ↔ Begins entries p := by
  rw [leads_ofEntries entries hp, mem_places, Begins]
  refine and_congr_right fun _ => or_iff_right ?_
  -- A starter leads to its own byte only, which would come next.
  rintro ⟨b, hstarter, hb⟩
  obtain ⟨b', q, rfl⟩ := List.exists_cons_of_ne_nil hp
  obtain ⟨rfl, -⟩ := List.cons_prefix_cons.mp hb
  obtain ⟨rest, rfl⟩ := hnext
  rw [hstart b' rfl] at hstarter
  cases hstarter

/-- If no starter comes next, the deepest text in a table is the longest beginning of an
operator. -/
theorem Deepest.length_eq {ahead p : Bytes}
    (hstart : ∀ b ∈ ahead.head?, Starter.ofByte? b = none)
    (h : Deepest (ofEntries entries).forms ahead p) : longest entries ahead = p.length := by
  have htake : ahead.take p.length = p := (List.prefix_iff_eq_take.mp h.next).symm
  rw [Table.longest, Nat.findGreatest_eq_iff, htake]
  refine ⟨h.next.length_le, fun hne => ⟨h.plain, ?_⟩, fun n hlt hle hn => ?_⟩
  · have hp : p ≠ [] := fun hnil => hne (by rw [hnil, List.length_nil])
    exact (leads_iff_begins hstart hp h.next).mp h.leads
  · -- A longer one would lead somewhere too.
    obtain ⟨hplain, hbegins⟩ := hn
    have hnext := List.take_prefix n ahead
    have hlong := h.length_le _ hnext hplain ((leads_iff_begins hstart hbegins.1 hnext).mpr hbegins)
    rw [List.length_take, Nat.min_eq_left hle] at hlong
    exact Nat.not_lt.mpr hlong hlt

/-- Where a rune leads on to no starter, a walk goes on from there. -/
theorem walk_of_some {t : Table} {value : Option Form} {below : Trie Form}
    (h : follow? t.forms c = some (value, below)) (hvalue : ∀ s, value ≠ some (.starter s)) :
    t.walk c =
      (.fixed (descend value below c.advance).1, (descend value below c.advance).2) := by
  rw [walk, h]
  rcases value with _ | ⟨s | kind⟩
  · rfl
  · exact absurd rfl (hvalue s)
  · rfl

/-- If no starter comes next, a walk reads the deepest text and gives it the kind of its place; if
that is empty, it finds nothing. -/
theorem walk_deepest (entries : List Entry)
    (hstart : ∀ b ∈ c.ahead.head?, Starter.ofByte? b = none) :
    ∃ stop, c.Reaches stop ∧ Deepest (ofEntries entries).forms c.ahead (c.upTo stop) ∧
      (ofEntries entries).walk c =
        if c.upTo stop = [] then (.none, c)
        else (.fixed (kindOf ((ofEntries entries).form? (c.upTo stop))), stop) := by
  rcases hfollow : follow? (ofEntries entries).forms c with _ | ⟨value, below⟩
  · refine ⟨c, .refl c, ?_, ?_⟩
    · rw [Cursor.upTo_self]
      exact deepest_of_none hfollow
    · rw [walk, hfollow, if_pos (Cursor.upTo_self c)]
  · obtain ⟨b, hchild, hup, hdeep⟩ := deepest_of_some hfollow (deepest_descend value below _)
    have hreach := descend_reaches value below c.advance
    have htext := hreach.upTo_eq_cons hup
    -- The byte that leads on is no starter.
    have hvalue (s : Starter) : value ≠ some (.starter s) := by
      rintro rfl
      have hfind : (ofEntries entries).form? [b] = some (.starter s) := by
        rw [form?, find?_singleton, hchild]
        rfl
      obtain ⟨rest, hrest⟩ := hdeep.next
      rw [form?_starter_iff, hstart b (by rw [← hrest]; rfl)] at hfind
      cases hfind
    refine ⟨_, (Cursor.Reaches.next c).trans hreach, ?_, ?_⟩
    · rw [htext]
      exact hdeep
    · rw [htext, if_neg (List.cons_ne_nil _ _), form?, Trie.find?, hchild,
        walk_of_some hfollow hvalue, kind_descend]

/-- If no starter comes next, the place of a text that comes next has the kind of the last operator
with the text. -/
theorem kindOf_form? {ahead p : Bytes} (hstart : ∀ b ∈ ahead.head?, Starter.ofByte? b = none)
    (hp : p ≠ []) (hnext : p <+: ahead) :
    kindOf ((ofEntries entries).form? p) =
      ((operator? entries p).map Entry.kind).getD .invalid := by
  obtain ⟨b, q, rfl⟩ := List.exists_cons_of_ne_nil hp
  obtain ⟨rest, rfl⟩ := hnext
  have hnone : starter? (b :: q) = none := by
    rcases q with _ | ⟨b', q⟩
    · exact hstart b rfl
    · rfl
  rw [form?_eq, hnone]
  simp only [if_neg hp]
  rcases operator? entries (b :: q) with _ | e
  · rfl
  · rfl

/-- The last operator with a text is an operator with the text. -/
theorem mem_of_operator? {p : Bytes} {e : Entry} (h : operator? entries p = some e) :
    e ∈ operators entries ∧ e.bytes = p := by
  have hmem := List.mem_of_getLast? h
  exact ⟨List.mem_of_mem_filter hmem, of_decide_eq_true (List.mem_filter.mp hmem).2⟩

/-- Of the operators with a text one is the last. -/
theorem exists_operator? {p : Bytes} {e : Entry} (he : e ∈ operators entries) (h : e.bytes = p) :
    ∃ e', operator? entries p = some e' := by
  have hmem : e ∈ (operators entries).filter (·.bytes = p) :=
    List.mem_filter.mpr ⟨he, decide_eq_true h⟩
  exact ⟨_, List.getLast?_eq_some_getLast (List.ne_nil_of_mem hmem)⟩

/-- Where a starter comes next, a walk finds it and reads nothing. -/
theorem walk_of_starter {b : UInt8} {s : Starter} (hhead : c.ahead.head? = some b)
    (hs : Starter.ofByte? b = some s) : (ofEntries entries).walk c = (.starter s, c) := by
  have hfound := (walk_starter_iff entries c s).mpr ⟨b, hhead, hs⟩
  rcases hfollow : follow? (ofEntries entries).forms c with _ | ⟨_ | ⟨s' | kind⟩, below⟩
  · rw [walk, hfollow] at hfound
    cases hfound
  · rw [walk_of_some hfollow (by simp)] at hfound
    cases hfound
  · rw [walk, hfollow] at hfound ⊢
    cases hfound
    rfl
  · rw [walk_of_some hfollow (by simp)] at hfound
    cases hfound

/-- Only where no starter comes next does a walk read an operator. -/
theorem starter_of_fixed {kind : TokenKind} (h : (ofEntries entries).walk c = (.fixed kind, stop)) :
    ∀ b ∈ c.ahead.head?, Starter.ofByte? b = none := by
  intro b hb
  rcases hs : Starter.ofByte? b with _ | s
  · rfl
  · rw [walk_of_starter hb hs] at h
    cases h

end Table

/-! ## Vocabularies with all beginnings -/

/-- A character is written with no byte above ASCII, or with at least two. -/
theorem Utf8.countP_encodeChar (ch : Char) :
    (String.utf8EncodeChar ch).countP (0x80 ≤ ·) = 0 ∨
      2 ≤ (String.utf8EncodeChar ch).countP (0x80 ≤ ·) := by
  have hvalid : ch.toNat < 0xD800 ∨ 0xDFFF < ch.toNat ∧ ch.toNat < 0x110000 := ch.valid
  have hhigh (n : Nat) (h : 0x80 ≤ n ∧ n < 0x100) : (0x80 : UInt8) ≤ UInt8.ofNat n := by
    rw [UInt8.le_iff_toNat_le, toNat_ofNat_of_lt h.2]
    exact h.1
  -- In a sequence of several bytes all lie above ASCII.
  have hall {bytes : Bytes} (hlen : 2 ≤ bytes.length) (h : ∀ b ∈ bytes, 0x80 ≤ b) :
      2 ≤ bytes.countP (0x80 ≤ ·) := by
    rwa [List.countP_eq_length.mpr (by simpa using h)]
  rcases Nat.lt_or_ge ch.toNat 0x80 with h1 | h1
  · refine .inl (List.countP_eq_zero.mpr ?_)
    rw [encodeChar_one h1, List.forall_mem_singleton, decide_eq_true_iff, UInt8.le_iff_toNat_le,
      toNat_ofNat_of_lt (by omega)]
    exact Nat.not_le.mpr h1
  · refine .inr ?_
    rcases Nat.lt_or_ge ch.toNat 0x800 with h2 | h2
    · rw [encodeChar_two ⟨h1, by omega⟩]
      refine hall (by simp) ?_
      simp only [List.forall_mem_cons, List.not_mem_nil, false_implies, implies_true, and_true]
      exact ⟨hhigh _ (by omega), hhigh _ (by omega)⟩
    · rcases Nat.lt_or_ge ch.toNat 0x10000 with h3 | h3
      · rw [encodeChar_three ⟨h2, by omega⟩]
        refine hall (by simp) ?_
        simp only [List.forall_mem_cons, List.not_mem_nil, false_implies, implies_true, and_true]
        exact ⟨hhigh _ (by omega), hhigh _ (by omega), hhigh _ (by omega)⟩
      · rw [encodeChar_four h3]
        refine hall (by simp) ?_
        simp only [List.forall_mem_cons, List.not_mem_nil, false_implies, implies_true, and_true]
        exact ⟨hhigh _ (by omega), hhigh _ (by omega), hhigh _ (by omega), hhigh _ (by omega)⟩

/-- No string has a single byte above ASCII. -/
theorem Bytes.countP_ofString_ne_one (s : String) : (ofString s).countP (0x80 ≤ ·) ≠ 1 := by
  rw [ofString]
  induction s.toList with
  | nil => decide
  | cons ch chars ih =>
    rw [List.flatMap_cons, List.countP_append]
    rcases Utf8.countP_encodeChar ch with h | h <;> omega

namespace Table

/-- Whether all beginnings are there is a matter of finitely many texts. -/
theorem closed_iff {entries : List Entry} : Closed entries ↔
    ∀ e ∈ operators entries, ∀ p ∈ e.bytes.inits, p ≠ [] → p ≠ e.bytes →
      ∃ e' ∈ operators entries, e'.bytes = p := by
  simp only [Closed, List.mem_inits]
  exact forall₃_congr fun e _ p => forall_comm

instance (entries : List Entry) : Decidable (Closed entries) :=
  decidable_of_iff _ closed_iff.symm

/-- With all beginnings of its operators a vocabulary has no operator above ASCII: its beginning up
to the first byte there would end inside a character. -/
theorem Closed.ascii {entries : List Entry} (h : Closed entries) {e : Entry}
    (he : e ∈ operators entries) : ∀ b ∈ e.bytes, b < 0x80 := by
  by_contra hnot
  obtain ⟨b, rest, hrest⟩ : ∃ b rest, e.bytes.dropWhile (· < 0x80) = b :: rest := by
    refine List.exists_cons_of_ne_nil fun hnil => hnot fun b hb => ?_
    exact of_decide_eq_true (List.dropWhile_eq_nil_iff.mp hnil b hb)
  have hb : 0x80 ≤ b := by
    have hhead := List.head?_dropWhile_not (· < 0x80) e.bytes
    simpa [hrest] using hhead
  have hcount : (e.bytes.takeWhile (· < 0x80) ++ [b]).countP (0x80 ≤ ·) = 1 := by
    have hascii : (e.bytes.takeWhile (· < 0x80)).countP (0x80 ≤ ·) = 0 := by
      rw [List.countP_eq_zero]
      intro x hx
      simpa using List.mem_takeWhile_imp hx
    rw [List.countP_append, hascii, List.countP_singleton, if_pos (by simpa using hb)]
  have hnext : e.bytes.takeWhile (· < 0x80) ++ [b] <+: e.bytes := by
    refine ⟨rest, ?_⟩
    rw [List.append_assoc, List.singleton_append, ← hrest, List.takeWhile_append_dropWhile]
  by_cases hall : e.bytes.takeWhile (· < 0x80) ++ [b] = e.bytes
  · rw [hall] at hcount
    exact Bytes.countP_ofString_ne_one e.text hcount
  · obtain ⟨e', -, he'⟩ := h e he _ (by simp) hnext hall
    rw [← he'] at hcount
    exact Bytes.countP_ofString_ne_one e'.text hcount

/-- With all beginnings, what begins an operator is one. -/
theorem Closed.exists_operator? {entries : List Entry} (h : Closed entries) {p : Bytes}
    (hp : Begins entries p) : ∃ e, operator? entries p = some e := by
  obtain ⟨hne, e, he, hbegins⟩ := hp
  by_cases hall : p = e.bytes
  · exact Table.exists_operator? he hall.symm
  · obtain ⟨e', he', htext⟩ := h e he p hne hbegins hall
    exact Table.exists_operator? he' htext

/-- With all beginnings, an operator that is read is the longest one without NUL that comes
next. -/
theorem Closed.longest_of_walk {entries : List Entry} (h : Closed entries) {c stop : Cursor}
    {kind : TokenKind} (hwalk : (ofEntries entries).walk c = (.fixed kind, stop)) :
    ∃ e, operator? entries (c.upTo stop) = some e ∧ e.kind = kind ∧ e.bytes = c.upTo stop ∧
      0 ∉ e.bytes ∧ ∀ e' ∈ operators entries, 0 ∉ e'.bytes → e'.bytes <+: c.ahead →
        e'.bytes.length ≤ e.bytes.length := by
  have hstart := starter_of_fixed hwalk
  obtain ⟨stop', -, hdeep, hread⟩ := walk_deepest entries hstart
  rw [hwalk] at hread
  by_cases hempty : c.upTo stop' = []
  · rw [if_pos hempty] at hread
    cases hread
  · rw [if_neg hempty, kindOf_form? hstart hempty hdeep.next] at hread
    obtain ⟨hkind, rfl⟩ := Prod.mk.inj hread
    obtain ⟨e, hlast⟩ :=
      h.exists_operator? ((leads_iff_begins hstart hempty hdeep.next).mp hdeep.leads)
    obtain ⟨-, htext⟩ := mem_of_operator? hlast
    rw [hlast] at hkind
    refine ⟨e, hlast, (Walk.fixed.inj hkind).symm, htext, ?_⟩
    rw [htext]
    refine ⟨fun h0 => (hdeep.plain 0 h0).1 rfl, fun e' he' h0 hnext => ?_⟩
    -- A longer operator without NUL would be plain, and the walk would go on along it.
    have hplain : IsPlain e'.bytes := fun b hb => ⟨fun hb0 => h0 (hb0 ▸ hb), h.ascii he' b hb⟩
    by_cases hnil : e'.bytes = []
    · rw [hnil]
      exact Nat.zero_le _
    · exact hdeep.length_le _ hnext hplain ((leads_iff_begins hstart hnil hnext).mpr
        ⟨hnil, e', he', List.prefix_refl _⟩)

/-- A walk is the search for the longest beginning of an operator. Where a starter comes next, it
finds the starter and reads nothing. Otherwise it reads the longest beginning of an operator that
comes next, as far as that is ASCII without NUL, and gives it the kind of the last operator with
this text, or that of malformed tokens if there is none; and without such a beginning it finds and
reads nothing. If every beginning of an operator is an operator, what is read is the longest
operator without NUL that comes next. -/
theorem walk_longest (entries : List Entry) (c : Cursor) :
    (∀ b s, c.ahead.head? = some b → Starter.ofByte? b = some s →
      (ofEntries entries).walk c = (.starter s, c)) ∧
    ((∀ b ∈ c.ahead.head?, Starter.ofByte? b = none) →
      if longest entries c.ahead = 0 then (ofEntries entries).walk c = (.none, c)
      else ∃ stop, c.Reaches stop ∧ stop.offset = c.offset + longest entries c.ahead ∧
        (ofEntries entries).walk c =
          (.fixed (((operator? entries (c.ahead.take (longest entries c.ahead))).map
            Entry.kind).getD .invalid), stop)) ∧
    (Closed entries → ∀ kind stop, (ofEntries entries).walk c = (.fixed kind, stop) →
      ∃ e, operator? entries (c.upTo stop) = some e ∧ e.kind = kind ∧
        e.bytes = c.upTo stop ∧ 0 ∉ e.bytes ∧
        ∀ e' ∈ operators entries, 0 ∉ e'.bytes → e'.bytes <+: c.ahead →
          e'.bytes.length ≤ e.bytes.length) := by
  refine ⟨fun b s => walk_of_starter, fun hstart => ?_, fun h kind stop => h.longest_of_walk⟩
  obtain ⟨stop, hreach, hdeep, hwalk⟩ := walk_deepest entries hstart
  have htake : c.ahead.take (c.upTo stop).length = c.upTo stop :=
    (List.prefix_iff_eq_take.mp hdeep.next).symm
  rw [hwalk, hdeep.length_eq hstart, htake]
  by_cases hempty : c.upTo stop = []
  · rw [if_pos (List.length_eq_zero_iff.mpr hempty), if_pos hempty]
  · rw [if_neg (mt List.length_eq_zero_iff.mp hempty), if_neg hempty,
      kindOf_form? hstart hempty hdeep.next]
    exact ⟨stop, hreach, hreach.offset_eq hempty, rfl⟩

/-- Behind its first byte an operator may have a byte that opens a form: `=ab` is read as the
longest operator `=a`, and the name `b` is left. -/
theorem walk_longest_letter : ∃ entries stop,
    entries = [⟨"=", .ofChar '=', .operator⟩, ⟨"=a", .pipes, .operator⟩] ∧ Closed entries ∧
      (ofEntries entries).walk (.start [0x3D, 0x61, 0x62]) = (.fixed .pipes, stop) ∧
      stop.offset = 2 ∧
      (∃ e : Entry, e.kind = .pipes ∧ ∀ e' ∈ operators entries, 0 ∉ e'.bytes →
        e'.bytes <+: [0x3D, 0x61, 0x62] → e'.bytes.length ≤ e.bytes.length) ∧
      (ofEntries entries).walk (.start [0x62]) = (.starter .bitMark, .start [0x62]) := by
  obtain ⟨entries, hentries⟩ : ∃ entries : List Entry,
      entries = [⟨"=", .ofChar '=', .operator⟩, ⟨"=a", .pipes, .operator⟩] := ⟨_, rfl⟩
  have hclosed : Closed entries := by
    rw [hentries]
    decide +kernel
  have hlength : longest entries (Cursor.start [0x3D, 0x61, 0x62]).ahead = 2 := by
    rw [hentries]
    decide +kernel
  have hkind : ((operator? entries
      ((Cursor.start [0x3D, 0x61, 0x62]).ahead.take 2)).map Entry.kind).getD .invalid = .pipes := by
    rw [hentries]
    decide +kernel
  obtain ⟨-, hfixed, hlongest⟩ := walk_longest entries (.start [0x3D, 0x61, 0x62])
  obtain ⟨hstarter, -, -⟩ := walk_longest entries (.start [0x62])
  have hplain : ∀ b ∈ (Cursor.start [0x3D, 0x61, 0x62]).ahead.head?,
      Starter.ofByte? b = none := by
    rintro b ⟨⟩
    decide
  rw [hlength, if_neg (by decide), hkind] at hfixed
  obtain ⟨stop, -, hoffset, hwalk⟩ := hfixed hplain
  obtain ⟨e, -, he, -, -, hlong⟩ := hlongest hclosed _ _ hwalk
  exact ⟨entries, stop, hentries, hclosed, hwalk, hoffset, ⟨e, he, hlong⟩,
    hstarter 0x62 .bitMark rfl (by decide)⟩

/-- An operator with a NUL is passed by for its beginning, also if that is an operator. -/
theorem walk_before_nul : ∃ entries c stop,
    entries = [⟨"=", .ofChar '=', .operator⟩, ⟨"=\x00", .pipes, .operator⟩] ∧ Closed entries ∧
      c = Cursor.start [0x3D, 0x00] ∧
      (ofEntries entries).walk c = (.fixed (.ofChar '='), stop) ∧
      ∃ e ∈ operators entries, e.bytes <+: c.ahead ∧ (c.upTo stop).length < e.bytes.length := by
  refine ⟨_, _, (Cursor.start [0x3D, 0x00]).advance, rfl, ?_, rfl, ?_, ?_⟩
  · decide +kernel
  · decide +kernel
  · decide +kernel

end Table

end SqlTokens
