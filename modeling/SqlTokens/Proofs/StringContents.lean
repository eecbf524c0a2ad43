import SqlTokens.Proofs.Copies
import SqlTokens.Scanner.Step

/-!
# The contents of strings

A string is read rune by rune, and its text is copied in runs. What it stands for can be said byte
by byte: `Bytes.string?` is such a reading of the bytes behind the opening quote, and knows neither
runes nor runs. The two agree because the quotes, the backslash and the letters behind it are ASCII:
each is a rune by itself, and no byte of a longer rune is one of them. `Starter.outcome_string` says
so for whatever bytes follow the quote.
-/

namespace SqlTokens

/-! ## Byte by byte -/

namespace Bytes

/-- What a byte stands for behind a backslash. -/
def unescape (b : UInt8) : Bytes :=
  if b = 0x6E then [0x0A]
  else if b = 0x74 then [0x09]
  else if b = 0x72 then [0x0D]
  else if b = 0x62 then [0x08]
  else if b = 0x30 then [0x00]
  else if b = 0x5A then [0x1A]
  else if b = 0x25 ∨ b = 0x5F then [0x5C, b]
  else [b]

/-- A reading of a string with more in front of its text. -/
def prepend (front : Bytes) (reading : Option (Bytes × Bytes)) : Option (Bytes × Bytes) :=
  reading.map fun read => (front ++ read.1, read.2)

/-- The text of a string and the bytes behind its closing quote, read byte by byte behind the
opening quote; none if no quote closes it. -/
def string? (quote : UInt8) (escapes : Bool) : Bytes → Option (Bytes × Bytes)
  | [] => none
  | [b] => if b = quote then some ([], []) else none
  | b :: e :: rest =>
    if b = quote then
      if e = quote then prepend [quote] (string? quote escapes rest) else some ([], e :: rest)
    else if escapes && b == 0x5C then prepend (unescape e) (string? quote escapes rest)
    else prepend [b] (string? quote escapes (e :: rest))

/-- More in front of more is more in front. -/
theorem prepend_prepend (front next : Bytes) (reading : Option (Bytes × Bytes)) :
    prepend front (prepend next reading) = prepend (front ++ next) reading := by
  cases reading with
  | none => rfl
  | some read =>
    rw [prepend, prepend, prepend, Option.map_some, Option.map_some, Option.map_some,
      List.append_assoc]

/-- Nothing in front changes nothing. -/
theorem prepend_nil (reading : Option (Bytes × Bytes)) : prepend [] reading = reading := by
  cases reading with
  | none => rfl
  | some => rfl

variable {quote : UInt8} {escapes : Bool}

/-- Nothing closes behind the last byte, and so it is not looked at. -/
theorem string?_last {b : UInt8} (hquote : b ≠ quote) : string? quote escapes [b] = none := by
  rw [string?, if_neg hquote]

/-- A byte that is neither the quote nor an escape stands for itself. -/
theorem string?_plain {b : UInt8} (hquote : b ≠ quote) (hslash : (escapes && b == 0x5C) = false)
    (rest : Bytes) :
    string? quote escapes (b :: rest) = prepend [b] (string? quote escapes rest) := by
  cases rest with
  | nil =>
    rw [string?_last hquote]
    rfl
  | cons e rest => rw [string?, if_neg hquote, hslash, if_neg Bool.false_ne_true]

/-- So do bytes above ASCII. -/
theorem string?_high (hascii : quote < 0x80) {bytes : Bytes} (hhigh : ∀ x ∈ bytes, 0x80 ≤ x)
    (rest : Bytes) :
    string? quote escapes (bytes ++ rest) = prepend bytes (string? quote escapes rest) := by
  induction bytes with
  | nil => exact (prepend_nil _).symm
  | cons b bytes ih =>
    obtain ⟨hb, hbytes⟩ := List.forall_mem_cons.mp hhigh
    have hne (x : UInt8) (hx : x < 0x80) : b ≠ x := by
      rintro rfl
      exact absurd hb (UInt8.not_le.mpr hx)
    have hslash : (escapes && b == 0x5C) = false := by
      rw [beq_false_of_ne (hne 0x5C (by decide)), Bool.and_false]
    rw [List.cons_append, string?_plain (hne quote hascii) hslash, ih hbytes, prepend_prepend,
      List.singleton_append]

/-- A backslash escapes the byte behind it. -/
theorem string?_escape (hquote : 0x5C ≠ quote) (b : UInt8) (rest : Bytes) :
    string? quote true (0x5C :: b :: rest) = prepend (unescape b) (string? quote true rest) := by
  rw [string?, if_neg hquote, if_pos (by decide)]

/-- A quote that does not stand twice closes. -/
theorem string?_closing {rest : Bytes} (h : rest.head? ≠ some quote) :
    string? quote escapes (quote :: rest) = some ([], rest) := by
  cases rest with
  | nil => rw [string?, if_pos rfl]
  | cons e rest =>
    have he : ¬e = quote := fun he => h (congrArg some he)
    rw [string?, if_pos rfl, if_neg he]

end Bytes

/-! ## Rune by rune -/

namespace Cursor

variable {c : Cursor}

/-- The bytes of a rune are its first byte and others above ASCII; behind ASCII there are none. -/
theorem exists_upTo_advance (h : c.atEnd = false) :
    ∃ b tail, c.upTo c.advance = b :: tail ∧ c.ahead = b :: (tail ++ c.advance.ahead) ∧
      (b < 0x80 → tail = []) ∧ ∀ x ∈ tail, 0x80 ≤ x := by
  have hne : c.ahead ≠ [] := fun hnil => by
    rw [atEnd_iff_ahead.mpr hnil] at h
    cases h
  obtain ⟨b, rest, hrest⟩ := List.exists_cons_of_ne_nil hne
  have hahead : c.ahead = c.upTo c.advance ++ c.advance.ahead := (Reaches.next c).ahead_eq
  have hbytes : c.upTo c.advance = b :: rest.take (c.width - 1) := by
    have hpos : 0 < c.width := by
      rw [width_eq]
      exact Rune.decode_width_pos hne
    rw [upTo_advance, hrest, ← Nat.sub_add_cancel hpos, List.take_succ_cons, Nat.add_sub_cancel]
  refine ⟨b, _, hbytes, by rw [hahead, hbytes, List.cons_append], fun hb => ?_, fun x hx => ?_⟩
  · rw [width_eq, hrest, Rune.decode_width_ascii hb, List.take_zero]
  · -- An ASCII byte would be the whole rune.
    rw [← UInt8.not_lt]
    intro hlow
    have hmem : x ∈ c.ahead.take (Rune.decode c.ahead).2 := by
      rw [← width_eq, ← upTo_advance, hbytes]
      exact List.mem_cons_of_mem b hx
    have hwidth := (Rune.eq_head_of_mem_take hlow hmem).2
    rw [width_eq, hwidth, List.take_zero] at hx
    cases hx

/-- Whether the rune at a cursor is a character of one byte is read off the next byte. -/
theorem is_eq_decide {ch : Char} (hch : Rune.IsByte ch) {b : UInt8} (h : c.ahead.head? = some b) :
    c.rune.is ch = decide (b = UInt8.ofNat ch.toNat) := by
  rw [Bool.eq_iff_iff, rune_is_iff hch, h, Option.some_inj, decide_eq_true_iff]

end Cursor

namespace Lexeme

/-- What a rune stands for behind a backslash is what its first byte stands for there, and the rest
of its bytes. -/
theorem escaped_eq {c : Cursor} {b : UInt8} {tail : Bytes} (hupTo : c.upTo c.advance = b :: tail)
    (hhead : c.ahead.head? = some b) (htail : b < 0x80 → tail = []) :
    escaped c = Bytes.unescape b ++ tail := by
  have hn : c.rune.is 'n' = decide (b = 0x6E) := Cursor.is_eq_decide (by decide) hhead
  have ht : c.rune.is 't' = decide (b = 0x74) := Cursor.is_eq_decide (by decide) hhead
  have hr : c.rune.is 'r' = decide (b = 0x72) := Cursor.is_eq_decide (by decide) hhead
  have hb : c.rune.is 'b' = decide (b = 0x62) := Cursor.is_eq_decide (by decide) hhead
  have h0 : c.rune.is '0' = decide (b = 0x30) := Cursor.is_eq_decide (by decide) hhead
  have hZ : c.rune.is 'Z' = decide (b = 0x5A) := Cursor.is_eq_decide (by decide) hhead
  have hpercent : c.rune.is '%' = decide (b = 0x25) := Cursor.is_eq_decide (by decide) hhead
  have hline : c.rune.is '_' = decide (b = 0x5F) := Cursor.is_eq_decide (by decide) hhead
  unfold escaped Bytes.unescape
  simp only [hn, ht, hr, hb, h0, hZ, hpercent, hline, hupTo, decide_eq_true_eq, Bool.or_eq_true]
  rcases UInt8.lt_or_le b 0x80 with hlow | hhigh
  · rw [htail hlow, List.append_nil]
  · -- No byte above ASCII has a meaning of its own.
    have hother (x : UInt8) (hx : x < 0x80) : b ≠ x := fun heq =>
      absurd hhigh (UInt8.not_le.mpr (heq ▸ hx))
    simp only [hother 0x6E (by decide), hother 0x74 (by decide), hother 0x72 (by decide),
      hother 0x62 (by decide), hother 0x30 (by decide), hother 0x5A (by decide),
      hother 0x25 (by decide), hother 0x5F (by decide), or_self, if_false, List.singleton_append]

/-- Reading rune by rune up to a closing quote comes to what reading byte by byte does. -/
theorem enclosed_string? {quote : UInt8} (h0 : quote ≠ 0) (hascii : quote < 0x80) (escapes : Bool)
    (c : Cursor) : Bytes.string? quote escapes c.ahead =
      (enclosed (.ofByte quote) escapes c).1.map
        (·, (enclosed (.ofByte quote) escapes c).2.ahead) := by
  have hiff (d : Cursor) := Cursor.rune_eq_ofByte_iff (c := d) h0 hascii
  have hmap (front : Bytes) (o : Option Bytes) (behind : Bytes) :
      (o.map (front ++ ·)).map (·, behind) = Bytes.prepend front (o.map (·, behind)) := by
    cases o with
    | none => rfl
    | some text => rfl
  fun_induction enclosed (.ofByte quote) escapes c with
  | case1 c hend =>
    rw [Cursor.atEnd_iff_ahead.mp hend]
    rfl
  | case2 c hend next hrune hnext rest ih =>
    obtain ⟨hupTo, hahead⟩ := Cursor.upTo_advance_of_head? hascii ((hiff c).mp hrune)
    have hahead' := (Cursor.upTo_advance_of_head? hascii ((hiff next).mp hnext)).2
    rw [hahead, hahead', Bytes.string?, if_pos rfl, if_pos rfl, ih, hupTo, hmap]
  | case3 c hend next hrune hnext =>
    have hahead := (Cursor.upTo_advance_of_head? hascii ((hiff c).mp hrune)).2
    rw [hahead, Bytes.string?_closing (mt (hiff next).mpr hnext)]
    rfl
  | case4 c hend next hrune hescape rest ih =>
    -- The backslash is one byte, and what it escapes is a rune whose first byte it escapes.
    rw [Bool.and_eq_true, Bool.and_eq_true, Bool.not_eq_true'] at hescape
    obtain ⟨⟨hescapes, hslash⟩, hnext⟩ := hescape
    have hahead := (Cursor.upTo_advance_of_is (by decide) hslash).2
    obtain ⟨b, tail, hupTo, hahead', htail, hhigh⟩ := Cursor.exists_upTo_advance hnext
    have hhead : next.ahead.head? = some b := by
      rw [hahead']
      rfl
    have hquote : 0x5C ≠ quote := by
      rintro rfl
      exact hrune (Rune.is_iff.mp hslash)
    rw [hmap, escaped_eq hupTo hhead htail, ← ih, hescapes, hahead,
      show c.advance.ahead = _ from hahead', ← Bytes.prepend_prepend,
      ← Bytes.string?_high hascii hhigh]
    exact Bytes.string?_escape hquote b _
  | case5 c hend next hrune hescape rest ih =>
    obtain ⟨b, tail, hupTo, hahead, htail, hhigh⟩ :=
      Cursor.exists_upTo_advance (Bool.eq_false_iff.mpr hend)
    have hquote : b ≠ quote := fun heq => hrune ((hiff c).mpr (by rw [hahead, ← heq]; rfl))
    rw [show c.upTo next = _ from hupTo, hmap, ← ih, hahead]
    rcases hslash : escapes && b == 0x5C with _ | _
    · rw [Bytes.string?_plain hquote hslash, Bytes.string?_high hascii hhigh,
        Bytes.prepend_prepend]
      rfl
    · -- A backslash escapes nothing at the end only, and from there no quote closes.
      obtain ⟨hescapes, hb⟩ := Bool.and_eq_true_iff.mp hslash
      have hb : b = 0x5C := eq_of_beq hb
      have hnext : next.ahead = [] := by
        have his : c.rune.is '\\' = true := (Cursor.rune_is_iff (by decide)).mpr (by
          rw [hahead, hb]
          rfl)
        rw [hescapes, his, Bool.true_and, Bool.true_and, Bool.not_eq_true, Bool.not_eq_false']
          at hescape
        exact Cursor.atEnd_iff_ahead.mp hescape
      rw [show c.advance.ahead = [] from hnext, htail (by rw [hb]; decide), List.append_nil,
        Bytes.string?_last hquote]
      rfl

/-- A quoted form is closed, with the text that reading byte by byte finds, if that finds one, and
broken up to the end otherwise. -/
theorem quoted_string? (kind : TokenKind) (error : ScanErrorKind) {quote : UInt8} (h0 : quote ≠ 0)
    (hascii : quote < 0x80) (escapes : Bool) {c : Cursor} {rest : Bytes}
    (hahead : c.ahead = quote :: rest) :
    ∃ stop, c.Reaches stop ∧
      enclosed (.ofByte quote) escapes c.advance =
        ((Bytes.string? quote escapes rest).map Prod.fst, stop) ∧
      match Bytes.string? quote escapes rest with
      | some (text, behind) =>
        stop.ahead = behind ∧ quoted kind error escapes c = ⟨kind, text, stop, none⟩
      | none => stop.ahead = [] ∧ quoted kind error escapes c = broken error c stop := by
  have hhead : c.ahead.head? = some quote := by
    rw [hahead]
    rfl
  have hrune : c.rune = .ofByte quote := (Cursor.rune_eq_ofByte_iff h0 hascii).mpr hhead
  have hnext : c.advance.ahead = rest := (Cursor.advance_of_ahead hascii hahead).2
  have hreads := enclosed_string? h0 hascii escapes c.advance
  have hreach := (Cursor.Reaches.next c).trans (enclosed_reaches (.ofByte quote) escapes c.advance)
  have hend (h : (enclosed (.ofByte quote) escapes c.advance).1 = none) := enclosed_atEnd h
  rw [quoted, hrune]
  rw [hnext] at hreads
  rcases hread : enclosed (.ofByte quote) escapes c.advance with ⟨_ | text, stop⟩
  · rw [hread] at hreads hreach hend
    rw [hreads]
    exact ⟨stop, hreach, rfl, Cursor.atEnd_iff_ahead.mp (hend rfl), rfl⟩
  · rw [hread] at hreads hreach
    rw [hreads]
    exact ⟨stop, hreach, rfl, rfl, rfl⟩

/-- A string is a quoted form. -/
theorem string_string? {quote : UInt8} (h0 : quote ≠ 0) (hascii : quote < 0x80) (escapes : Bool)
    {c : Cursor} {rest : Bytes} (hahead : c.ahead = quote :: rest) :
    ∃ stop, c.Reaches stop ∧
      enclosed (.ofByte quote) escapes c.advance =
        ((Bytes.string? quote escapes rest).map Prod.fst, stop) ∧
      match Bytes.string? quote escapes rest with
      | some (text, behind) =>
        stop.ahead = behind ∧ string escapes c = ⟨.stringLiteral, text, stop, none⟩
      | none => stop.ahead = [] ∧ string escapes c = broken .unterminatedString c stop :=
  quoted_string? .stringLiteral .unterminatedString h0 hascii escapes hahead

end Lexeme

/-- What a string stands for, byte by byte. Behind its opening quote the bytes are read without
regard to runes. If a quote closes the string, that is its text, and the scanner goes on behind the
quote. Otherwise the string is malformed up to the end and reported where it starts. The copier that
takes its text in runs comes to the same. -/
theorem Starter.outcome_string (config : Config) (s : State) (c : Cursor) (quote : UInt8)
    (rest : Bytes) (hquote : quote ∈ [0x27, 0x22]) (hahead : c.ahead = quote :: rest)
    (escapes : Bool) (hescapes : escapes = !config.has .noBackslashEscapes) :
    ∃ stop, c.Reaches stop ∧
      Lexeme.copy? (.ofByte quote) escapes ⟨[], c.advance.offset⟩ c.advance =
        some ((Bytes.string? quote escapes rest).map Prod.fst, stop) ∧
      match Bytes.string? quote escapes rest with
      | some (text, behind) => stop.ahead = behind ∧
        Starter.string.outcome config s c = .token ⟨.stringLiteral, c.pos, text⟩ stop s
      | none => stop.ahead = [] ∧
        Starter.string.outcome config s c = .token ⟨.invalid, c.pos, c.ahead⟩ stop
          { s with errors := s.errors ++ [⟨.unterminatedString, c.pos⟩] } := by
  have hwithin : c.advance.offset ≤ c.advance.source.length := by
    refine (Cursor.Reaches.next c).le_length (Nat.le_of_lt (Cursor.atEnd_eq_false_iff.mp ?_))
    rw [Cursor.atEnd, hahead, List.isEmpty_cons]
  obtain ⟨h0, hascii, hcopy⟩ : quote ≠ 0 ∧ quote < 0x80 ∧
      Lexeme.copy? (.ofByte quote) escapes ⟨[], c.advance.offset⟩ c.advance =
        some (Lexeme.enclosed (.ofByte quote) escapes c.advance) := by
    rcases List.mem_pair.mp hquote with rfl | rfl
    · have hbyte : Rune.IsByte '\'' := by decide
      exact ⟨by decide, by decide, Lexeme.copy?_start hbyte escapes hwithin⟩
    · have hbyte : Rune.IsByte '"' := by decide
      exact ⟨by decide, by decide, Lexeme.copy?_start hbyte escapes hwithin⟩
  obtain ⟨stop, hreach, hread, hstring⟩ := Lexeme.string_string? h0 hascii escapes hahead
  rw [hread] at hcopy
  have houtcome : Starter.string.outcome config s c = .ofLexeme c s (.string escapes c) := by
    rw [hescapes]
    rfl
  refine ⟨stop, hreach, hcopy, ?_⟩
  rw [houtcome]
  cases hbytes : Bytes.string? quote escapes rest with
  | some reading =>
    rw [hbytes] at hstring
    obtain ⟨hbehind, hlexeme⟩ := hstring
    refine ⟨hbehind, ?_⟩
    rw [hlexeme, Outcome.ofLexeme, State.report_none]
    rfl
  | none =>
    rw [hbytes] at hstring
    obtain ⟨hend, hlexeme⟩ := hstring
    have hall : c.upTo stop = c.ahead := by rw [hreach.ahead_eq, hend, List.append_nil]
    refine ⟨hend, ?_⟩
    rw [hlexeme, ← hall]
    rfl

/-- A backslash before the last quote escapes it, and the string is not closed, unless the mode
takes backslashes for what they are. The character of two bytes is copied. -/
theorem Starter.outcome_string_backslash : ∃ plain stop stop',
    plain = { mode := .ofFlag .noBackslashEscapes } ∧
      Starter.string.outcome {} {} (.start [0x27, 0xC3, 0xA9, 0x5C, 0x27]) =
        .token ⟨.invalid, .start, [0x27, 0xC3, 0xA9, 0x5C, 0x27]⟩ stop
          { errors := [⟨.unterminatedString, .start⟩] } ∧
      stop.ahead = [] ∧
      Starter.string.outcome plain {} (.start [0x27, 0xC3, 0xA9, 0x5C, 0x27]) =
        .token ⟨.stringLiteral, .start, [0xC3, 0xA9, 0x5C]⟩ stop' {} ∧
      stop'.ahead = [] := by
  obtain ⟨stop, -, -, hopen⟩ := Starter.outcome_string {} {} (.start [0x27, 0xC3, 0xA9, 0x5C, 0x27])
    0x27 [0xC3, 0xA9, 0x5C, 0x27] (by decide) rfl true (by decide)
  obtain ⟨stop', -, -, hclosed⟩ := Starter.outcome_string { mode := .ofFlag .noBackslashEscapes } {}
    (.start [0x27, 0xC3, 0xA9, 0x5C, 0x27]) 0x27 [0xC3, 0xA9, 0x5C, 0x27] (by decide) rfl false
    (by decide)
  exact ⟨_, stop, stop', rfl, hopen.2, hopen.1, hclosed.2, hclosed.1⟩

end SqlTokens
