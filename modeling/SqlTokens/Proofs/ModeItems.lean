import Mathlib.Data.List.Basic
import SqlTokens.SqlMode

/-!
# The items of a mode

The text of a mode is split at its commas, and each item counts by itself: it is blank, or it names
a flag, or the text is refused for it. So reading two texts with a comma between them is reading
both (`SqlMode.parseItems_append`), a text is refused for the first item that is unknown, and what
an accepted text means is the set of the names in it (`SqlMode.parseItems_cases`).
`SqlMode.parse_union` says this of texts, with the items as lists are split at an element.
-/

namespace SqlTokens

namespace Flag

/-- The name of a flag finds that flag. It is written in upper case, without blanks around it and
without commas, and it is not empty. -/
theorem name_facts (flag : Flag) : named? flag.name.toList = some flag ∧
    (Text.trim flag.name.toList).map Char.toUpper = flag.name.toList ∧
    ',' ∉ flag.name.toList ∧ flag.name.toList ≠ [] := by
  -- The characters are tested as a list, since an instance for all characters would test them all.
  have hall : ∀ flag ∈ all, named? flag.name.toList = some flag ∧
      (flag.name.toList.all fun c => !Text.isBlank c && c.toUpper == c && c != ',') = true ∧
      flag.name.toList ≠ [] := by
    decide +kernel
  obtain ⟨hnamed, hchars, hne⟩ := hall flag (mem_all flag)
  simp only [List.all_eq_true, Bool.and_eq_true, Bool.not_eq_true', beq_iff_eq, bne_iff_ne]
    at hchars
  have htrim : Text.trim flag.name.toList = flag.name.toList :=
    Text.trim_eq_self (fun c hc => (hchars c (List.mem_of_mem_head? hc)).1.1)
      fun c hc => (hchars c (List.mem_of_mem_getLast? hc)).1.1
  refine ⟨hnamed, ?_, fun hcomma => (hchars ',' hcomma).2 rfl, hne⟩
  rw [htrim, List.map_congr_left fun c hc => (hchars c hc).1.2]
  exact List.map_id' _

/-- A name finds the flag that has it. -/
theorem named?_eq_some_iff {name : List Char} {flag : Flag} :
    named? name = some flag ↔ name = flag.name.toList := by
  constructor
  · intro h
    have hname := List.find?_some h
    exact (eq_of_beq hname).symm
  · rintro rfl
    exact (name_facts flag).1

/-- Two flags never share a name. -/
theorem name_injective {f g : Flag} (h : f.name.toList = g.name.toList) : f = g := by
  have hnamed := named?_eq_some_iff.mpr h
  rw [(name_facts f).1] at hnamed
  exact Option.some.inj hnamed

end Flag

namespace SqlMode

/-! ## Bits -/

/-- A mode is the set of its bits. -/
theorem ext_bits {m n : SqlMode}
    (h : ∀ i, m.bits.getLsbD i = true ↔ n.bits.getLsbD i = true) : m = n := by
  rcases m with ⟨bits⟩
  rcases n with ⟨bits'⟩
  congr 1
  exact BitVec.eq_of_getLsbD_eq fun i _ => Bool.eq_iff_iff.mpr (h i)

/-- The bits of a union are those of either mode. -/
theorem getLsbD_union (m n : SqlMode) (i : Nat) :
    (m.union n).bits.getLsbD i = true ↔ m.bits.getLsbD i = true ∨ n.bits.getLsbD i = true := by
  rw [union, BitVec.getLsbD_or, Bool.or_eq_true]

/-- The empty mode has no bit. -/
theorem getLsbD_empty (i : Nat) : ¬empty.bits.getLsbD i = true := by
  rw [empty, BitVec.ofNat_eq_ofNat, BitVec.getLsbD_zero]
  exact Bool.false_ne_true

/-- The mode of a flag has the bit of the flag alone. -/
theorem getLsbD_ofFlag (flag : Flag) (i : Nat) :
    (ofFlag flag).bits.getLsbD i = true ↔ flag.bit = i := by
  have hlt := flag.bit_lt
  rw [ofFlag, BitVec.getLsbD_twoPow, Bool.and_eq_true, decide_eq_true_iff, decide_eq_true_iff]
  exact and_iff_right hlt

/-- The mode of some flags has the bits of these flags. -/
theorem getLsbD_ofFlags (flags : List Flag) (i : Nat) :
    (ofFlags flags).bits.getLsbD i = true ↔ ∃ flag ∈ flags, flag.bit = i := by
  -- The flags are added one after another to a mode, which is the empty one at first.
  have key (flags : List Flag) : ∀ m : SqlMode,
      (flags.foldl (fun mode flag => mode.union (ofFlag flag)) m).bits.getLsbD i = true ↔
        m.bits.getLsbD i = true ∨ ∃ flag ∈ flags, flag.bit = i := by
    induction flags with
    | nil => simp
    | cons flag flags ih =>
      intro m
      rw [List.foldl_cons, ih, getLsbD_union, getLsbD_ofFlag, or_assoc,
        List.exists_mem_cons_iff]
  rw [ofFlags, key, or_iff_right (getLsbD_empty i)]

/-- A union with the empty mode is the other mode. -/
theorem empty_union (m : SqlMode) : empty.union m = m :=
  ext_bits fun i => by rw [getLsbD_union, or_iff_right (getLsbD_empty i)]

/-- The union of three modes does not depend on which two come first. -/
theorem union_assoc (m n k : SqlMode) : (m.union n).union k = m.union (n.union k) :=
  ext_bits fun i => by simp only [getLsbD_union, or_assoc]

/-! ## One item -/

/-- The name that an item gives: what it is without blanks around it, in upper case. -/
def itemName (item : List Char) : List Char := (Text.trim item).map Char.toUpper

/-- Whether an item may stand in a text: it is blank, or it names a flag. -/
def IsKnown (item : List Char) : Prop :=
  itemName item = [] ∨ ∃ flag : Flag, itemName item = flag.name.toList

/-- Whether an item sets a bit: that of the flag it names, or of one that this flag brings. -/
def Sets (item : List Char) (i : Nat) : Prop :=
  ∃ flag : Flag, itemName item = flag.name.toList ∧ ∃ f ∈ flag :: flag.implied, f.bit = i

/-- An item that is known is read as the bits that it sets, and any other is reported as it is
written. -/
theorem parseItem_cases (item : List Char) :
    (IsKnown item ∧ ∃ m, parseItem item = .ok m ∧
      ∀ i, m.bits.getLsbD i = true ↔ Sets item i) ∨
    (¬IsKnown item ∧ parseItem item = .error ⟨String.ofList (Text.trim item)⟩) := by
  unfold parseItem
  simp only
  split
  · -- A blank item sets nothing, since every flag has a name.
    rename_i hblank
    have hname : itemName item = [] := by rw [itemName, hblank, List.map_nil]
    refine .inl ⟨.inl hname, empty, rfl, fun i => iff_of_false (getLsbD_empty i) ?_⟩
    rintro ⟨flag, hflag, -⟩
    exact (Flag.name_facts flag).2.2.2 (hflag.symm.trans hname)
  · rename_i hblank
    split
    · rename_i flag hnamed
      have hflag : itemName item = flag.name.toList := Flag.named?_eq_some_iff.mp hnamed
      refine .inl ⟨.inr ⟨flag, hflag⟩, _, rfl, fun i => ?_⟩
      rw [getLsbD_union, getLsbD_ofFlag, getLsbD_ofFlags, ← List.exists_mem_cons_iff
        (fun f : Flag => f.bit = i)]
      constructor
      · exact fun h => ⟨flag, hflag, h⟩
      · rintro ⟨flag', hflag', h⟩
        rwa [Flag.name_injective (hflag.symm.trans hflag')]
    · rename_i hnone
      refine .inr ⟨?_, rfl⟩
      rintro (hname | ⟨flag, hflag⟩)
      · exact hblank (List.map_eq_nil_iff.mp hname)
      · have hsome : Flag.named? (itemName item) = some flag := Flag.named?_eq_some_iff.mpr hflag
        rw [itemName, hnone] at hsome
        cases hsome

/-! ## Lists of items -/

/-- A list is read item by item. -/
theorem parseItems_cons (item : List Char) (rest : List (List Char)) :
    parseItems (item :: rest) = do
      let m ← parseItem item
      let n ← parseItems rest
      return m.union n := by
  rw [parseItems]
  rcases parseItem item with e | m
  · rfl
  · rcases parseItems rest with e | n <;> rfl

/-- A list in two parts is read part by part, and the first error counts. -/
theorem parseItems_append (front back : List (List Char)) :
    parseItems (front ++ back) = do
      let m ← parseItems front
      let n ← parseItems back
      return m.union n := by
  induction front with
  | nil =>
    rw [List.nil_append, parseItems]
    rcases parseItems back with e | n
    · rfl
    · exact congrArg Except.ok (empty_union n).symm
  | cons item front ih =>
    rw [List.cons_append, parseItems_cons, parseItems_cons, ih]
    rcases parseItem item with e | m
    · rfl
    · rcases parseItems front with e | n
      · rfl
      · rcases parseItems back with e | k
        · rfl
        · exact congrArg Except.ok (union_assoc m n k).symm

/-- A list of known items is read as the bits that they set, and any other is refused for the first
item that is unknown. -/
theorem parseItems_cases (items : List (List Char)) :
    ((∀ item ∈ items, IsKnown item) ∧ ∃ m, parseItems items = .ok m ∧
      ∀ i, m.bits.getLsbD i = true ↔ ∃ item ∈ items, Sets item i) ∨
    (∃ before item after, items = before ++ item :: after ∧ (∀ x ∈ before, IsKnown x) ∧
      ¬IsKnown item ∧ parseItems items = .error ⟨String.ofList (Text.trim item)⟩) := by
  induction items with
  | nil =>
    refine .inl ⟨fun _ hitem => (List.not_mem_nil hitem).elim, empty, rfl, fun i => ?_⟩
    refine iff_of_false (getLsbD_empty i) ?_
    rintro ⟨item, hitem, -⟩
    exact List.not_mem_nil hitem
  | cons item rest ih =>
    rw [parseItems_cons]
    rcases parseItem_cases item with ⟨hknown, m, hm, hsets⟩ | ⟨hunknown, herror⟩
    · rw [hm]
      rcases ih with ⟨hall, n, hn, hrest⟩ | ⟨before, bad, after, hsplit, hbefore, hbad, herror⟩
      · rw [hn]
        refine .inl ⟨List.forall_mem_cons.mpr ⟨hknown, hall⟩, m.union n, rfl, fun i => ?_⟩
        rw [getLsbD_union, hsets, hrest, List.exists_mem_cons_iff]
      · rw [herror]
        refine .inr ⟨item :: before, bad, after, ?_, ?_, hbad, rfl⟩
        · rw [hsplit, List.cons_append]
        · exact List.forall_mem_cons.mpr ⟨hknown, hbefore⟩
    · rw [herror]
      exact .inr ⟨[], item, rest, rfl, fun _ h => (List.not_mem_nil h).elim, hunknown, rfl⟩

/-- A list is accepted if every item is known, and only then. -/
theorem exists_parseItems_iff (items : List (List Char)) :
    (∃ m, parseItems items = .ok m) ↔ ∀ item ∈ items, IsKnown item := by
  rcases parseItems_cases items with
    ⟨hall, m, hm, -⟩ | ⟨before, bad, after, hsplit, -, hbad, herror⟩
  · exact iff_of_true ⟨m, hm⟩ hall
  · refine iff_of_false ?_ fun hall => hbad (hall bad ?_)
    · rintro ⟨m, hm⟩
      rw [herror] at hm
      cases hm
    · rw [hsplit]
      exact List.mem_append_right before List.mem_cons_self

/-- What an accepted list means is the bits that its items set. -/
theorem getLsbD_of_parseItems {items : List (List Char)} {m : SqlMode}
    (h : parseItems items = .ok m) (i : Nat) :
    m.bits.getLsbD i = true ↔ ∃ item ∈ items, Sets item i := by
  rcases parseItems_cases items with ⟨-, n, hn, hbits⟩ | ⟨_, _, _, -, -, -, herror⟩
  · rw [h, Except.ok.injEq] at hn
    rw [hn]
    exact hbits i
  · rw [h] at herror
    cases herror

/-- A list is refused for the first item that is unknown, as it is written. -/
theorem parseItems_eq_error_iff (items : List (List Char)) (e : UnknownMode) :
    parseItems items = .error e ↔
      ∃ before item after, items = before ++ item :: after ∧ (∀ x ∈ before, IsKnown x) ∧
        ¬IsKnown item ∧ e = ⟨String.ofList (Text.trim item)⟩ := by
  constructor
  · intro h
    rcases parseItems_cases items with
      ⟨-, m, hm, -⟩ | ⟨before, item, after, hsplit, hbefore, hbad, he⟩
    · rw [h] at hm
      cases hm
    · rw [h, Except.error.injEq] at he
      exact ⟨before, item, after, hsplit, hbefore, hbad, he⟩
  · rintro ⟨before, item, after, rfl, hbefore, hbad, rfl⟩
    obtain ⟨m, hm⟩ := (exists_parseItems_iff before).mpr hbefore
    have herror : parseItem item = .error ⟨String.ofList (Text.trim item)⟩ := by
      rcases parseItem_cases item with ⟨hknown, -⟩ | ⟨-, herror⟩
      · exact absurd hknown hbad
      · exact herror
    rw [parseItems_append, parseItems_cons, hm, herror]
    rfl

/-- Lists that give the same names, blank items apart, mean the same if either is accepted. -/
theorem parseItems_of_sameNames {items items' : List (List Char)} {m : SqlMode}
    (hsame : ∀ name ≠ [], name ∈ items.map itemName ↔ name ∈ items'.map itemName)
    (h : parseItems items = .ok m) : parseItems items' = .ok m := by
  have hall := (exists_parseItems_iff items).mp ⟨m, h⟩
  -- Every item that is not blank has one of the same name in the other list.
  have hfind {front back : List (List Char)}
      (hmem : ∀ name ≠ [], name ∈ front.map itemName → name ∈ back.map itemName)
      {item : List Char} (hitem : item ∈ front) (hne : itemName item ≠ []) :
      ∃ other ∈ back, itemName other = itemName item :=
    List.mem_map.mp (hmem _ hne (List.mem_map_of_mem hitem))
  have hall' : ∀ item ∈ items', IsKnown item := by
    intro item hitem
    by_cases hne : itemName item = []
    · exact .inl hne
    · obtain ⟨other, hother, hname⟩ := hfind (fun name hne => (hsame name hne).mpr) hitem hne
      have hknown := hall other hother
      rwa [IsKnown, hname] at hknown
  have hsets {front back : List (List Char)}
      (hmem : ∀ name ≠ [], name ∈ front.map itemName → name ∈ back.map itemName) (i : Nat) :
      (∃ item ∈ front, Sets item i) → ∃ item ∈ back, Sets item i := by
    rintro ⟨item, hitem, flag, hflag, hbit⟩
    have hne : itemName item ≠ [] := by
      rw [hflag]
      exact (Flag.name_facts flag).2.2.2
    obtain ⟨other, hother, hname⟩ := hfind hmem hitem hne
    exact ⟨other, hother, flag, hname.trans hflag, hbit⟩
  obtain ⟨m', hm'⟩ := (exists_parseItems_iff items').mpr hall'
  rw [hm']
  refine congrArg Except.ok (ext_bits fun i => ?_)
  rw [getLsbD_of_parseItems hm', getLsbD_of_parseItems h]
  exact ⟨hsets (fun name hne => (hsame name hne).mpr) i,
    hsets (fun name hne => (hsame name hne).mp) i⟩

/-! ## Texts -/

/-- The items of a text are what is left of it when it is split at its commas. -/
theorem items_eq_splitOn (text : List Char) : items text = text.splitOn ',' := by
  induction text with
  | nil => rfl
  | cons c text ih =>
    rw [items, ih, List.splitOn_cons_eq_if_modifyHead]
    by_cases hc : c = ','
    · rw [if_pos hc, if_pos (beq_iff_eq.mpr hc)]
    · rw [if_neg hc, if_neg (fun h => hc (beq_iff_eq.mp h))]
      rcases hsplit : text.splitOn ',' with _ | ⟨item, more⟩
      · exact absurd hsplit (List.splitOn_ne_nil ',' text)
      · rfl

/-- Reading the text of a mode is taking the union over its items. Two texts with a comma between
them are refused for what the first is refused for, or else for what the second is, and otherwise
mean the union of both. A text is accepted exactly if every item, without blanks around it and in
upper case, is empty or the name of a flag; any other text is refused for the first item that is
not, as it is written but for the blanks. So a text with the same names as an accepted one, in any
order and number, means the same. -/
theorem parse_union :
    (∀ s t : String, parse (s ++ "," ++ t) = do
      let m ← parse s
      let n ← parse t
      return m.union n) ∧
    (∀ text : String, (∃ m, parse text = .ok m) ↔
      ∀ item ∈ text.toList.splitOn ',', IsKnown item) ∧
    (∀ (text : String) (e : UnknownMode), parse text = .error e ↔
      ∃ before item after, text.toList.splitOn ',' = before ++ item :: after ∧
        (∀ x ∈ before, IsKnown x) ∧ ¬IsKnown item ∧ e = ⟨String.ofList (Text.trim item)⟩) ∧
    (∀ (s t : String) (m : SqlMode),
      (∀ name ≠ [], name ∈ (s.toList.splitOn ',').map itemName ↔
        name ∈ (t.toList.splitOn ',').map itemName) →
      parse s = .ok m → parse t = .ok m) := by
  have hparse (text : String) : parse text = parseItems (text.toList.splitOn ',') := by
    rw [parse, items_eq_splitOn]
  simp only [hparse]
  refine ⟨fun s t => ?_, fun text => exists_parseItems_iff _, fun text e =>
    parseItems_eq_error_iff _ e, fun s t m hsame h => parseItems_of_sameNames hsame h⟩
  have hcomma : (s ++ "," ++ t).toList = s.toList ++ ',' :: t.toList := by
    rw [String.toList_append, String.toList_append, List.append_assoc]
    rfl
  rw [hcomma, List.splitOn_append_cons_self, parseItems_append]

/-- Order, number, case and blanks do not matter, and of two unknown items the first is reported. -/
theorem parse_union_spelling :
    (∃ m, parse " ansi,NO_ZERO_DATE" = .ok m ∧ parse "No_Zero_Date ,,ANSI\t, ansi" = .ok m) ∧
    parse "Ansi_Quotes, nope ,BAD" = .error ⟨"nope"⟩ := by
  obtain ⟨-, haccepted, hrefused, hsame⟩ := parse_union
  constructor
  · have hnames : (" ansi,NO_ZERO_DATE".toList.splitOn ',').map itemName =
        [Flag.ansi.name.toList, Flag.noZeroDate.name.toList] := by
      rw [← items_eq_splitOn]
      decide +kernel
    have hnames' : ("No_Zero_Date ,,ANSI\t, ansi".toList.splitOn ',').map itemName =
        [Flag.noZeroDate.name.toList, [], Flag.ansi.name.toList, Flag.ansi.name.toList] := by
      rw [← items_eq_splitOn]
      decide +kernel
    obtain ⟨m, hm⟩ := (haccepted " ansi,NO_ZERO_DATE").mpr fun item hitem => by
      have hname := List.mem_map_of_mem (f := itemName) hitem
      rw [hnames, List.mem_pair] at hname
      exact .inr (hname.elim (fun h => ⟨_, h⟩) fun h => ⟨_, h⟩)
    refine ⟨m, hm, hsame _ _ m (fun name hne => ?_) hm⟩
    rw [hnames, hnames']
    simp only [List.mem_cons, List.not_mem_nil, hne, or_false, false_or]
    tauto
  · refine (hrefused _ _).mpr ⟨["Ansi_Quotes".toList], " nope ".toList, ["BAD".toList], ?_, ?_, ?_,
      by decide +kernel⟩
    · rw [← items_eq_splitOn]
      decide +kernel
    · exact List.forall_mem_singleton.mpr (.inr ⟨.ansiQuotes, by decide +kernel⟩)
    · have hnone : Flag.named? (itemName " nope ".toList) = none := by decide +kernel
      rintro (h | ⟨flag, h⟩)
      · exact absurd h (by decide +kernel)
      · rw [Flag.named?_eq_some_iff.mpr h] at hnone
        cases hnone

end SqlMode

end SqlTokens
