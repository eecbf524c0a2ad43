import SqlTokens.Proofs.ModeItems

/-!
# Modes as texts

A mode is written as the names of its flags, and reading that text gives the mode back, but for two
things: bits that are no flag's are not written, and a flag that is read brings others with it. So
what comes back is the mode with exactly that mended (`SqlMode.completed`). Flags that are brought
bring none themselves, and therefore every mode that was read is complete
(`SqlMode.complete_of_parse`) and keeps to its text. `SqlMode.parse_render` says both.
-/

namespace SqlTokens

/-- A flag that another one brings brings none itself. -/
theorem Flag.implied_of_mem {flag f : Flag} (h : f ∈ flag.implied) : f.implied = [] := by
  have hall : ∀ flag ∈ all, ∀ f ∈ flag.implied, f.implied = [] := by decide
  exact hall flag (mem_all flag) f h

namespace SqlMode

/-! ## Complete modes -/

/-- Whether each bit of a mode is that of a flag. -/
def HasOnlyFlags (m : SqlMode) : Prop :=
  ∀ i, m.bits.getLsbD i = true → ∃ flag : Flag, flag.bit = i

/-- Whether a mode has with each flag those that the flag brings. -/
def IsClosed (m : SqlMode) : Prop :=
  ∀ flag : Flag, m.has flag = true → ∀ f ∈ flag.implied, m.has f = true

/-- The flags of a mode and those that they bring. -/
def completed (m : SqlMode) : SqlMode :=
  (ofFlags m.flags).union (ofFlags (m.flags.flatMap Flag.implied))

/-- The flags of a mode are those that it has. -/
theorem mem_flags {m : SqlMode} {flag : Flag} : flag ∈ m.flags ↔ m.has flag = true := by
  rw [flags, List.mem_filter]
  exact and_iff_right (Flag.mem_all flag)

/-- The bits of a completed mode are those of its flags and of the flags that they bring. -/
theorem getLsbD_completed (m : SqlMode) (i : Nat) :
    m.completed.bits.getLsbD i = true ↔
      ∃ flag ∈ m.flags, ∃ f ∈ flag :: flag.implied, f.bit = i := by
  rw [completed, getLsbD_union, getLsbD_ofFlags, getLsbD_ofFlags]
  constructor
  · rintro (⟨flag, hflag, hbit⟩ | ⟨f, hf, hbit⟩)
    · exact ⟨flag, hflag, flag, List.mem_cons_self, hbit⟩
    · obtain ⟨flag, hflag, himplied⟩ := List.mem_flatMap.mp hf
      exact ⟨flag, hflag, f, List.mem_cons_of_mem flag himplied, hbit⟩
  · rintro ⟨flag, hflag, f, hf, hbit⟩
    rcases List.mem_cons.mp hf with rfl | himplied
    · exact .inl ⟨f, hflag, hbit⟩
    · exact .inr ⟨f, List.mem_flatMap.mpr ⟨flag, hflag, himplied⟩, hbit⟩

/-- Completing changes nothing exactly if a mode has only flags and all that these bring. -/
theorem completed_eq_iff (m : SqlMode) : m.completed = m ↔ m.HasOnlyFlags ∧ m.IsClosed := by
  constructor
  · intro heq
    have hbits (i : Nat) : m.bits.getLsbD i = true ↔
        ∃ flag ∈ m.flags, ∃ f ∈ flag :: flag.implied, f.bit = i := by
      rw [← getLsbD_completed, heq]
    constructor
    · intro i hi
      obtain ⟨-, -, f, -, hbit⟩ := (hbits i).mp hi
      exact ⟨f, hbit⟩
    · intro flag hflag f hf
      exact (hbits f.bit).mpr ⟨flag, mem_flags.mpr hflag, f, List.mem_cons_of_mem flag hf, rfl⟩
  · rintro ⟨honly, hclosed⟩
    refine ext_bits fun i => ?_
    rw [getLsbD_completed]
    constructor
    · rintro ⟨flag, hflag, f, hf, rfl⟩
      rcases List.mem_cons.mp hf with rfl | himplied
      · exact mem_flags.mp hflag
      · exact hclosed flag (mem_flags.mp hflag) f himplied
    · intro hi
      obtain ⟨flag, rfl⟩ := honly i hi
      exact ⟨flag, mem_flags.mpr hi, flag, List.mem_cons_self, rfl⟩

/-- A mode that has been read has only flags and all that these bring. -/
theorem complete_of_parse {text : String} {m : SqlMode} (h : parse text = .ok m) :
    m.HasOnlyFlags ∧ m.IsClosed := by
  have hbits := getLsbD_of_parseItems h
  constructor
  · intro i hi
    obtain ⟨-, -, -, -, f, -, hbit⟩ := (hbits i).mp hi
    exact ⟨f, hbit⟩
  · intro g hg f hf
    obtain ⟨item, hitem, flag, hflag, g', hg', hbit⟩ := (hbits g.bit).mp hg
    obtain rfl := Flag.bit_injective hbit
    rcases List.mem_cons.mp hg' with rfl | himplied
    · exact (hbits f.bit).mpr ⟨item, hitem, g', hflag, f, List.mem_cons_of_mem g' hf, rfl⟩
    · -- What another flag brings brings nothing.
      rw [Flag.implied_of_mem himplied] at hf
      exact (List.not_mem_nil hf).elim

/-! ## Writing and reading back -/

/-- The items of a written mode are the names of its flags, or one blank item if it has none. -/
theorem items_render (m : SqlMode) :
    items m.render.toList = if m.flags = [] then [[]] else m.flags.map (·.name.toList) := by
  have htext : m.render.toList = [','].intercalate (m.flags.map (·.name.toList)) := by
    rw [render, String.toList_intercalate, List.map_map]
    rfl
  rw [items_eq_splitOn, htext]
  by_cases hnone : m.flags = []
  · rw [if_pos hnone, hnone]
    rfl
  · have hcomma : ∀ name ∈ m.flags.map (·.name.toList), ',' ∉ name := by
      intro name hname
      obtain ⟨flag, -, rfl⟩ := List.mem_map.mp hname
      exact (Flag.name_facts flag).2.2.1
    rw [if_neg hnone, List.splitOn_intercalate ',' hcomma (mt List.map_eq_nil_iff.mp hnone)]

/-- A written mode sets the bits of its flags and of those that they bring. -/
theorem sets_render (m : SqlMode) (i : Nat) :
    (∃ item ∈ items m.render.toList, Sets item i) ↔
      ∃ flag ∈ m.flags, ∃ f ∈ flag :: flag.implied, f.bit = i := by
  have hname (flag : Flag) : itemName flag.name.toList = flag.name.toList :=
    (Flag.name_facts flag).2.1
  rw [items_render]
  by_cases hnone : m.flags = []
  · rw [if_pos hnone, hnone]
    refine iff_of_false ?_ fun h => ?_
    · rintro ⟨item, hitem, flag, hflag, -⟩
      rw [List.mem_singleton.mp hitem] at hflag
      exact (Flag.name_facts flag).2.2.2 hflag.symm
    · obtain ⟨flag, hflag, -⟩ := h
      exact List.not_mem_nil hflag
  · rw [if_neg hnone]
    constructor
    · rintro ⟨item, hitem, flag', hflag', hbit⟩
      obtain ⟨flag, hflag, rfl⟩ := List.mem_map.mp hitem
      obtain rfl := Flag.name_injective ((hname flag).symm.trans hflag')
      exact ⟨flag, hflag, hbit⟩
    · rintro ⟨flag, hflag, hbit⟩
      exact ⟨_, List.mem_map_of_mem hflag, flag, hname flag, hbit⟩

/-- A written mode is accepted, and read as the completed one. -/
theorem parse_render_eq (m : SqlMode) : parse m.render = .ok m.completed := by
  have hknown : ∀ item ∈ items m.render.toList, IsKnown item := by
    intro item hitem
    rw [items_render] at hitem
    split at hitem
    · rw [List.mem_singleton.mp hitem]
      exact .inl rfl
    · obtain ⟨flag, -, rfl⟩ := List.mem_map.mp hitem
      exact .inr ⟨flag, (Flag.name_facts flag).2.1⟩
  obtain ⟨n, hn⟩ := (exists_parseItems_iff _).mpr hknown
  rw [parse, hn]
  refine congrArg Except.ok (ext_bits fun i => ?_)
  rw [getLsbD_of_parseItems hn, sets_render, getLsbD_completed]

/-- The text of a mode is read back. What has been read, from whatever text, is read again from the
text it is written as. Any word of 64 bits is written as a text that is accepted and read as its
flags and those that they bring; so the word itself comes back exactly if it has no other bits and
with each flag those that the flag brings. -/
theorem parse_render :
    (∀ (text : String) (m : SqlMode), parse text = .ok m → parse m.render = .ok m) ∧
    ∀ m : SqlMode, parse m.render = .ok m.completed ∧
      (parse m.render = .ok m ↔ m.HasOnlyFlags ∧ m.IsClosed) := by
  have hsame (m : SqlMode) : parse m.render = .ok m ↔ m.HasOnlyFlags ∧ m.IsClosed := by
    rw [parse_render_eq, Except.ok.injEq, completed_eq_iff]
  exact ⟨fun text m h => (hsame m).mpr (complete_of_parse h), fun m => ⟨parse_render_eq m, hsame m⟩⟩

/-- A mode that combines others is read back from all the names in its text, and a bit that is no
flag's is lost. -/
theorem parse_render_ansi : ∃ m, parse "ansi" = .ok m ∧
    m.render = "REAL_AS_FLOAT,PIPES_AS_CONCAT,ANSI_QUOTES,IGNORE_SPACE,ONLY_FULL_GROUP_BY,ANSI" ∧
    parse m.render = .ok m ∧ parse (render ⟨2⟩) = .ok empty := by
  obtain ⟨hread, hwritten⟩ := parse_render
  have hansi : parse "ansi" = .ok ⟨0x8005D⟩ := by decide +kernel
  refine ⟨⟨0x8005D⟩, hansi, by decide +kernel, hread "ansi" _ hansi, ?_⟩
  rw [(hwritten ⟨2⟩).1]
  decide +kernel

end SqlMode

end SqlTokens
