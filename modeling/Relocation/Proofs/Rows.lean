import Relocation.Command.Line
import Relocation.Proofs.Outcome

/-!
# Rows of arguments

A command name, an operand and options with values that follow them are read as just that, or
refused, whatever texts the operand and the values are (`Invocation.eq_of_read`).  An operand that
looks like an option is taken for one, so there is no operand, or makes the row stray; a value that
looks like an option is refused where a value has to stand.
-/

namespace Relocation

variable {table : OptionTable} {t v operand : Text} {f : Flag} {short : Bool} {g g' : Given}
  {a : Argument} {l : List Argument} {texts : List Text}

namespace Argument

theorem ofUnknown_cases (t : Text) : ofUnknown t = .value t ∨ ofUnknown t = .unknown := by
  unfold ofUnknown
  split
  · exact .inl rfl
  · exact .inr rfl

/-- an argument is its own text, unknown, or an option -/
theorem classify?_cases (h : classify? table t = some a) :
    a = .value t ∨ a = .unknown ∨ ∃ f short attached, a = .option f short attached := by
  unfold classify? at h
  split at h
  · split at h
    · exact .inr (.inr ⟨_, _, _, (Option.some.inj h).symm⟩)
    split at h
    · rename_i b hb
      obtain rfl := Option.some.inj h
      unfold ofAssignment? at hb
      split at hb
      · obtain ⟨f, -, rfl⟩ := Option.map_eq_some_iff.1 hb
        exact .inr (.inr ⟨_, _, _, rfl⟩)
      · cases hb
    split at h
    · obtain rfl := Option.some.inj h
      unfold ofShort
      split
      · exact .inr (.inr ⟨_, _, _, rfl⟩)
      · rcases ofUnknown_cases _ with h | h
        · exact .inl h
        · exact .inr (.inl h)
    · unfold ofLong? at h
      simp only at h
      split at h
      · obtain rfl := Option.some.inj h
        rcases ofUnknown_cases _ with h | h
        · exact .inl h
        · exact .inr (.inl h)
      · exact .inr (.inr ⟨_, _, _, (Option.some.inj h).symm⟩)
      · cases h
  · exact .inl (Option.some.inj h).symm

theorem classifyAll?_cons (ht : t ≠ separatorText) (h : classifyAll? table (t :: texts) = some l) :
    ∃ a l', classify? table t = some a ∧ classifyAll? table texts = some l' ∧ l = a :: l' := by
  rw [classifyAll?, if_neg ht] at h
  split at h
  · rename_i a l' ha hl'
    exact ⟨a, l', ha, hl', (Option.some.inj h).symm⟩
  · cases h

theorem length_classifyAll? (h : classifyAll? table texts = some l) : l.length = texts.length := by
  induction texts generalizing l with
  | nil =>
    obtain rfl := Option.some.inj h
    rfl
  | cons t texts ih =>
    by_cases ht : t = separatorText
    · rw [classifyAll?, if_pos ht] at h
      obtain rfl := Option.some.inj h
      simp
    · obtain ⟨a, l', -, hl', rfl⟩ := classifyAll?_cons ht h
      rw [List.length_cons, List.length_cons, ih hl']

end Argument

/-- a text spells an option that takes a value -/
def OptionTable.Spells (table : OptionTable) (spelling : Text) (f : Flag) : Prop :=
  spelling ≠ Argument.separatorText ∧ f.takesValue = true ∧
    ∃ short, Argument.classify? table spelling = some (.option f short none)

/-- an option with a value: its spelling, what it is about, and the value -/
structure Setting where
  spelling : Text
  flag : Flag
  value : Text

namespace Setting

/-- settings as arguments -/
def row (settings : List Setting) : List Text := settings.flatMap fun s => [s.spelling, s.value]

theorem row_cons (s : Setting) (settings : List Setting) :
    row (s :: settings) = s.spelling :: s.value :: row settings := rfl

/-- what settings add to what has been read, the last one first -/
def given (settings : List Setting) : List (Flag × Option Text) :=
  (settings.map fun s => (s.flag, some s.value)).reverse

end Setting

namespace Given

theorem set_eq_ok {value : Option Text} (h : g.set f value = .ok g') :
    f ≠ .help ∧ g' = { g with settings := (f, value) :: g.settings } := by
  unfold set at h
  split at h
  · cases h
  split at h
  · exact ⟨‹_›, (Except.ok.inj h).symm⟩
  · cases h

theorem operand_setAll {flags : List Flag} (h : g.setAll flags = .ok g') :
    g'.operand = g.operand := by
  induction flags generalizing g with
  | nil =>
    obtain rfl := Except.ok.inj h
    rfl
  | cons f flags ih =>
    obtain ⟨g₁, hg₁, h⟩ := Except.bind_eq_ok.1 h
    obtain ⟨-, rfl⟩ := set_eq_ok hg₁
    rw [ih h]

theorem operand_setAttached (h : g.setAttached f v = .ok g') : g'.operand = g.operand := by
  obtain ⟨-, rfl⟩ := set_eq_ok h
  rfl

/-- an option that waits for its value needs one to follow -/
theorem read_option (hf : f.takesValue = true)
    (h : g.read table (.option f short none :: l) = .ok g') :
    ∃ v r, l = .value v :: r ∧
    { g with settings := (f, some v) :: g.settings }.read table r = .ok g' := by
  rw [read.eq_def] at h
  simp only [Cluster.ofOption?, hf, if_true] at h
  split at h
  · rename_i hvalued
    cases hvalued
  · rename_i k v r hvalued
    obtain rfl : f = k := by simpa using hvalued
    obtain ⟨g₁, hg₁, h⟩ := Except.bind_eq_ok.1 h
    obtain ⟨g₂, hg₂, h⟩ := Except.bind_eq_ok.1 h
    obtain rfl := Except.ok.inj hg₁
    obtain ⟨-, rfl⟩ := set_eq_ok hg₂
    exact ⟨v, r, rfl, h⟩
  · cases h
  · rename_i hvalued
    cases hvalued

theorem read_value_of_some (h : g.operand.isSome = true) :
    g.read table (.value t :: l) = { g with stray := true }.read table l := by
  rw [read.eq_def]
  simp only [h, if_true]

theorem read_value_of_none (h : g.operand = none) (hl : ∀ r, l ≠ .separator :: r) :
    g.read table (.value t :: l) = { g with operand := some t }.read table l := by
  rw [read.eq_def]
  simp only [h]
  cases l with
  | nil => rfl
  | cons a l =>
    cases a with
    | separator => exact absurd rfl (hl l)
    | _ => rfl

theorem read_separator_value (h : g.operand = none) :
    g.read table (.separator :: .value t :: l) = { g with operand := some t }.read table l := by
  rw [read.eq_def]
  simp only [h]
  rfl

/-- values after the operand are too many -/
theorem stray_read_values (hoperand : g.operand.isSome = true) (hg : g.stray = true)
    (h : g.read table (texts.map .value) = .ok g') : g'.stray = true := by
  induction texts generalizing g with
  | nil =>
    obtain rfl := Except.ok.inj h
    exact hg
  | cons t texts ih =>
    rw [List.map_cons, read_value_of_some hoperand] at h
    exact ih (g := { g with stray := true }) hoperand rfl h

/-- an option with its value attached, or one without a value, adds no operand -/
theorem operand_of_option {attached : Option Text} (hl : ∀ v r, l ≠ .value v :: r)
    (h : g.read table (.option f short attached :: l) = .ok g') :
    ∃ g₁ : Given, g₁.operand = g.operand ∧ g₁.read table l = .ok g' := by
  rw [read.eq_def] at h
  simp only at h
  split at h
  · cases h
  split at h
  · obtain ⟨g₁, hg₁, h⟩ := Except.bind_eq_ok.1 h
    obtain ⟨g₂, hg₂, h⟩ := Except.bind_eq_ok.1 h
    exact ⟨g₂, (operand_setAttached hg₂).trans (operand_setAll hg₁), h⟩
  · exact absurd rfl (hl _ _)
  · cases h
  · obtain ⟨g₁, hg₁, h⟩ := Except.bind_eq_ok.1 h
    exact ⟨g₁, operand_setAll hg₁, h⟩

theorem read_row {settings : List Setting} (hknown : ∀ s ∈ settings, table.Spells s.spelling s.flag)
    (hl : Argument.classifyAll? table (Setting.row settings) = some l)
    (h : g.read table l = .ok g') :
    g' = { g with settings := Setting.given settings ++ g.settings } := by
  induction settings generalizing g l with
  | nil =>
    obtain rfl := Option.some.inj hl
    exact (Except.ok.inj h).symm
  | cons s settings ih =>
    obtain ⟨⟨hspelling, hvalue, short, hs⟩, hknown⟩ := List.forall_mem_cons.1 hknown
    rw [Setting.row_cons] at hl
    obtain ⟨a, l₁, ha, hl₁, rfl⟩ := Argument.classifyAll?_cons hspelling hl
    obtain rfl : Argument.option s.flag short none = a := Option.some.inj (hs.symm.trans ha)
    obtain ⟨v, r, rfl, hread⟩ := read_option hvalue h
    by_cases hv : s.value = Argument.separatorText
    · rw [Argument.classifyAll?, if_pos hv] at hl₁
      cases hl₁
    · obtain ⟨b, l₂, hb, hl₂, heq⟩ := Argument.classifyAll?_cons hv hl₁
      obtain ⟨rfl, rfl⟩ := List.cons.inj heq
      have hsame : s.value = v := by
        rcases Argument.classify?_cases hb with h | h | ⟨_, _, _, h⟩ <;> cases h
        rfl
      rw [ih hknown hl₂ hread]
      simp [Setting.given, hsame]

/-- an operand and settings are read as just that, if nothing is stray and there is an operand -/
theorem eq_of_ofTexts {settings : List Setting}
    (hknown : ∀ s ∈ settings, table.Spells s.spelling s.flag) (hne : settings ≠ [])
    (h : ofTexts table (t :: Setting.row settings) = .ok g) (hstray : g.stray = false)
    (hoperand : g.operand.isSome = true) :
    g = { settings := Setting.given settings, operand := some t, stray := false } := by
  obtain ⟨s, settings, rfl⟩ := List.exists_cons_of_ne_nil hne
  unfold ofTexts at h
  cases hl : Argument.classifyAll? table (t :: Setting.row (s :: settings)) with
  | none => simp [hl] at h
  | some l =>
    rw [hl] at h
    simp only at h
    by_cases ht : t = Argument.separatorText
    · rw [Argument.classifyAll?, if_pos ht, Setting.row_cons] at hl
      obtain rfl := Option.some.inj hl
      simp only [List.map_cons] at h
      rw [read_separator_value rfl, read_value_of_some rfl] at h
      rw [stray_read_values rfl rfl h] at hstray
      cases hstray
    · obtain ⟨a, l', ha, hl', rfl⟩ := Argument.classifyAll?_cons ht hl
      have hrest : ∀ {g₁ : Given}, g₁.read table l' = .ok g →
          g = { g₁ with settings := Setting.given (s :: settings) ++ g₁.settings } :=
        fun hread => read_row hknown hl' hread
      obtain ⟨short, l'', rfl⟩ : ∃ short l'', l' = .option s.flag short none :: l'' := by
        obtain ⟨hspelling, -, short, hs⟩ := hknown s List.mem_cons_self
        rw [Setting.row_cons] at hl'
        obtain ⟨b, l'', hb, -, rfl⟩ := Argument.classifyAll?_cons hspelling hl'
        exact ⟨short, l'', by rw [Option.some.inj (hs.symm.trans hb)]⟩
      rcases Argument.classify?_cases ha with rfl | rfl | ⟨f, short, attached, rfl⟩
      · rw [read_value_of_none rfl (by simp)] at h
        rw [hrest h]
        simp
      · rw [read.eq_def] at h
        simp only at h
        rw [hrest h] at hstray
        cases hstray
      · obtain ⟨g₁, hg₁, h⟩ := operand_of_option (by simp) h
        rw [hrest h, hg₁] at hoperand
        cases hoperand

end Given

namespace Command

/-- a command that is read from its name, an operand and settings is made of these -/
theorem eq_of_read {verb : Verb} {name : Text} {c : Command} {settings : List Setting}
    (hname : Verb.ofText? name = some verb)
    (hknown : ∀ s ∈ settings, verb.options.Spells s.spelling s.flag) (hne : settings ≠ [])
    (h : read false name (t :: Setting.row settings) = .ok c) :
    ofGiven verb { settings := Setting.given settings, operand := some t, stray := false } =
      .ok c := by
  unfold read at h
  rw [hname] at h
  obtain ⟨g, hg, h⟩ := Except.bind_eq_ok.1 h
  split at h
  · cases h
  · rename_i hstray
    have hoperand : g.operand.isSome = true := by
      unfold ofGiven at h
      split at h
      · cases h
      · rename_i ho
        rw [ho]
        rfl
    rwa [← Given.eq_of_ofTexts hknown hne hg (by simpa using hstray) hoperand]

end Command

namespace Invocation

/-- a row that starts with the name of a command is read as the command with the other arguments -/
theorem eq_of_read {name : Text} {i : Invocation} (hname : name ≠ Argument.separatorText)
    (hvalue : Argument.classify? Command.programOptions name = some (.value name))
    (h : read (name :: texts) = .ok i) : ∃ c, Command.read false name texts = .ok c ∧
    i = ⟨false, c⟩ := by
  unfold read at h
  cases hl : Argument.classifyAll? Command.programOptions (name :: texts) with
  | none => simp [hl] at h
  | some l =>
    rw [hl] at h
    obtain ⟨a, l', ha, hl', rfl⟩ := Argument.classifyAll?_cons hname hl
    obtain rfl : Argument.value name = a := Option.some.inj (hvalue.symm.trans ha)
    obtain ⟨c, hc, h⟩ := Except.bind_eq_ok.1 h
    have hzip : (l'.zip texts).map (·.2) = texts :=
      List.map_snd_zip (Nat.le_of_eq (Argument.length_classifyAll? hl').symm)
    have hread : Command.read false name ((l'.zip texts).map (·.2)) = .ok c := hc
    exact ⟨c, hzip ▸ hread, (Except.ok.inj h).symm⟩

end Invocation

end Relocation
