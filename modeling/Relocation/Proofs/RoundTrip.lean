import Relocation.Proofs.Layout
import Relocation.Proofs.Reading

/-!
# Printing and reading again

`Program.read_print`: the canonical text of a program that was read is read as the same program, up
to its ranges, if the neighbours that the layout does not keep apart stand on different lines.
-/

namespace Relocation

namespace Item

/-- an item begins a line where its first word does -/
theorem newline_of_spells {i : Item} {ws : List Word} (h : Spells i ws) : ∃ w r, ws = w :: r ∧
    w.newline = i.mark.newline := by
  cases i with
  | leaf k t m =>
    obtain ⟨-, rfl⟩ := h
    exact ⟨_, _, rfl, rfl⟩
  | group b items m c =>
    obtain ⟨inner, -, rfl⟩ := h
    exact ⟨_, _, rfl, rfl⟩
  | template q rest m =>
    obtain ⟨inner, -, rfl⟩ := h
    refine ⟨_, _, rfl, ?_⟩
    cases rest <;> rfl
  | block items m c =>
    obtain ⟨inner, newline, -, rfl⟩ := h
    exact ⟨_, _, rfl, rfl⟩

theorem begun_eq_self {i : Item} (h : i.mark.newline = false) : i.begun false = i := by
  cases i <;> · rw [begun, ← h]; rfl

end Item

namespace Lexeme

theorem newline_words_none (ls : List Lexeme) : ∀ w ∈ (words none ls).head?, w.newline = false := by
  induction ls with
  | nil => simp [words]
  | cons l ls ih =>
    rw [words]
    split
    · exact ih
    · rintro w hw
      obtain rfl := Option.some.inj hw
      rfl

end Lexeme

namespace Item

theorem beginning_of_spellsAll {items : List Item} {ls : List Lexeme}
    (h : SpellsAll items (Lexeme.words none ls)) : beginning items = items := by
  cases items with
  | nil => rfl
  | cons i r =>
    obtain ⟨a, b, ha, -, hw⟩ := h
    obtain ⟨w, a, rfl, hnewline⟩ := newline_of_spells ha
    have : w.newline = false := Lexeme.newline_words_none ls w (by rw [hw]; rfl)
    rw [beginning, begun_eq_self (by rw [← hnewline, this])]

end Item

namespace Program

variable {source : Text} {p : Program}

/-- the tokens of a text that was read have the texts of their kinds -/
theorem shaped_of_read {line ls : List Lexeme} (hline : ∀ l ∈ line, l.front = .gap)
    (hcuts : Lexeme.Cuts {} ls []) : Item.ShapedAll (Lexeme.marked (line ++ ls)) := by
  have hshaped : ∀ l ∈ line ++ ls, ∀ kind, l.front = .token kind → Token.Shaped kind l.text := by
    intro l hl kind hkind
    rcases List.mem_append.1 hl with hl | hl
    · rw [hline l hl] at hkind
      cases hkind
    · exact Lexeme.shaped_of_cuts hcuts l hl kind hkind
  intro t ht
  have := List.mem_map_of_mem (f := Word.ofToken) ht
  rw [Lexeme.map_marked] at this
  exact Lexeme.shaped_of_mem_words hshaped _ this

/-- a program that was read is spelled by the words of its text -/
theorem spells_of_read (h : read source = .ok p) :
    ∃ ls, Lexeme.Cuts {} ls [] ∧ Item.SpellsAll p.items (Lexeme.words none ls) := by
  obtain ⟨-, line, ls, -, -, hline, hcuts, hspans⟩ := cuts_of_read h
  have hspells := Item.spellsAll_of_spansAll (shaped_of_read hline hcuts) hspans
  rw [Lexeme.map_marked, Lexeme.words_gaps hline] at hspells
  exact ⟨ls, hcuts, hspells⟩

/-- a program that was read may stand at the beginning of a text, and no line break comes before
it -/
theorem fits_of_read (h : read source = .ok p) : Item.FitsAll .start p.items ∧
    Item.beginning p.items = p.items := by
  obtain ⟨ls, hcuts, hspells⟩ := spells_of_read h
  exact ⟨(Item.legal_spellsAll hspells).1 (Lexeme.legal_of_cuts hcuts),
    Item.beginning_of_spellsAll hspells⟩

/-- the canonical text of a program is read as the program -/
theorem read_print (h : read source = .ok p) (ht : Item.tidyAll false p.items = true) :
    ∃ p', read p.print = .ok p' ∧ Item.unplacedAll p'.items = Item.unplacedAll p.items := by
  obtain ⟨hfits, hbegin⟩ := fits_of_read h
  obtain ⟨ls, htext, hcuts, hspells⟩ := Item.cuts_print hfits ht
  obtain ⟨items, hread, hun, -⟩ := read_of_spells hcuts hspells
  rw [htext] at hread
  exact ⟨_, hread, by rw [hun, hbegin]⟩

theorem read_print_conditional :
    ∃ p p', read (Text.ofString "a\n.5 ? \x60x$\x7b\n-b /c\x7d\x60 : module \x7b d(/e/g) \x7d") =
        .ok p ∧
      Item.tidyAll false p.items = true ∧ read p.print = .ok p' ∧
      Item.unplacedAll p'.items = Item.unplacedAll p.items := by
  have htidy :
      (read
        (Text.ofString "a\n.5 ? \x60x$\x7b\n-b /c\x7d\x60 : module \x7b d(/e/g) \x7d")).toOption.any
      (fun p => Item.tidyAll false p.items) = true := by decide +kernel
  cases hread :
    read (Text.ofString "a\n.5 ? \x60x$\x7b\n-b /c\x7d\x60 : module \x7b d(/e/g) \x7d") with
  | error e =>
    rw [hread] at htidy
    cases htidy
  | ok p =>
    rw [hread] at htidy
    obtain ⟨p', hp'⟩ := read_print hread htidy
    exact ⟨p, p', rfl, htidy, hp'⟩

end Program

end Relocation
