import Relocation.Proofs.Inside

/-!
# Where items stand in their text

The tokens of a text lie one behind the other, so the items read from them do, at every depth
(`Item.placedAll_of_read`).
-/

namespace Relocation

namespace Token

/-- the tokens lie one behind the other between two offsets, and none is empty -/
def Run (lo hi : Nat) : List (Token × Bool) → Prop
  | [] => lo ≤ hi
  | (t, _) :: r => lo ≤ t.start.offset ∧ t.start.offset < t.stop.offset ∧ Run t.stop.offset hi r

variable {lo lo' hi hi' : Nat} {a b ts : List (Token × Bool)}

theorem Run.mono (h : Run lo hi ts) (hlo : lo' ≤ lo) (hhi : hi ≤ hi') : Run lo' hi' ts := by
  induction ts generalizing lo lo' with
  | nil =>
    have : lo ≤ hi := h
    show lo' ≤ hi'
    omega
  | cons t ts ih =>
    obtain ⟨h₁, h₂, h₃⟩ := h
    exact ⟨by omega, h₂, ih h₃ (Nat.le_refl _)⟩

theorem Run.le (h : Run lo hi ts) : lo ≤ hi := by
  induction ts generalizing lo with
  | nil => exact h
  | cons t ts ih =>
    obtain ⟨h₁, h₂, h₃⟩ := h
    have := ih h₃
    omega

theorem exists_run_of_append (h : Run lo hi (a ++ b)) : ∃ mid, Run lo mid a ∧ Run mid hi b := by
  induction a generalizing lo with
  | nil => exact ⟨lo, Nat.le_refl lo, h⟩
  | cons t a ih =>
    obtain ⟨h₁, h₂, h₃⟩ := h
    obtain ⟨mid, ha, hb⟩ := ih h₃
    exact ⟨mid, ⟨h₁, h₂, ha⟩, hb⟩

end Token

namespace Lexeme

theorem run_withBreaks {ls : List Lexeme} (h : ∀ l ∈ ls, l.text ≠ []) :
    ∀ (p : Position) (last : Option Nat),
    Token.Run p.offset (stop p ls).offset (Token.withBreaks last (tokens p ls)) := by
  induction ls with
  | nil =>
    intro p last
    exact Nat.le_refl p.offset
  | cons l ls ih =>
    intro p last
    have ih := ih fun l' hl' => h l' (by simp [hl'])
    have hpos := List.length_pos_iff.2 (h l (by simp))
    have hadvance := Position.offset_advance p l.text
    rw [tokens, stop]
    cases l.front with
    | gap => exact (ih (p.advance l.text) last).mono (by omega) (Nat.le_refl _)
    | token kind => exact ⟨Nat.le_refl _, by simp only; omega, ih _ _⟩

theorem run_marked {ls : List Lexeme} {ctx : Token.Context} {rest : Text} (h : Cuts ctx ls rest) :
    Token.Run 0 (textOf ls).length (marked ls) := by
  have := run_withBreaks (text_ne_nil_of_cuts h) .start none
  rwa [offset_stop, show Position.start.offset = 0 from rfl, Nat.zero_add] at this

end Lexeme

namespace Item

open Token (Run)

mutual
/-- the item lies between two offsets, and what is inside of it within its own range -/
def Placed (lo hi : Nat) : Item → Prop
  | .leaf _ _ m =>
    ∃ range, m.range = some range ∧ lo ≤ range.start ∧ range.start < range.stop ∧ range.stop ≤ hi
  | .group _ items m _ =>
    ∃ range, m.range = some range ∧ lo ≤ range.start ∧ range.start < range.stop ∧ range.stop ≤ hi ∧
      PlacedAll range.start range.stop items
  | .template _ rest m =>
    ∃ range, m.range = some range ∧ lo ≤ range.start ∧ range.start < range.stop ∧ range.stop ≤ hi ∧
      PlacedRest range.start range.stop rest
  | .block items m _ =>
    ∃ range, m.range = some range ∧ lo ≤ range.start ∧ range.start < range.stop ∧ range.stop ≤ hi ∧
      PlacedAll range.start range.stop items

/-- the items lie one behind the other -/
def PlacedAll (lo hi : Nat) : List Item → Prop
  | [] => lo ≤ hi
  | i :: r => ∃ mid, Placed lo mid i ∧ PlacedAll mid hi r

def PlacedRest (lo hi : Nat) : List (List Item × Text) → Prop
  | [] => lo ≤ hi
  | (items, _) :: r => ∃ mid, PlacedAll lo mid items ∧ PlacedRest mid hi r
end

variable {lo hi : Nat} {i : Item} {a b : List Item}

theorem range_of_placed (h : Placed lo hi i) :
    ∃ range, i.range? = some range ∧ lo ≤ range.start ∧ range.start < range.stop ∧
    range.stop ≤ hi := by
  cases i with
  | leaf k t m => exact h
  | group b items m c =>
    obtain ⟨range, hr, h₁, h₂, h₃, -⟩ := h
    exact ⟨range, hr, h₁, h₂, h₃⟩
  | template q rest m =>
    obtain ⟨range, hr, h₁, h₂, h₃, -⟩ := h
    exact ⟨range, hr, h₁, h₂, h₃⟩
  | block items m c =>
    obtain ⟨range, hr, h₁, h₂, h₃, -⟩ := h
    exact ⟨range, hr, h₁, h₂, h₃⟩

theorem placed_le (h : Placed lo hi i) : lo ≤ hi := by
  obtain ⟨range, -, h₁, h₂, h₃⟩ := range_of_placed h
  omega

theorem placedAll_le (h : PlacedAll lo hi a) : lo ≤ hi := by
  induction a generalizing lo with
  | nil => exact h
  | cons i a ih =>
    obtain ⟨mid, hi, ha⟩ := h
    exact Nat.le_trans (placed_le hi) (ih ha)

theorem placedRest_le {rest : List (List Item × Text)} (h : PlacedRest lo hi rest) : lo ≤ hi := by
  induction rest generalizing lo with
  | nil => exact h
  | cons part rest ih =>
    obtain ⟨mid, hitems, hrest⟩ := h
    exact Nat.le_trans (placedAll_le hitems) (ih hrest)

theorem exists_placedAll_of_append (h : PlacedAll lo hi (a ++ b)) :
    ∃ mid, PlacedAll lo mid a ∧ PlacedAll mid hi b := by
  induction a generalizing lo with
  | nil => exact ⟨lo, Nat.le_refl lo, h⟩
  | cons i a ih =>
    obtain ⟨m, hi, h⟩ := h
    obtain ⟨mid, ha, hb⟩ := ih h
    exact ⟨mid, ⟨m, hi, ha⟩, hb⟩

theorem exists_placed_of_middle (h : PlacedAll lo hi (a ++ i :: b)) :
    ∃ start stop, PlacedAll lo start a ∧ Placed start stop i ∧ PlacedAll stop hi b := by
  obtain ⟨start, ha, stop, hi, hb⟩ := exists_placedAll_of_append h
  exact ⟨start, stop, ha, hi, hb⟩

/-! ## items read from tokens -/

mutual
theorem placed_of_spans : ∀ {i : Item} {ts : List (Token × Bool)}, Spans i ts → ∀ lo hi : Nat,
    Run lo hi ts → Placed lo hi i
  | .leaf _ _ _, _, h => by
    intro lo hi hrun
    obtain ⟨token, newline, -, -, rfl, rfl⟩ := h
    obtain ⟨h₁, h₂, h₃⟩ := hrun
    exact ⟨_, rfl, h₁, h₂, h₃⟩
  | .group _ _ _ _, _, h => by
    intro lo hi hrun
    obtain ⟨first, newline, inner, last, -, -, rfl, hinner, rfl⟩ := h
    obtain ⟨h₁, h₂, hrun⟩ := hrun
    obtain ⟨mid, hin, h₃, h₄, h₅⟩ := Token.exists_run_of_append hrun
    have hle := hin.le
    refine ⟨_, rfl, h₁, by simp only; omega, h₅, ?_⟩
    exact placedAll_of_spansAll hinner _ _ (hin.mono (Nat.le_of_lt h₂) (by simp only; omega))
  | .template _ [] _, _, h => by
    intro lo hi hrun
    obtain ⟨token, newline, -, -, rfl, rfl⟩ := h
    obtain ⟨h₁, h₂, h₃⟩ := hrun
    exact ⟨_, rfl, h₁, h₂, h₃, Nat.le_of_lt h₂⟩
  | .template _ (_ :: _) _, _, h => by
    intro lo hi hrun
    obtain ⟨first, newline, inner, last, -, -, rfl, hrest, rfl⟩ := h
    obtain ⟨h₁, h₂, hrun⟩ := hrun
    obtain ⟨h₃, h₄, hplaced⟩ :=
      placedRest_of_spansRest hrest _ _ (hrun.mono (Nat.le_of_lt h₂) (Nat.le_refl hi))
    exact ⟨_, rfl, h₁, h₃, h₄, hplaced⟩
  | .block _ _ _, _, h => by
    intro lo hi hrun
    obtain ⟨first, newline, brace, braceNewline, inner, last, -, -, -, rfl, hinner, rfl⟩ := h
    obtain ⟨h₁, h₂, h₃, h₄, hrun⟩ := hrun
    obtain ⟨mid, hin, h₅, h₆, h₇⟩ := Token.exists_run_of_append hrun
    have hle := hin.le
    refine ⟨_, rfl, h₁, by simp only; omega, h₇, ?_⟩
    exact placedAll_of_spansAll hinner _ _ (hin.mono (by simp only; omega) (by simp only; omega))

theorem placedAll_of_spansAll : ∀ {items : List Item} {ts : List (Token × Bool)},
    SpansAll items ts → ∀ lo hi : Nat, Run lo hi ts → PlacedAll lo hi items
  | [], _, h => by
    intro lo hi hrun
    obtain rfl := h
    exact hrun
  | _ :: _, _, h => by
    intro lo hi hrun
    obtain ⟨a, b, ha, hb, rfl⟩ := h
    obtain ⟨mid, hra, hrb⟩ := Token.exists_run_of_append hrun
    exact ⟨mid, placed_of_spans ha lo mid hra, placedAll_of_spansAll hb mid hi hrb⟩

theorem placedRest_of_spansRest :
    ∀ {rest : List (List Item × Text)} {ts : List (Token × Bool)} {last : Token},
    SpansRest rest ts last → ∀ lo hi : Nat, Run lo hi ts →
    lo < last.stop.offset ∧ last.stop.offset ≤ hi ∧ PlacedRest lo last.stop.offset rest
  | [], _, _, h => h.elim
  | [(_, _)], _, last, h => by
    intro lo hi hrun
    obtain ⟨inner, newline, hinner, -, -, rfl⟩ := h
    obtain ⟨mid, hin, h₁, h₂, h₃⟩ := Token.exists_run_of_append hrun
    have hle := hin.le
    refine ⟨by omega, h₃, mid, placedAll_of_spansAll hinner lo mid hin, ?_⟩
    show mid ≤ last.stop.offset
    omega
  | (_, _) :: _ :: _, _, _, h => by
    intro lo hi hrun
    obtain ⟨inner, chunk, newline, more, hinner, -, -, hmore, rfl⟩ := h
    obtain ⟨mid, hin, h₁, h₂, hrun⟩ := Token.exists_run_of_append hrun
    have hle := hin.le
    obtain ⟨h₃, h₄, hplaced⟩ :=
      placedRest_of_spansRest hmore mid hi (hrun.mono (by omega) (Nat.le_refl hi))
    exact ⟨by omega, h₄, mid, placedAll_of_spansAll hinner lo mid hin, hplaced⟩
end

end Item

end Relocation
