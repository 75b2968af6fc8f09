import Relocation.Tree.Printer

/-!
# Rendered pieces

What rendering does with a sequence of pieces, whatever the pieces are: each piece's text is in the
output, and nothing stands before the first one, so it does not matter whether that one begins a
line.
-/

namespace Relocation

namespace Piece

theorem render_cons_cons (p q : Piece) (r : List Piece) :
    render (p :: q :: r) = p.text ++ (p.separator q ++ render (q :: r)) := by
  rw [render, List.append_assoc]

/-- it does not matter whether the first piece begins a line -/
theorem render_newline (p : Piece) (newline : Bool) (r : List Piece) :
    render ({ p with newline } :: r) = render (p :: r) := by
  cases r with
  | nil => rfl
  | cons q r =>
    rw [render_cons_cons, render_cons_cons]
    rfl

theorem all_text_of_all_render {f : CodePoint → Bool} {p : Piece} : ∀ {ps : List Piece},
    (render ps).all f = true → p ∈ ps → p.text.all f = true := by
  intro ps
  induction ps with
  | nil => intro _ hp; cases hp
  | cons q ps ih =>
    intro h hp
    cases ps with
    | nil => rcases List.mem_singleton.1 hp with rfl; exact h
    | cons q' ps =>
      rw [render_cons_cons, List.all_append, List.all_append] at h
      simp only [Bool.and_eq_true] at h
      rcases List.mem_cons.1 hp with rfl | hp
      · exact h.1
      · exact ih h.2.2 hp

end Piece

namespace Item

theorem pieces_onNewLine (depth : Nat) (i : Item) :
    ∃ p r, pieces depth i = p :: r ∧
    pieces depth i.onNewLine = { p with newline := true } :: r := by
  cases i with
  | leaf k t m => exact ⟨_, _, rfl, rfl⟩
  | group b items m c =>
    exact ⟨_, _, by rw [pieces, List.cons_append], by rw [onNewLine, pieces, List.cons_append]⟩
  | block items m c =>
    exact ⟨_, _, by rw [pieces, List.cons_append], by rw [onNewLine, pieces, List.cons_append]⟩
  | template q rest m =>
    simp only [onNewLine, pieces]
    cases rest.isEmpty <;> exact ⟨_, _, rfl, rfl⟩

@[simp] theorem isName_onNewLine (i : Item) (t : Text) : i.onNewLine.isName t = i.isName t := by
  cases i with
  | leaf k => cases k <;> rfl
  | _ => rfl

@[simp] theorem isPunct_onNewLine (i : Item) (p : Text) : i.onNewLine.isPunct p = i.isPunct p := by
  cases i with
  | leaf k t m => cases k <;> rfl
  | group => rfl
  | template => rfl
  | block => rfl

/-- nothing stands before the first item, not even a line break -/
theorem print_onNewLine (i : Item) (r : List Item) : print (i.onNewLine :: r) = print (i :: r) := by
  obtain ⟨p, ps, hp, hp'⟩ := pieces_onNewLine 0 i
  simp only [print, piecesFrom, isPunct_onNewLine, hp, hp', List.cons_append]
  split
  · exact Piece.render_newline p true _
  · split
    · exact Piece.render_newline ⟨.plain, ":", i.mark.newline, 0⟩ _ _
    · exact Piece.render_newline p true _

/-- the pieces of an item that is no punctuator are among those of a sequence that holds it -/
theorem mem_piecesFrom {depth : Nat} {i : Item} (hi : ∀ t, i.isPunct t = false) {p : Piece}
    (hp : p ∈ pieces depth i) : ∀ {items : List Item} {questions : Nat}, i ∈ items →
    p ∈ piecesFrom depth questions items := by
  intro items
  induction items with
  | nil => intro _ h; cases h
  | cons j r ih =>
    intro questions h
    rcases List.mem_cons.1 h with rfl | h
    · simp [piecesFrom, hi, hp]
    · rw [piecesFrom]
      split
      · exact List.mem_append_right _ (ih h)
      · split
        · exact List.mem_cons_of_mem _ (ih h)
        · exact List.mem_append_right _ (ih h)

end Item

end Relocation
