import Relocation.Proofs.RoundTrip
import Relocation.Proofs.Unplaced

/-!
# The canonical layout is kept

`Program.print_stable`: a canonical text is printed as it stands, unless neighbours that the layout
does not keep apart met on one line when it was made.  A member dot before a number is such a pair:
its text is laid out anew (`print_unstable`).  Others become tokens that are laid out as they stand
(`a . . b` is printed as `a..b`), so tidy neighbours are enough but not needed.
-/

namespace Relocation.Program

open Item (Alike)

variable {source : Text} {p : Program}

/-- tidy items that fit are printed as a text of items that differ from them in their places only -/
theorem read_print_alike {items : List Item} (hf : Item.FitsAll .start items)
    (ht : Item.tidyAll false items = true) : ∃ p', read (Item.print items) = .ok p' ∧
    Alike p'.items items := by
  obtain ⟨ls, htext, hcuts, hspells⟩ := Item.cuts_print hf ht
  obtain ⟨items', hread, hun, hspans⟩ := read_of_spells hcuts hspells
  rw [htext] at hread
  refine ⟨_, hread, ?_⟩
  have hbegin : Item.beginning items' = items' :=
    (fits_of_read hread).2
  rw [Alike, hbegin, hun]

/-- Tidy code is printed as a text that is printed as it stands. -/
theorem print_stable (h : read source = .ok p) (ht : Item.tidyAll false p.items = true) :
    ∃ p', read p.print = .ok p' ∧ p'.print = p.print := by
  obtain ⟨p', hread, halike⟩ := read_print_alike (fits_of_read h).1 ht
  exact ⟨p', hread, halike.print_eq⟩

theorem print_stable_member : ∃ p p', read (Text.ofString "a ?. [b\n.5] /* c */") = .ok p ∧
    Item.tidyAll false p.items = true ∧ read p.print = .ok p' ∧ p'.print = p.print := by
  have htidy :
      (read (Text.ofString "a ?. [b\n.5] /* c */")).toOption.any (fun p =>
      Item.tidyAll false p.items) = true := by
    decide +kernel
  obtain ⟨p, hread, htidy⟩ := Except.exists_of_any htidy
  obtain ⟨p', hp'⟩ := print_stable hread htidy
  exact ⟨p, p', hread, htidy, hp'⟩

/-- the dot and the number become one token, and the next layout sets a blank before it -/
theorem print_unstable : ∃ p p', read (Text.ofString "a . 5") = .ok p ∧ read p.print = .ok p' ∧
    p'.print ≠ p.print := by
  have hprint :
      (read (Text.ofString "a . 5") >>= fun p => .ok p.print) = .ok (Text.ofString "a.5") := by
    decide +kernel
  have hagain :
      (read (Text.ofString "a.5") >>= fun p => .ok p.print) = .ok (Text.ofString "a .5") := by
    decide +kernel
  obtain ⟨p, hp, hprint⟩ := Except.bind_eq_ok.1 hprint
  obtain ⟨p', hp', hagain⟩ := Except.bind_eq_ok.1 hagain
  obtain hprint := Except.ok.inj hprint
  obtain hagain := Except.ok.inj hagain
  refine ⟨p, p', hp, by rw [hprint, hp'], ?_⟩
  rw [hprint, hagain]
  decide

end Relocation.Program
