import Relocation.Proofs.Imported

/-!
# Exactly one support import

The import that was put in front of a program is recognised there, and also when its text is read
again: the JSON literal of a specifier is one string with the specifier for its value.  So it is put
in front once (`recognises_support`).
-/

namespace Relocation

namespace Item

/-- the item at another place -/
def remarked (m : Mark) : Item → Item
  | .leaf k t _ => .leaf k t m
  | .group b items _ c => .group b items m c
  | .template q rest _ => .template q rest m
  | .block items _ c => .block items m c

/-- the sequences are the same, but for the place of the first item -/
def SameButFirst : List Item → List Item → Prop
  | [], [] => True
  | i :: r, j :: s => (∃ m, j = i.remarked m) ∧ s = r
  | _, _ => False

theorem onNewLine_eq_remarked (i : Item) : i.onNewLine = i.remarked ⟨none, true⟩ := by
  cases i <;> rfl

theorem sameButFirst_onNewLine (items : List Item) :
    SameButFirst items (items.head?.elim [] fun i => i.onNewLine :: items.tail) := by
  cases items with
  | nil => trivial
  | cons i r => exact ⟨⟨_, onNewLine_eq_remarked i⟩, rfl⟩

end Item

/-- a JSON literal is cut into one string -/
theorem TokenStream.ofText_literal (t : Text) : ofText (Json.literal t) =
    ⟨[⟨.string, Json.literal t, .start, Position.start.advance (Json.literal t)⟩], none⟩ := by
  have hcuts : Lexeme.Cuts {} [⟨.token .string, Json.literal t⟩] [] := by
    refine ⟨⟨.char '"', Literal.quotedBody t ++ [.char '"'], rfl, .string (.inl rfl) ?_⟩, trivial⟩
    rw [Lexeme.textOf_nil, List.append_nil, List.append_nil, Lexical.stringLength?_quotedBody,
      List.length_append]
    rfl
  have hcut : Lexeme.cut (Json.literal t) = ([⟨.token .string, Json.literal t⟩], none) := by
    simpa using Lexeme.cut_of_cuts hcuts
  rw [ofText, hcut]
  rfl

theorem Literal.value_literal_of_scalar {t : Text} (h : t.Scalar) :
    value (Json.literal t) = .ok t := by
  rw [value_literal, requoted_of_scalar (List.all_eq_true.2 h)]

namespace Program

open Support.Import

variable {options : Options} {name specifier : Text} {p : Program} {present : Bool}

theorem withSupport?_eq (h : isPresent options p.items = .ok present) : p.withSupport? options =
    if present then .ok none
    else Support.Import.items options >>= fun support =>
      .ok (some ⟨support ++ p.items.head?.elim [] fun i => i.onNewLine :: p.items.tail, none⟩) := by
  rw [withSupport?, h]
  cases present with
  | true => rfl
  | false => cases p.items <;> rfl

theorem withSupport_of_present (h : isPresent options p.items = .ok true) :
    p.withSupport? options = .ok none ∧ p.withSupport options = .ok p := by
  have hnone := withSupport?_eq h
  exact ⟨hnone, by rw [withSupport, hnone]; rfl⟩

/-- **The support import is put in front once.** It is found where it was put, and where its text is
read. -/
theorem recognises_support (hclass : options.className = some name)
    (hspecifier : options.supportSpecifier = some specifier)
    (hname : Token.Readable .name name) (hscalar : specifier.Scalar)
    (h : isPresent options p.items = .ok present) :
    (∃ q, p.withSupport options = .ok q ∧
      (present = true → q = p) ∧
      (present = false → q.source = none ∧
        ∃ items, q.items = itemsOf name specifier ++ items ∧ Item.SameButFirst p.items items) ∧
      isPresent options q.items = .ok true ∧ q.withSupport? options = .ok none ∧
      q.withSupport options = .ok q) ∧
    Support.Import.items options = .ok (itemsOf name specifier) ∧
    (∃ r, read (Item.print (itemsOf name specifier)) = .ok r ∧
      Item.bareAll r.items = itemsOf name specifier ∧
      isPresent options r.items = .ok true) ∧
    ∃ stop, TokenStream.ofText (Json.literal specifier) =
      ⟨[⟨.string, Json.literal specifier, .start, stop⟩], none⟩ ∧
      Literal.value (Json.literal specifier) = .ok specifier := by
  have hitems := items_eq_ok hclass hspecifier hname
  refine ⟨?_, hitems, ?_, _, TokenStream.ofText_literal specifier,
    Literal.value_literal_of_scalar hscalar⟩
  · have hwith := withSupport?_eq h
    cases present with
    | true =>
      obtain ⟨hnone, hself⟩ := withSupport_of_present h
      exact ⟨p, hself, fun _ => rfl, nofun, h, hnone, hself⟩
    | false =>
      rw [hitems] at hwith
      have hfound :=
        isPresent_itemsOf hclass hspecifier hscalar (p.items.head?.elim [] fun i =>
          i.onNewLine :: p.items.tail)
      obtain ⟨hnone, hself⟩ := withSupport_of_present (p := ⟨_, none⟩) hfound
      exact ⟨⟨_, none⟩, by rw [withSupport, hwith]; rfl, nofun,
        fun _ => ⟨rfl, _, rfl, Item.sameButFirst_onNewLine p.items⟩, hfound, hnone, hself⟩
  · have htidy : Item.tidyAll false (itemsOf name specifier) = true := rfl
    obtain ⟨r, hread, halike⟩ := read_print_alike (fitsAll_itemsOf hname) htidy
    refine ⟨r, hread, halike.bareAll_eq, ?_⟩
    rw [halike.congr (isPresent_unplaced options) (isPresent_beginning options)]
    simpa using isPresent_itemsOf hclass hspecifier hscalar []

/-- a specifier of everything that a literal has to escape, and of more that a program might trip
over -/
def intricate : Text := "/s'\"\\\n\x00\x7f\u2028\u2029$\x7b😀\x60.js"

theorem recognises_support_intricate :
    Token.Readable .name (Text.ofString "B") ∧ intricate.Scalar ∧
    isPresent ⟨some intricate, some "B"⟩ [.leaf .name "x" ⟨some ⟨0, 1⟩, false⟩, .punct ";"] =
      .ok false ∧
    ∃ q items,
      (⟨[.leaf .name "x" ⟨some ⟨0, 1⟩, false⟩, .punct ";"], some "x;"⟩ : Program).withSupport
        ⟨some intricate, some "B"⟩ = .ok q ∧
      q.items = itemsOf "B" intricate ++ items ∧
      Item.SameButFirst [.leaf .name "x" ⟨some ⟨0, 1⟩, false⟩, .punct ";"] items ∧
      isPresent ⟨some intricate, some "B"⟩ q.items = .ok true := by
  have hname : Token.Readable .name (Text.ofString "B") := Item.readable_of_front (by decide)
  have hscalar : intricate.Scalar := Text.scalar_ofString _
  have habsent :
      isPresent ⟨some intricate, some "B"⟩ [.leaf .name "x" ⟨some ⟨0, 1⟩, false⟩, .punct ";"] =
        .ok false := rfl
  have hspecifier : (⟨some intricate, some "B"⟩ : Options).supportSpecifier = some intricate := rfl
  obtain ⟨⟨q, hq, -, hadded, hfound, -⟩, -⟩ :=
    recognises_support (p := ⟨_, some "x;"⟩) rfl hspecifier hname hscalar habsent
  obtain ⟨-, items, hitems, hsame⟩ := hadded rfl
  exact ⟨hname, hscalar, habsent, q, items, hq, hitems, hsame, hfound⟩

end Program

end Relocation
