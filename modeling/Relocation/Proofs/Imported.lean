import Relocation.Proofs.Canonical
import Relocation.Proofs.Guarded
import Relocation.Proofs.Quotation
import Relocation.Proofs.Scalar
import Relocation.Proofs.Settled

/-!
# The support import

Where the block class has a name, the items of the support import are known whatever the specifier
is (`Support.Import.items_eq_ok`).  With them in front the import is found again
(`isPresent_itemsOf`), and no call is to be guarded that was not before (`guardedAll_itemsOf`).
-/

namespace Relocation.Support.Import

open Item
open Token (Readable)

/-- the tree of `import { name } from "specifier";` -/
def itemsOf (name specifier : Text) : List Item :=
  [.name "import", .grouped .brace [.name name], .name "from",
    .leaf .string (Json.literal specifier) {}, .punct ";"]

variable {options : Options} {name specifier : Text} {items : List Item}

theorem fitsAll_itemsOf (hname : Readable .name name) : FitsAll .start (itemsOf name specifier) :=
  ⟨fits_name (readable_of_front (by decide)) _, ⟨fits_name hname _, trivial⟩,
    fits_name (readable_of_front (by decide)) _, fits_string (readable_literal _) _,
    fits_punct (readable_of_front (by decide)) (by decide) _, trivial⟩

theorem print_itemsOf (hclass : options.className = some name)
    (hspecifier : options.supportSpecifier = some specifier) :
    print (itemsOf name specifier) = text options := by
  have hprint :
      print (itemsOf name specifier) = Text.ofString "import" ++ [.char ' '] ++
        (Text.ofString "\x7b" ++ [.char ' '] ++
      (name ++ [.char ' '] ++ (Text.ofString "\x7d" ++ [.char ' '] ++
        (Text.ofString "from" ++ [.char ' '] ++
          (Json.literal specifier ++ [] ++ Text.ofString ";"))))) := rfl
  rw [hprint, text, Options.classCode, hclass, hspecifier]
  simp only [Option.getD_some, Json.optionalLiteral, List.append_assoc, List.nil_append]
  rfl

/-- what is put in front of compiled code -/
theorem items_eq_ok (hclass : options.className = some name)
    (hspecifier : options.supportSpecifier = some specifier)
    (hname : Readable .name name) :
    Support.Import.items options = .ok (itemsOf name specifier) := by
  obtain ⟨p, hread, halike⟩ :=
    Program.read_print_alike (fitsAll_itemsOf hname)
      (rfl : tidyAll false (itemsOf name specifier) = true)
  rw [Support.Import.items, Program.readFragment, ← print_itemsOf hclass hspecifier, hread]
  exact congrArg Except.ok halike.bareAll_eq

theorem isPresent_itemsOf (hclass : options.className = some name)
    (hspecifier : options.supportSpecifier = some specifier)
    (hscalar : specifier.Scalar) (r : List Item) :
    isPresent options (itemsOf name specifier ++ r) = .ok true := by
  have hvalue : Literal.value (Json.literal specifier) = .ok specifier := by
    rw [Literal.value_literal, Literal.requoted_of_scalar (List.all_eq_true.2 hscalar)]
  have hnamed : options.isClass (.name name) = true := by
    rw [Options.isClass, hclass]
    exact decide_eq_true rfl
  have hleads : leads options (itemsOf name specifier ++ r) =
      if true && options.isClass (.name name) && true then
      Literal.value (Json.literal specifier) >>= fun value =>
        .ok (decide (some value = options.supportSpecifier))
    else .ok false := rfl
  have hfound : leads options (itemsOf name specifier ++ r) = .ok true := by
    rw [hleads, hnamed, hvalue, hspecifier]
    exact congrArg Except.ok (decide_eq_true rfl)
  show (leads options (itemsOf name specifier ++ r) >>= _) = _
  rw [hfound]
  rfl

/-- with the support import in front there is still no call to guard -/
theorem guardedAll_itemsOf (h : GuardedAll options items) :
    GuardedAll options (itemsOf name specifier ++ items.head?.elim [] fun i =>
    i.onNewLine :: items.tail) := by
  have hsupport : GuardedEach options (itemsOf name specifier) :=
    ⟨trivial, guarded_of_leaves (by simp [Item.name]), trivial, trivial, trivial, trivial⟩
  cases items with
  | nil => exact ⟨.cons rfl (.cons rfl (.cons rfl (.cons rfl (.cons rfl trivial)))), hsupport⟩
  | cons i r =>
    refine ⟨.cons rfl (.cons rfl (.cons rfl (.cons rfl (.cons rfl (.cons ?_ ?_))))),
      guardedEach_append.2 ⟨hsupport, (guarded_onNewLine i).2 h.2.1, h.2.2⟩⟩
    · simp [ImportCall.isCall, punct, isName]
    · refine ImportCall.done_congr ?_ ?_ ?_ h.1.2
      · rfl
      · simp [isMemberDot]
      · simp

end Relocation.Support.Import
