import Relocation.Proofs.NormalForm
import Relocation.Proofs.Standalone
import Relocation.Proofs.Standing

/-!
# Compiled code is compiled to itself

What compilation gives is `Compiled`: it is settled, no call in it is left to guard and the
support import is there.  Where they are rebuilt as well, compiled items pass through compilation
unchanged (`Compile.text_print`).  So compiling a second time changes nothing where the program has
no neighbours outside of its blocks that are printed as something else
(`Compile.text_idempotent`).
-/

namespace Relocation.Compile

open Item

variable {options : Options} {items : List Item}

/-- what compilation gives: nothing is left to do -/
structure Compiled (items : List Item) : Prop where
  settled : Settled parted items
  guarded : GuardedAll {} items
  present : Support.Import.isPresent {} items = .ok true

theorem compiled_of_printed {t : Text} (hsettled : Settled parted items)
    (hguarded : GuardedAll {} items) (hrebuilt : RebuiltEach items) (h : printed {} items = .ok t) :
    ∃ items', t = print items' ∧ Compiled items' ∧ RebuiltEach items' := by
  rw [printed_eq, items_eq_supportItems] at h
  obtain ⟨present, hpresent, h⟩ := Except.bind_eq_ok.1 h
  cases present with
  | true => exact ⟨items, (Except.ok.inj h).symm, ⟨hsettled, hguarded, hpresent⟩, hrebuilt⟩
  | false =>
    exact ⟨_, (Except.ok.inj h).symm, ⟨settled_supported lawful_parted hsettled,
      Support.Import.guardedAll_itemsOf hguarded,
      Support.Import.isPresent_itemsOf rfl rfl (Text.scalar_ofString _) _⟩,
      rebuilt_itemsOf hrebuilt⟩

/-- compiled items are printed as a text that is compiled to itself -/
theorem text_print (h : Compiled items) (hrebuilt : RebuiltEach items) :
    (text {} (print items)).result = .ok (print items) := by
  obtain ⟨p, hread, halike⟩ := Program.read_print_alike h.settled.fits h.settled.tidy
  have hlower := lower_of_rebuilt h.guarded.1 (lowerAll_of_rebuilt h.guarded.2 hrebuilt)
  obtain ⟨out, hout, halike'⟩ := lower_of_alike halike hlower
  have hprinted : printed {} items = .ok (print items) := by
    rw [printed_eq, h.present]
    rfl
  refine (result_text _ _).trans ?_
  rw [hread]
  refine Except.bind_eq_ok.2 ⟨p, rfl, Except.bind_eq_ok.2 ⟨_, hout, ?_⟩⟩
  rw [printed_of_alike halike', hprinted]

variable {source t : Text} {p : Program}

/-- Compiling a second time changes nothing, if no neighbours outside of blocks run into each other
when they are printed and no regular expression stands behind a block. -/
theorem text_idempotent (hread : Program.read source = .ok p)
    (hkept : keepsAll parted {} p.items = true) (h : (text {} source).result = .ok t) :
    (text {} t).result = .ok t := by
  have htext := (result_text {} source).symm.trans h
  rw [hread] at htext
  obtain ⟨p', hp, htext⟩ := Except.bind_eq_ok.1 htext
  obtain rfl := Except.ok.inj hp
  obtain ⟨⟨items, plans⟩, hlower, hprinted⟩ := Except.bind_eq_ok.1 htext
  have hsettled :=
    settled_of_lower lawful_parted (by simp [parted]) readable_classCode
      (Program.fits_of_read hread).1 hkept
    hlower
  have hguarded := guarded_of_guardCallsAfter rfl (fun _ _ h => guarded_of_lowerAll rfl h) hlower
  have hrebuilt := rebuilt_of_guardCallsAfter (fun _ _ h => rebuilt_of_lowerAll h) hlower
  obtain ⟨items', rfl, hcompiled, hrebuilt⟩ :=
    compiled_of_printed hsettled hguarded hrebuilt hprinted
  exact text_print hcompiled hrebuilt

theorem text_idempotent_calls :
    ∃ p t, Program.read (Text.ofString "f(import(a, ), import('./b'))") = .ok p ∧
      keepsAll parted {} p.items = true ∧
      (text {} (Text.ofString "f(import(a, ), import('./b'))")).result = .ok t ∧
      (text {} t).result = .ok t := by
  have hkept : (Program.read (Text.ofString "f(import(a, ), import('./b'))")).toOption.any
      (fun p => keepsAll parted {} p.items) = true := by
    rw [Text.ofString_ofList]
    decide +kernel
  have htext : (text {} (Text.ofString "f(import(a, ), import('./b'))")).result = .ok
      (Text.ofString "import \x7b ModuleBlock \x7d from \"/module-blocks-shim.js\";\n" ++
        Text.ofString "f(import(ModuleBlock.fixup(a)), import(new URL('./b', import.meta.url)))") := by
    rw [Text.ofString_ofList, Text.ofString_ofList, Text.ofString_ofList]
    decide +kernel
  obtain ⟨p, hread, hkept⟩ := Except.exists_of_any hkept
  exact ⟨p, _, hread, hkept, htext, text_idempotent hread hkept htext⟩

/-- the dot and the number are one token the second time, and a blank stands before it -/
theorem text_unstable :
    ∃ t t', (text {} (Text.ofString "a . 5")).result = .ok t ∧ (text {} t).result = .ok t' ∧
      t' ≠ t := by
  refine ⟨Text.ofString "import \x7b ModuleBlock \x7d from \"/module-blocks-shim.js\";\na.5",
    Text.ofString "import \x7b ModuleBlock \x7d from \"/module-blocks-shim.js\";\na .5", ?_⟩
  rw [Text.ofString_ofList, Text.ofString_ofList, Text.ofString_ofList]
  decide +kernel

end Relocation.Compile
