import Relocation.Proofs.Inside

/-!
# Blocks and modules

`Compile.bodies_stand_alone`: a module block is compiled like a module of its own.  Its body is the
plan of the text that the text between its braces is compiled to, and nothing around the block has a
part in it.
-/

namespace Relocation.Compile

variable {options : Options}

theorem result_text (options : Options) (source : Text) :
    (text options source).result = Program.read source >>= fun p =>
      (lower options p.items).result >>= fun lowered => printed options lowered.1 := by
  simp only [text, program, printed, Noted.result_bind, Noted.result_lift, Noted.result_tell,
    Noted.result_pure]
  cases Program.read source with
  | error e => rfl
  | ok p =>
    simp only [bind, Except.bind]
    cases (lower options p.items).result with
    | error e => rfl
    | ok lowered =>
      simp only
      cases (⟨lowered.1, none⟩ : Program).withSupport options with
      | error e => rfl
      | ok program => simp only; cases program.printFor options <;> rfl

/-- a text is compiled to what is printed of any sequence alike its own -/
theorem text_of_alike {items : List Item} {source t : Text} {p : Program}
    (hread : Program.read source = .ok p) (halike : Item.Alike p.items items)
    (h : ((lower options items).result >>= fun lowered => printed options lowered.1) = .ok t) :
    (text options source).result = .ok t := by
  obtain ⟨⟨out, plans⟩, hlower, hprinted⟩ := Except.bind_eq_ok.1 h
  obtain ⟨out', hlower', halike'⟩ := lower_of_alike halike hlower
  rw [result_text]
  exact Except.bind_eq_ok.2 ⟨p, hread,
    Except.bind_eq_ok.2 ⟨_, hlower', (printed_of_alike halike').trans hprinted⟩⟩

/-- a text whose sequence is alike that of a block is compiled to the text that the block's plan is
made from -/
theorem text_of_lowersTo {items : List Item} {m : Mark} {closeNewline : Bool} {plan : Plan}
    (h : LowersTo options (.block items m closeNewline) plan) {slice : Text} {p : Program}
    (hread : Program.read slice = .ok p) (halike : Item.Alike p.items items) :
    ∃ t, (text options slice).result = .ok t ∧ planOf t = .ok plan := by
  obtain ⟨_, _, _, out, hblock, h⟩ := h
  obtain ⟨rfl, rfl, rfl⟩ := Item.block.inj hblock
  obtain ⟨body, inner, plan', artifact, hlower, hplan, -, hplans, -⟩ := lowerItem_block_eq_ok.1 h
  obtain rfl := List.singleton_inj.1 hplans
  rw [result_bodyPlan] at hplan
  obtain ⟨t, hprinted, hplan⟩ := Except.bind_eq_ok.1 hplan
  exact ⟨t, text_of_alike hread halike (Except.bind_eq_ok.2 ⟨_, hlower, hprinted⟩), hplan⟩

/-- the body of every outermost block of a module is that of the text between its braces, compiled
by itself -/
theorem bodies_stand_alone {source metaUrl : Text} {bodies : List Text}
    (h : (Compile.bodies options source metaUrl).result = .ok bodies) :
    ∃ p, Program.read source = .ok p ∧
      List.Forall₂ (fun block body => ∃ slice t plan,
        Item.inside? source block = some slice ∧ (text options slice).result = .ok t ∧
          planOf t = .ok plan ∧ plan.textAt metaUrl = .ok body)
        (Item.outerBlocksAll p.items) bodies := by
  obtain ⟨p, -, -, hread, -, hbodies⟩ := bodies_eq_ok h
  have hinside := (List.forall₂_and_left _ _).2 ⟨fun block hblock => hblock, hbodies⟩
  refine ⟨p, hread, hinside.imp ?_⟩
  rintro block body ⟨hmem, plan, hlowers, hbody⟩
  obtain ⟨items, m, c, out, rfl, hlower⟩ := hlowers
  obtain ⟨slice, p', hslice, hread', halike⟩ := Program.read_inside hread hmem
  obtain ⟨t, ht, hplan⟩ := text_of_lowersTo ⟨items, m, c, out, rfl, hlower⟩ hread' halike
  exact ⟨slice, t, plan, hslice, ht, hplan, hbody⟩

theorem bodies_stand_alone_argument :
    (Compile.bodies {} (Text.ofString "f(module /*\x7b*/ \x7b a \x7d)")
      (Text.ofString "https://h/m.js")).result =
      .ok [Text.ofString "import \x7b ModuleBlock \x7d from \"https://h/module-blocks-shim.js\";\na"] ∧
    ∃ p, Program.read (Text.ofString "f(module /*\x7b*/ \x7b a \x7d)") = .ok p ∧
      List.Forall₂ (fun block body => ∃ slice t plan,
        Item.inside? (Text.ofString "f(module /*\x7b*/ \x7b a \x7d)") block = some slice ∧
          (text {} slice).result = .ok t ∧ planOf t = .ok plan ∧
          plan.textAt (Text.ofString "https://h/m.js") = .ok body)
        (Item.outerBlocksAll p.items)
        [Text.ofString "import \x7b ModuleBlock \x7d from \"https://h/module-blocks-shim.js\";\na"] := by
  have hbodies : (Compile.bodies {} (Text.ofString "f(module /*\x7b*/ \x7b a \x7d)")
      (Text.ofString "https://h/m.js")).result =
      .ok [Text.ofString "import \x7b ModuleBlock \x7d from \"https://h/module-blocks-shim.js\";\na"] := by
    decide +kernel
  exact ⟨hbodies, bodies_stand_alone hbodies⟩

end Relocation.Compile
