import Relocation.Proofs.Outline

/-!
# Calls at the top of a program

`Compile.program_guards`: at the top of a program every call of `import` with one argument is
guarded, unless its argument has one of the guarded shapes or a group in braces follows.  Whether
the braces begin a line is not looked at, so a call before a block statement is taken for the
definition of a method and missed (`Compile.text_misses`).
-/

namespace Relocation

open ImportCall (IsFixupOf IsLocated IsLocalLiteral guardArguments guardItem localLiteral? isFixup
  isLocated located fixedUp)

namespace Compile

open Item

variable {items out argument args sketch before behind r : List Item} {plans : List Plan}

/-! ## what lowering shows to neighbours -/

theorem flatMap_loweredFaces_map_face (cls : Text) (items : List Item) :
    (items.map face).flatMap (loweredFaces cls) = items.flatMap (loweredFaces cls) := by
  rw [List.flatMap_map]
  refine congrArg (items.flatMap ·) (funext fun i => ?_)
  cases i <;> rfl

theorem map_face_of_lowerAll (h : (lowerAll {} items).result = .ok (out, plans)) :
    out.map face = items.flatMap (loweredFaces "ModuleBlock") := by
  obtain ⟨hreplace, hplans⟩ := lowerAll_eq_ok h
  have hcreates := createsAll_artifactOf hplans
  obtain ⟨sketch, -, houtlines⟩ := outlines_of_replaceAll hcreates hreplace
  rw [houtlines.filled,
    map_face_filledAll (houtlines.createsAll hcreates), ← flatMap_loweredFaces_map_face,
    houtlines.faces, flatMap_loweredFaces_map_face]

theorem map_face_of_lower (h : (lower {} items).result = .ok (out, plans)) :
    out.map face = items.flatMap (loweredFaces "ModuleBlock") := by
  obtain ⟨lowered, hlowered, hguard⟩ := guardCallsAfter_eq_ok.1 h
  rw [ImportCall.result_guardCalls] at hguard
  rw [ImportCall.map_face_of_guardFrom hguard, map_face_of_lowerAll hlowered]

theorem head_brace_of_lowerAll (h : (lowerAll {} items).result = .ok (out, plans)) :
    out.head?.any (·.isGroup .brace) = items.head?.any (·.isGroup .brace) := by
  have hfaces := congrArg (fun l => l.head?.any (·.isGroup .brace)) (map_face_of_lowerAll h)
  simp only [List.head?_map, Option.any_map, isGroup_face] at hfaces
  rw [hfaces]
  cases items with
  | nil => rfl
  | cons i r =>
    cases i with
    | block => rfl
    | _ => simp [loweredFaces]

theorem last_dot_of_lowerAll (h : (lowerAll {} items).result = .ok (out, plans)) :
    out.getLast?.any (·.isMemberDot) = items.getLast?.any (·.isMemberDot) := by
  have hfaces := congrArg (fun l => l.getLast?.any (·.isMemberDot)) (map_face_of_lowerAll h)
  simp only [List.getLast?_map, Option.any_map, isMemberDot_face] at hfaces
  rw [hfaces]
  rcases List.eq_nil_or_concat items with rfl | ⟨a, i, rfl⟩
  · rfl
  · rw [List.concat_eq_append, List.flatMap_append]
    cases i with
    | block => simp [loweredFaces, isMemberDot, grouped, isPunct]
    | _ => simp [loweredFaces]

theorem no_comma_of_lower (h : (lower {} argument).result = .ok (out, plans))
    (hargument : ∀ i ∈ argument, i.isPunct "," = false) : ∀ j ∈ out, j.isPunct "," = false := by
  intro j hj
  have hface := List.mem_map_of_mem (f := face) hj
  rw [map_face_of_lower h] at hface
  obtain ⟨i, hi, hface⟩ := List.mem_flatMap.1 hface
  exact isPunct_of_mem_loweredFaces (hargument i hi) hface

/-! ## lowering in parts -/

theorem lowerAll_append_eq_ok {a b : List Item}
    (h : (lowerAll {} (a ++ b)).result = .ok (out, plans)) :
    ∃ ahead aheadPlans behind behindPlans, (lowerAll {} a).result = .ok (ahead, aheadPlans) ∧
      (lowerAll {} b).result = .ok (behind, behindPlans) ∧ out = ahead ++ behind := by
  induction a generalizing out plans with
  | nil => exact ⟨[], [], out, plans, rfl, h, rfl⟩
  | cons i a ih =>
    obtain ⟨first, firstPlans, rest, restPlans, hfirst, hrest, rfl, -⟩ := lowerAll_cons_eq_ok.1 h
    obtain ⟨ahead, aheadPlans, behind, behindPlans, hahead, hbehind, rfl⟩ := ih hrest
    refine ⟨first ++ ahead, firstPlans ++ aheadPlans, behind, behindPlans, ?_, hbehind,
      (List.append_assoc _ _ _).symm⟩
    exact lowerAll_cons_eq_ok.2 ⟨_, _, _, _, hfirst, hahead, rfl, rfl⟩

/-- what becomes of a word and a group behind it, in the middle of a sequence -/
theorem lowerAll_call_eq_ok {t : Text} {w m : Mark} {b : Bracket} {closeNewline : Bool}
    {after : List Item}
    (h : (lowerAll {} (before ++ .leaf .name t w :: .group b args m closeNewline :: after)).result =
      .ok (out, plans)) :
    ∃ ahead aheadPlans args' argsPlans behind behindPlans, (lowerAll {} before).result =
      .ok (ahead, aheadPlans) ∧
      (lower {} args).result = .ok (args', argsPlans) ∧
      (lowerAll {} after).result = .ok (behind, behindPlans) ∧
      out = ahead ++ .leaf .name t w :: .group b args' ⟨none, m.newline⟩ closeNewline ::
      behind := by
  obtain ⟨ahead, aheadPlans, _, _, hahead, hcall, rfl⟩ := lowerAll_append_eq_ok h
  obtain ⟨_, _, _, _, hname, hrest, rfl, -⟩ := lowerAll_cons_eq_ok.1 hcall
  obtain ⟨_, _, behind, behindPlans, hgroup, hbehind, rfl, -⟩ := lowerAll_cons_eq_ok.1 hrest
  obtain ⟨rfl, -⟩ := Prod.mk.inj (Except.ok.inj hname)
  obtain ⟨args', hargs, rfl⟩ := lowerItem_group_eq_ok.1 hgroup
  exact ⟨ahead, aheadPlans, args', _, behind, behindPlans, hahead, hargs, hbehind, rfl⟩

/-- a lone argument is lowered to a lone argument -/
theorem argumentsOf_lower (h : (lower {} args).result = .ok (out, plans))
    (hargs : argumentsOf args = [argument]) :
    ∃ argument' plans', (lower {} argument).result = .ok (argument', plans') ∧
    argumentsOf out = [argument'] := by
  obtain ⟨hcommas, ⟨rfl, hne⟩ | ⟨comma, hcomma, rfl⟩⟩ := argumentsOf_eq_singleton.1 hargs
  · refine ⟨out, plans, h, argumentsOf_eq_singleton.2 ⟨no_comma_of_lower h hcommas, .inl ⟨rfl, ?_⟩⟩⟩
    rintro rfl
    have hfaces := map_face_of_lower h
    obtain ⟨i, r, rfl⟩ := List.exists_cons_of_ne_nil hne
    cases i <;> cases hfaces
  · obtain ⟨_, rfl⟩ := exists_of_isPunct hcomma
    obtain ⟨lowered, hlowered, hguard⟩ := guardCallsAfter_eq_ok.1 h
    obtain ⟨ahead, aheadPlans, behind, behindPlans, hahead, hbehind, rfl⟩ :=
      lowerAll_append_eq_ok hlowered
    obtain ⟨rfl, -⟩ := Prod.mk.inj (Except.ok.inj hbehind)
    rw [ImportCall.result_guardCalls] at hguard
    obtain ⟨argument', _, hargument', hnil, rfl⟩ :=
      ImportCall.guardFrom_append_eq_ok hguard fun _ => rfl
    obtain rfl := Except.ok.inj hnil
    have hlower : (lower {} argument).result = .ok (argument', aheadPlans) :=
      guardCallsAfter_eq_ok.2 ⟨_, hahead, by rw [ImportCall.result_guardCalls]; exact hargument'⟩
    exact ⟨argument', aheadPlans, hlower,
      argumentsOf_eq_singleton.2 ⟨no_comma_of_lower hlower hcommas, .inr ⟨_, hcomma, rfl⟩⟩⟩

/-! ## shapes of lowered arguments -/

theorem localLiteral?_of_outline (h : outline argument = .ok sketch) :
    localLiteral? sketch = localLiteral? argument := by
  have hfaces := map_face_of_outline h
  match argument with
  | [] =>
    obtain rfl := List.map_eq_nil_iff.1 hfaces
    rfl
  | [i] =>
    obtain ⟨j, _, rfl, hj, hnil⟩ := List.map_eq_cons_iff.1 hfaces
    obtain rfl := List.map_eq_nil_iff.1 hnil
    cases i with
    | leaf k t m =>
      obtain ⟨rfl, -⟩ := List.cons.inj (Except.ok.inj h)
      rfl
    | _ =>
      rw [localLiteral?, ← stringText?_face, hj]
      rfl
  | i :: i' :: r =>
    obtain ⟨j, _, rfl, -, hfaces⟩ := List.map_eq_cons_iff.1 hfaces
    obtain ⟨j', _, rfl, -, -⟩ := List.map_eq_cons_iff.1 hfaces
    rfl

/-- no argument takes the shape of `new URL(…)` on the way -/
theorem isLocated_of_outline (h : outline argument = .ok sketch)
    (hlocated : isLocated sketch = true) : isLocated argument = true := by
  obtain ⟨out, hout, hguard⟩ := Except.bind_eq_ok.1 h
  rw [ImportCall.result_guardCalls] at hguard
  have himport : ∀ i ∈ sketch, i.isName "import" = false := by
    obtain ⟨a, b, s, comma, i, dot, m, dot', u, _, _, rfl, ha, hb, -⟩ :=
      ImportCall.isLocated_of_isLocated hlocated
    obtain ⟨_, rfl⟩ := exists_of_isName ha
    obtain ⟨_, rfl⟩ := exists_of_isName hb
    simp only [List.forall_mem_cons]
    exact ⟨rfl, rfl, rfl, by simp⟩
  obtain rfl := ImportCall.eq_of_guardFrom (by decide) hguard himport
  obtain ⟨a, b, inner, m, c, rfl, -⟩ := ImportCall.words_of_isLocated hlocated
  -- the same three items, and a group whose items have the same faces
  obtain ⟨a₀, _, rfl, -, hfaces⟩ := List.map_eq_cons_iff.1 (map_face_of_outline h).symm
  obtain ⟨b₀, _, rfl, -, hfaces⟩ := List.map_eq_cons_iff.1 hfaces
  obtain ⟨g₀, _, rfl, hg, hfaces⟩ := List.map_eq_cons_iff.1 hfaces
  obtain rfl := List.map_eq_nil_iff.1 hfaces
  obtain ⟨_, _, -, ha, hout, heq⟩ := replaceAll_cons_eq_ok hout
  obtain ⟨rfl, rfl⟩ := List.cons.inj heq
  obtain ⟨_, _, -, hb, hout, heq⟩ := replaceAll_cons_eq_ok hout
  obtain ⟨rfl, rfl⟩ := List.cons.inj heq
  obtain ⟨_, _, hgroup, -, -, heq⟩ := replaceAll_cons_eq_ok hout
  obtain ⟨rfl, -⟩ := List.cons.inj heq
  cases g₀ with
  | group bracket inner₀ m₀ c₀ =>
    obtain rfl : bracket = .paren := by injection hg
    obtain ⟨lowered, hlowered, hgroup⟩ := Except.bind_eq_ok.1 hgroup
    obtain ⟨guarded, hguarded, hgroup⟩ := Except.bind_eq_ok.1 hgroup
    obtain ⟨rfl, -⟩ : guarded = inner ∧ _ := by simpa using Except.ok.inj hgroup
    have hinner := map_face_of_outline (Except.bind_eq_ok.2 ⟨lowered, hlowered, hguarded⟩)
    rw [← ImportCall.isLocated_face a b _ m m₀ c c₀, ha, hb, hinner, ImportCall.isLocated_face]
      at hlocated
    exact hlocated
  | _ => cases hg

/-! ## calls at the top -/

/-- what guarding makes of the only argument of a call: a local literal becomes a URL right there,
anything else is lowered and passed through `fixup` -/
def GuardedAs (argument out : List Item) : Prop :=
  (IsLocalLiteral argument ∧ ∃ literal, argument = [literal] ∧ out = located literal) ∨
    (¬ IsLocalLiteral argument ∧
      ∃ lowered plans, (lower {} argument).result = .ok (lowered, plans) ∧
      out = fixedUp {} lowered)

/-- the argument of a call is guarded as it is, whatever lowering did inside of it -/
theorem guardedAs_of_guardArguments {lowered : List Item} {out : Option (List Item)}
    (hlower : (lower {} args).result = .ok (lowered, plans)) (hargs : argumentsOf args = [argument])
    (hfixup : ¬ IsFixupOf "ModuleBlock" argument) (hlocated : ¬ IsLocated argument)
    (hguard : guardArguments {} lowered = .ok out) : ∃ guarded, out = some guarded ∧
    GuardedAs argument guarded := by
  obtain ⟨argument', plans', hargument', hlone⟩ := argumentsOf_lower hlower hargs
  obtain ⟨sketch, hsketch, houtlines, hcreates⟩ := lower_outline hargument'
  have hsketches := houtlines.createsAll hcreates
  have hliteral : localLiteral? argument' = localLiteral? argument := by
    rw [houtlines.filled, ImportCall.localLiteral?_filledAll hsketches,
      localLiteral?_of_outline hsketch]
  have hnofixup : isFixup {} argument' = false := by
    rw [houtlines.filled, ImportCall.isFixup_filledAll hsketches, ← ImportCall.isFixup_map_face,
      houtlines.faces, ImportCall.isFixup_map_face]
    exact Bool.eq_false_iff.2 fun h => hfixup (ImportCall.isFixupOf_of_isFixup rfl h)
  have hnolocated : isLocated argument' = false := by
    rw [houtlines.filled, ImportCall.isLocated_filledAll hsketches]
    exact Bool.eq_false_iff.2 fun h =>
      hlocated (ImportCall.isLocated_of_isLocated (isLocated_of_outline hsketch h))
  rw [guardArguments, hlone] at hguard
  obtain ⟨literal, hfound, hguard⟩ := Except.bind_eq_ok.1 hguard
  rw [hliteral] at hfound
  cases literal with
  | some literal =>
    obtain rfl := Except.ok.inj hguard
    obtain ⟨hargument, hlocal⟩ := ImportCall.isLocalLiteral_of_some hfound
    exact ⟨_, rfl, .inl ⟨hlocal, literal, hargument, rfl⟩⟩
  | none =>
    rw [hnofixup, hnolocated] at hguard
    obtain rfl := Except.ok.inj hguard
    exact ⟨_, rfl, .inr ⟨ImportCall.not_isLocalLiteral_of_none hfound, argument', plans',
      hargument', rfl⟩⟩

/-- At the top of a program the arguments of a call with one argument are guarded, and where a group
in braces follows they are only lowered. -/
theorem program_guards {p q : Program} {before after : List Item} {word : Item} {m : Mark}
    {closeNewline : Bool} (h : (program {} p).result = .ok q)
    (hitems : p.items = before ++ word :: .group .paren args m closeNewline :: after)
    (hword : word.isName "import" = true) (hdot : before.getLast?.any (·.isMemberDot) = false)
    (hargs : argumentsOf args = [argument]) (hfixup : ¬ IsFixupOf "ModuleBlock" argument)
    (hlocated : ¬ IsLocated argument) :
    ∃ ahead out behind aheadPlans behindPlans,
      Supported (ahead ++ word :: .group .paren out ⟨none, m.newline⟩ closeNewline :: behind)
        q.items ∧
      (lower {} before).result = .ok (ahead, aheadPlans) ∧
      (lower {} after).result = .ok (behind, behindPlans) ∧
      if after.head?.any (·.isGroup .brace) then ∃ plans, (lower {} args).result = .ok (out, plans)
      else GuardedAs argument out := by
  obtain ⟨w, rfl⟩ := exists_of_isName hword
  simp only [program, Noted.result_bind, Noted.result_lift] at h
  obtain ⟨⟨items, plans⟩, hlower, h⟩ := Except.bind_eq_ok.1 h
  rw [hitems] at hlower
  obtain ⟨_, hlowered, hguard⟩ := guardCallsAfter_eq_ok.1 hlower
  obtain ⟨x, xPlans, args', argsPlans, y, yPlans, hx, hargs', hy, rfl⟩ :=
    lowerAll_call_eq_ok hlowered
  rw [ImportCall.result_guardCalls] at hguard
  obtain ⟨ahead, _, hahead, hcall, rfl⟩ := ImportCall.guardFrom_append_eq_ok hguard fun _ => rfl
  obtain ⟨j, behind, hj, hbehind, rfl⟩ := ImportCall.guardFrom_cons_eq_ok.1 hcall
  have hlead : (Lead.other.after x).next (.leaf .name "import" w) = .callee := by
    refine Lead.next_eq_callee.2 ⟨hword, fun hmember => ?_⟩
    rw [Lead.after_eq_member (by decide), last_dot_of_lowerAll hx, hdot] at hmember
    cases hmember
  obtain ⟨out, rfl, hout⟩ : ∃ out, j = .group .paren out ⟨none, m.newline⟩ closeNewline ∧
      if after.head?.any (·.isGroup .brace) then ∃ plans, (lower {} args).result = .ok (out, plans)
      else GuardedAs argument out := by
    rw [hlead, guardItem, head_brace_of_lowerAll hy] at hj
    cases hbrace : after.head?.any (·.isGroup .brace) with
    | true =>
      rw [hbrace] at hj
      exact ⟨args', (Except.ok.inj hj).symm, by rw [if_pos rfl]; exact ⟨argsPlans, hargs'⟩⟩
    | false =>
      rw [hbrace] at hj
      obtain ⟨own, hown, hj⟩ := Except.bind_eq_ok.1 hj
      obtain ⟨guarded, hguarded, hown⟩ := Except.bind_eq_ok.1 hown
      obtain ⟨out, rfl, hout⟩ := guardedAs_of_guardArguments hargs' hargs hfixup hlocated hguarded
      obtain rfl := Except.ok.inj hown
      exact ⟨out, (Except.ok.inj hj).symm, by rwa [if_neg Bool.false_ne_true]⟩
  refine ⟨ahead, out, behind, xPlans, yPlans, ?_, ?_, ?_, hout⟩
  · exact supported_of_withSupport h
  · exact guardCallsAfter_eq_ok.2 ⟨x, hx, by rw [ImportCall.result_guardCalls]; exact hahead⟩
  · exact guardCallsAfter_eq_ok.2 ⟨y, hy, by rw [ImportCall.result_guardCalls]; exact hbehind⟩

/-- `await import(f(import("./y")),)` -/
def awaited : Program :=
  ⟨[.name "await", .name "import", .grouped .paren [.name "f", .grouped .paren [.name "import",
    .grouped .paren [.leaf .string "\"./y\"" {}]], .punct ","]], none⟩

/-- the argument with the call in it -/
def awaitedArgument : List Item :=
  [.name "f", .grouped .paren [.name "import", .grouped .paren [.leaf .string "\"./y\"" {}]]]

theorem program_guards_awaited : ∃ q, (program {} awaited).result = .ok q ∧
    awaited.items = [.name "await"] ++ .name "import" ::
    .grouped .paren (awaitedArgument ++ [.punct ","]) :: [] ∧
    argumentsOf (awaitedArgument ++ [.punct ","]) = [awaitedArgument] ∧
    ¬ IsFixupOf "ModuleBlock" awaitedArgument ∧ ¬ IsLocated awaitedArgument ∧
    ∃ ahead out behind aheadPlans behindPlans,
      Supported (ahead ++ .name "import" :: .grouped .paren out :: behind) q.items ∧
      (lower {} [.name "await"]).result = .ok (ahead, aheadPlans) ∧
      (lower {} []).result = .ok (behind, behindPlans) ∧
      GuardedAs awaitedArgument out := by
  have hcompiled : (program {} awaited).result.toOption.any (fun _ => true) = true := by
    decide +kernel
  obtain ⟨q, hq, -⟩ := Except.exists_of_any hcompiled
  have hitems : awaited.items =
      [.name "await"] ++
        .name "import" :: .group .paren (awaitedArgument ++ [.punct ","]) {} false :: [] := rfl
  have hargs : argumentsOf (awaitedArgument ++ [.punct ","]) = [awaitedArgument] := rfl
  have hfixup : ¬ IsFixupOf "ModuleBlock" awaitedArgument := fun ⟨_, _, _, _, h, _⟩ => by cases h
  have hlocated : ¬ IsLocated awaitedArgument := fun ⟨_, _, _, _, _, _, _, _, _, _, _, h, _⟩ => by
    cases h
  exact ⟨q, hq, rfl, hargs, hfixup, hlocated,
    program_guards hq hitems rfl rfl hargs hfixup hlocated⟩

/-- no method is defined at the top of a program, but the block statement on the next line keeps the
call from being guarded -/
theorem text_misses :
    ∃ p word args block, Program.read (Text.ofString "import(x)\n\x7b f() \x7d") = .ok p ∧
      p.items = [word, args, block] ∧ word.isName "import" = true ∧ args.isGroup .paren = true ∧
      block.isGroup .brace = true ∧ block.mark.newline = true ∧
      (text {} (Text.ofString "import(x)\n\x7b f() \x7d")).result =
        .ok (Text.ofString
          "import \x7b ModuleBlock \x7d from \"/module-blocks-shim.js\";\nimport(x)\n\x7b f() \x7d") := by
  have hread :
      (Program.read (Text.ofString "import(x)\n\x7b f() \x7d")).toOption.any (fun p =>
      p.items.length = 3 && (p.items[0]?.any (·.isName "import") &&
        p.items[1]?.any (·.isGroup .paren)) &&
        (p.items[2]?.any (·.isGroup .brace) && p.items[2]?.any (·.mark.newline))) =
        true := by decide +kernel
  obtain ⟨p, hp, htests⟩ := Except.exists_of_any hread
  simp only [Bool.and_eq_true, decide_eq_true_eq] at htests
  obtain ⟨word, args, block, hitems⟩ := List.length_eq_three.1 htests.1.1
  rw [hitems] at htests
  exact ⟨p, word, args, block, hp, hitems, htests.1.2.1, htests.1.2.2, htests.2.1,
    htests.2.2, by decide +kernel⟩

end Compile

end Relocation
