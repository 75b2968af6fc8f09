import Relocation.Proofs.Canonical
import Relocation.Proofs.Standing

/-!
# Artifacts are read back

`Plan.read_artifact`: the canonical text of an artifact is read as the artifact, whatever the
segments of its plan are.  Its quasis are the segments after four replacements, one after the other
over the whole text (`escapeRaw_eq`), and its substitutions are what is read from a snippet of code
(`Substitution.readFragment_snippet`).
-/

namespace Relocation

/-! ## escapes -/

namespace Text

variable {c : CodePoint} {new r t : Text}

/-- the text, whose first `skip` characters have been replaced already, with one text in the place
of another; occurrences are found from left to right -/
def replaceFrom (old new : Text) : (skip : Nat) → Text → Text
  | _, [] => []
  | skip + 1, _ :: r => replaceFrom old new skip r
  | 0, c :: r =>
    if old.isPrefixOf (c :: r) then new ++ replaceFrom old new (old.length - 1) r
    else c :: replaceFrom old new 0 r

/-- the text with `new` in the place of every `old` -/
def replace (old new t : Text) : Text := replaceFrom old new 0 t

theorem replace_singleton (c : CodePoint) (new t : Text) :
    replace [c] new t = t.flatMap fun d => if d = c then new else [d] := by
  unfold replace
  induction t with
  | nil => rfl
  | cons d r ih =>
    rw [replaceFrom, List.flatMap_cons, ← ih]
    by_cases hd : d = c
    · subst hd
      simp
    · have hfirst : List.isPrefixOf [c] (d :: r) = false := by simp [List.isPrefixOf, Ne.symm hd]
      rw [hfirst, if_neg hd]
      rfl

/-- what does not begin with the opening of a substitution keeps its first character -/
theorem replace_opening_cons (h : c = .char '$' → r.head? ≠ some (.char '\x7b')) :
    replace (ofString "$\x7b") new (c :: r) = c :: replace (ofString "$\x7b") new r := by
  have hopening : (ofString "$\x7b").isPrefixOf (c :: r) = false := by
    by_contra hopening
    obtain ⟨hc, hr⟩ : CodePoint.char '$' = c ∧ List.isPrefixOf [.char '\x7b'] r = true := by
      simpa [ofString] using hopening
    obtain ⟨s, rfl⟩ := List.isPrefixOf_iff_prefix.1 hr
    exact h hc.symm rfl
  rw [replace, replaceFrom, hopening]
  rfl

end Text

/-- the raw text of a template as it is made in steps: backslashes first, then backquotes, the
openings of substitutions and carriage returns -/
def escapeInSteps (t : Text) : Text :=
  Text.replace "\r" "\\r"
    (Text.replace "$\x7b" "\\$\x7b" (Text.replace "\x60" "\\\x60" (Text.replace "\\" "\\\\" t)))

/-- a character after the first two steps -/
def escapeChar (c : CodePoint) : Text := if c = .char '\\' || c = .char '\x60' then
    [.char '\\', c] else [c]

theorem flatMap_escapeChar (t : Text) :
    Text.replace "\x60" "\\\x60" (Text.replace "\\" "\\\\" t) = t.flatMap escapeChar := by
  have hbackslash : (("\\" : String) : Text) = [.char '\\'] := rfl
  have hbackquote : (("\x60" : String) : Text) = [.char '\x60'] := rfl
  rw [hbackslash, hbackquote, Text.replace_singleton, Text.replace_singleton, List.flatMap_assoc]
  congr 1
  funext c
  by_cases hb : c = .char '\\'
  · subst hb
    rfl
  by_cases hq : c = .char '\x60'
  · subst hq
    rfl
  simp [escapeChar, hb, hq]

/-- no opening of a substitution arises in the first two steps -/
theorem head_flatMap_escapeChar {t : Text} (h : t.head? ≠ some (.char '\x7b')) :
    (t.flatMap escapeChar).head? ≠ some (.char '\x7b') := by
  cases t with
  | nil => exact h
  | cons c r =>
    rw [List.flatMap_cons, escapeChar]
    split
    · simp
    · exact h

theorem escapeRaw_eq (t : Text) : escapeRaw t = escapeInSteps t := by
  have hreturn : (("\r" : String) : Text) = [.char '\r'] := rfl
  rw [escapeInSteps, flatMap_escapeChar, hreturn, Text.replace_singleton]
  fun_induction escapeRaw t with
  | case1 => rfl
  | case2 r ih =>
    rw [ih, List.flatMap_cons, List.flatMap_cons]
    rfl
  | case3 c r hopening h ih =>
    have hc : c ≠ .char '$' ∧ c ≠ .char '\r' := by
      simp only [Bool.or_eq_true, decide_eq_true_eq] at h
      rcases h with rfl | rfl <;> decide
    have hcons : (c :: r).flatMap escapeChar = .char '\\' :: c :: r.flatMap escapeChar := by
      rw [List.flatMap_cons, escapeChar, if_pos h]
      rfl
    have hbackslash : CodePoint.char '\\' ≠ .char '$' := by decide
    rw [hcons, Text.replace_opening_cons fun h => absurd h hbackslash,
      Text.replace_opening_cons fun h => absurd h hc.1,
      List.flatMap_cons, List.flatMap_cons, if_neg (by decide), if_neg hc.2, ← ih]
    rfl
  | case4 r hopening h ih =>
    rw [ih]
    rfl
  | case5 c r hopening h hr ih =>
    have hcons : (c :: r).flatMap escapeChar = c :: r.flatMap escapeChar := by
      rw [List.flatMap_cons, escapeChar, if_neg h]
      rfl
    have hhead : c = .char '$' → (r.flatMap escapeChar).head? ≠ some (.char '\x7b') := by
      rintro rfl
      apply head_flatMap_escapeChar
      intro h'
      obtain ⟨s, rfl⟩ := List.head?_eq_some_iff.1 h'
      exact hopening s rfl rfl
    rw [hcons, Text.replace_opening_cons hhead, List.flatMap_cons, if_neg hr, ← ih]
    rfl

/-! ## substitutions -/

namespace Substitution

variable {s : Substitution} {items : List Item}

/-- the code of a substitution, spelled out -/
def snippet : Substitution → Text
  | .staticImport s =>
    Text.ofString "JSON.stringify(new URL(" ++ s.elim (Text.ofString "null") Json.literal ++
      Text.ofString ", import.meta.url))"
  | _ => "JSON.stringify(import.meta.url)"

theorem print_code (h : s.code = .ok items) : Item.print items = s.snippet := by
  match s with
  | .metaUrl =>
    obtain rfl := Except.ok.inj h
    decide
  | .staticImport none =>
    obtain rfl := Except.ok.inj h
    decide
  | .staticImport (some t) =>
    obtain rfl := Except.ok.inj h
    have hprint : Item.print (stringified [.name "new", .name "URL",
        .grouped .paren (.leaf .string (Json.literal t) {} :: .punct "," :: metaUrlItems)]) =
          Text.ofString "JSON" ++ [] ++
            (Text.ofString "." ++ [] ++ (Text.ofString "stringify" ++ [] ++
              (Text.ofString "(" ++ [] ++ (Text.ofString "new" ++ [.char ' '] ++
            (Text.ofString "URL" ++ [] ++
              (Text.ofString "(" ++ [] ++
                (Json.literal t ++ [] ++ Text.ofString ", import.meta.url))"))))))) := rfl
    simp only [hprint, snippet, Option.elim_some, List.append_nil, ← List.append_assoc]
    rfl
  | .other label => cases h

/-- code has neither line breaks nor ranges -/
theorem bareAll_code (h : s.code = .ok items) : Item.bareAll items = items := by
  cases s with
  | metaUrl =>
    cases h
    rfl
  | staticImport specifier =>
    cases specifier <;> (cases h; rfl)
  | other label => cases h

/-- what the snippet is read as -/
theorem readFragment_snippet (h : s.code = .ok items) :
    Program.readFragment s.snippet = .ok items := by
  have hsettled := Item.settled_of_code Item.lawful_parted h
  obtain ⟨p, hread, halike⟩ := Program.read_print_alike hsettled.fits hsettled.tidy
  rw [Program.readFragment, ← print_code h, hread]
  exact congrArg Except.ok (halike.bareAll_eq.trans (bareAll_code h))

theorem code_of_kind (h : s.kind = .metaUrl ∨ s.kind = .staticImport) :
    ∃ items, s.code = .ok items := by
  cases s with
  | metaUrl => exact ⟨_, rfl⟩
  | staticImport specifier => exact ⟨_, rfl⟩
  | other label => simp [kind] at h

end Substitution

/-! ## artifacts -/

namespace Plan

variable {plan : Plan}

/-- a substitution with the segment behind it, as the template has them: what the snippet is read
as, and a quasi -/
def ReadAs (part : Substitution × Text) (sub : List Item × Text) : Prop :=
  Program.readFragment part.1.snippet = .ok sub.1 ∧ sub.2 = escapeInSteps part.2

theorem forall₂_of_templateRest {parts : List (Substitution × Text)}
    {rest : List (List Item × Text)} (h : templateRest parts = .ok rest) :
    List.Forall₂ ReadAs parts rest := by
  induction parts generalizing rest with
  | nil =>
    obtain rfl := Except.ok.inj h
    exact .nil
  | cons part parts ih =>
    obtain ⟨items, more, hitems, hmore, rfl⟩ := templateRest_cons_eq_ok.1 h
    exact .cons ⟨Substitution.readFragment_snippet hitems, escapeRaw_eq part.2⟩ (ih hmore)

/-- an artifact is settled code -/
theorem settled_artifact {items : List Item} (h : plan.artifact {} = .ok items) :
    Item.Settled Item.parted items := by
  obtain ⟨rest, hrest, rfl⟩ := Compile.artifact_eq_ok.1 h
  have hplace : Item.TakesPlace Item.parted ({} : Options).classCode .start [.block [] {} false] _ :=
    Item.takesPlace_of_artifact Item.lawful_parted Compile.readable_classCode hrest plan.first [] {}
      false
  exact hplace.settled Item.lawful_parted rfl

/-- The text of an artifact is read as the artifact: no segment ends the template, opens a
substitution or runs into what stands beside it, and the substitutions are what their snippets are
read as. -/
theorem read_artifact (h : ∀ s ∈ plan.substitutions, s.kind = .metaUrl ∨ s.kind = .staticImport) :
    ∃ items p rest, plan.artifact {} = .ok items ∧ Program.read (Item.print items) = .ok p ∧
      Item.unplacedAll p.items = items ∧
      items = [.name "new", .name "ModuleBlock",
        .grouped .paren [.template (escapeInSteps plan.first) rest {}]] ∧
      List.Forall₂ ReadAs plan.rest rest := by
  obtain ⟨rest, hrest⟩ : ∃ rest, templateRest plan.rest = .ok rest :=
    exists_templateRest fun part hpart =>
      Substitution.code_of_kind (h part.1 (List.mem_map_of_mem hpart))
  have hartifact : plan.artifact {} =
      .ok [.name "new", .name "ModuleBlock",
        .grouped .paren [.template (escapeInSteps plan.first) rest {}]] := by
    rw [artifact, hrest, ← escapeRaw_eq]
    rfl
  have hsettled := settled_artifact hartifact
  obtain ⟨p, hread, halike⟩ := Program.read_print_alike hsettled.fits hsettled.tidy
  refine ⟨_, p, rest, hartifact, hread, ?_, rfl, forall₂_of_templateRest hrest⟩
  -- neither sequence has a line break before it
  have hbegin : Item.beginning p.items = p.items := (Program.fits_of_read hread).2
  rw [Item.Alike, hbegin] at halike
  exact halike.trans (Compile.unplacedAll_artifact hartifact)

/-- its segments end before a substitution in a dollar sign and in backslashes, and begin behind one
with braces -/
def seams : Plan where
  source := []
  first := "a$"
  rest := [(.metaUrl, "\x7b\x60\\\\"), (.staticImport (some "./\u2028\""), "\x7d\r\n$\x7b")]

theorem read_artifact_seams :
    (∀ s ∈ seams.substitutions, s.kind = .metaUrl ∨ s.kind = .staticImport) ∧
    ∃ items p rest, seams.artifact {} = .ok items ∧ Program.read (Item.print items) = .ok p ∧
      Item.unplacedAll p.items = items ∧
      items = [.name "new", .name "ModuleBlock",
        .grouped .paren [.template (escapeInSteps seams.first) rest {}]] ∧
      List.Forall₂ ReadAs seams.rest rest :=
  ⟨by decide, read_artifact (by decide)⟩

end Plan

end Relocation
