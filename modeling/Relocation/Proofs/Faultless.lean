import Relocation.Proofs.Legible
import Relocation.Proofs.Standalone
import Relocation.Proofs.Visiting

/-!
# Compilation does not fail on legible bodies

Where the bodies of all blocks are legible, a program is compiled unless a string literal in it has
no value, and then its bodies are made unless a specifier cannot be joined with the place of the
module (`Compile.only_literals_fail`).  Lowering fails at a literal or at the plan of a body
(`isEscape_of_lower`), and a body is lowered to settled code, whose print has a plan: it is read
again, no block is left in it, and its splits do not overlap.
-/

namespace Relocation

namespace Item

mutual
/-- the bodies of the blocks in an item, of those inside of other blocks, too -/
def moduleBodies : Item → List (List Item)
  | .leaf _ _ _ => []
  | .group _ items _ _ => moduleBodiesAll items
  | .template _ rest _ => moduleBodiesRest rest
  | .block items _ _ => items :: moduleBodiesAll items

def moduleBodiesAll : List Item → List (List Item)
  | [] => []
  | i :: r => moduleBodies i ++ moduleBodiesAll r

def moduleBodiesRest : List (List Item × Text) → List (List Item)
  | [] => []
  | (items, _) :: r => moduleBodiesAll items ++ moduleBodiesRest r
end

end Item

namespace Compile

open Item

open Token (Left Readable)

variable {l : Left} {i : Item} {items body : List Item} {rest : List (List Item × Text)}
  {e : Failure}

/-! ## lowering -/

theorem isEscape_of_guardCallsAfter {m : Noted (List Item × List Plan)}
    (hm : ∀ e, m.result = .error e → e.IsEscape) (h : (guardCallsAfter {} m).result = .error e) :
    e.IsEscape := by
  simp only [guardCallsAfter, Noted.result_bind, Noted.result_pure] at h
  rcases Except.bind_eq_error.1 h with h | ⟨_, -, h⟩
  · exact hm e h
  rcases Except.bind_eq_error.1 h with h | ⟨_, -, h⟩
  · exact ImportCall.isEscape_guardCalls h
  · cases h

theorem isEscape_of_printed (h : printed {} items = .error e) : e.IsEscape := by
  rw [printed_eq, items_eq_supportItems] at h
  rcases Except.bind_eq_error.1 h with h | ⟨present, -, h⟩
  · exact Support.Import.isEscape_isPresent h
  · cases present <;> cases h

/-- what a legible body is lowered to has a plan -/
theorem isEscape_of_bodyPlan (h : Settled legible body)
    (he : (bodyPlan {} body).result = .error e) : e.IsEscape := by
  rw [result_bodyPlan] at he
  rcases Except.bind_eq_error.1 he with he | ⟨t, ht, he⟩
  · exact isEscape_of_printed he
  · obtain ⟨items, rfl, hitems⟩ := settled_of_printed lawful_legible h ht
    exact isEscape_planOf_print hitems he

theorem isEscape_of_blockArtifact {newline : Bool} (h : Settled legible body)
    (he : (blockArtifact {} newline body).result = .error e) : e.IsEscape := by
  simp only [blockArtifact, Noted.result_bind, Noted.result_lift, Noted.result_pure] at he
  rcases Except.bind_eq_error.1 he with he | ⟨plan, hplan, he⟩
  · exact isEscape_of_bodyPlan h he
  · obtain ⟨artifact, hartifact⟩ := Plan.artifact_of_isKnown (isKnown_of_bodyPlan hplan) {}
    rw [hartifact] at he
    cases he

mutual
theorem isEscape_of_lowerItem : ∀ {i : Item} {l : Left}, Fits l i →
    (∀ body ∈ moduleBodies i, keepsAll legible {} body = true) →
    ∀ e, (lowerItem {} i).result = .error e → e.IsEscape
  | .leaf _ _ _, _, _, _ => by
    intro e he
    cases he
  | .group _ items _ _, _, hfits, hbodies => by
    intro e he
    simp only [lowerItem, Noted.result_bind, Noted.result_pure] at he
    rcases Except.bind_eq_error.1 he with he | ⟨_, -, he⟩
    · exact isEscape_of_guardCallsAfter (isEscape_of_lowerAll hfits hbodies) he
    · cases he
  | .template _ rest _, _, hfits, hbodies => by
    intro e he
    simp only [lowerItem, Noted.result_bind, Noted.result_pure] at he
    rcases Except.bind_eq_error.1 he with he | ⟨_, -, he⟩
    · exact isEscape_of_lowerRest hfits.2 hbodies e he
    · cases he
  | .block items m closeNewline, _, hfits, hbodies => by
    intro e he
    obtain ⟨hkept, hbodies⟩ := List.forall_mem_cons.1 hbodies
    simp only [lowerItem, Noted.result_bind] at he
    rcases Except.bind_eq_error.1 he with he | ⟨⟨body, _⟩, hlower, he⟩
    · exact isEscape_of_guardCallsAfter (isEscape_of_lowerAll hfits.2 hbodies) he
    · have hdivision : division ∈ legible := by simp [legible]
      exact isEscape_of_blockArtifact
        (settled_of_lower lawful_legible hdivision readable_classCode hfits.2 hkept hlower) he

theorem isEscape_of_lowerAll : ∀ {items : List Item} {l : Left}, FitsAll l items →
    (∀ body ∈ moduleBodiesAll items, keepsAll legible {} body = true) →
    ∀ e, (lowerAll {} items).result = .error e → e.IsEscape
  | [], _, _, _ => by
    intro e he
    cases he
  | i :: r, _, hfits, hbodies => by
    intro e he
    obtain ⟨hi, hr⟩ := List.forall_mem_append.1 hbodies
    simp only [lowerAll, Noted.result_bind, Noted.result_pure] at he
    rcases Except.bind_eq_error.1 he with he | ⟨_, -, he⟩
    · exact isEscape_of_lowerItem hfits.1 hi e he
    rcases Except.bind_eq_error.1 he with he | ⟨_, -, he⟩
    · exact isEscape_of_lowerAll hfits.2 hr e he
    · cases he

theorem isEscape_of_lowerRest : ∀ {rest : List (List Item × Text)}, FitsRest rest →
    (∀ body ∈ moduleBodiesRest rest, keepsAll legible {} body = true) →
    ∀ e, (lowerRest {} rest).result = .error e → e.IsEscape
  | [], _, _ => by
    intro e he
    cases he
  | (items, _) :: r, hfits, hbodies => by
    intro e he
    obtain ⟨hitems, -, hr⟩ := fitsRest_cons.1 hfits
    obtain ⟨hfirst, hrest⟩ := List.forall_mem_append.1 hbodies
    simp only [lowerRest, Noted.result_bind, Noted.result_pure] at he
    rcases Except.bind_eq_error.1 he with he | ⟨_, -, he⟩
    · exact isEscape_of_guardCallsAfter (isEscape_of_lowerAll hitems hfirst) he
    rcases Except.bind_eq_error.1 he with he | ⟨_, -, he⟩
    · exact isEscape_of_lowerRest hr hrest e he
    · cases he
end

theorem isEscape_of_lower (hfits : FitsAll .start items)
    (hbodies : ∀ body ∈ moduleBodiesAll items, keepsAll legible {} body = true)
    (h : (lower {} items).result = .error e) : e.IsEscape :=
  isEscape_of_guardCallsAfter (isEscape_of_lowerAll hfits hbodies) h

/-! ## programs and bodies -/

variable {source metaUrl : Text} {p : Program}

theorem isKnown_of_lowersTo {options : Options} {blocks : List Item} {plans : List Plan}
    (h : List.Forall₂ (LowersTo options) blocks plans) : ∀ plan ∈ plans, plan.IsKnown := by
  induction h with
  | nil => simp
  | cons hplan _ ih => exact List.forall_mem_cons.2 ⟨(plannedAs_of_lowersTo hplan).1, ih⟩

/-- A program all of whose blocks have legible bodies is compiled unless a literal in it has no
value, and then its bodies are made unless a specifier cannot be joined with the place of the
module. -/
theorem only_literals_fail (hread : Program.read source = .ok p)
    (hbodies : ∀ body ∈ moduleBodiesAll p.items, keepsAll legible {} body = true) (metaUrl : Text) :
    (∀ e, (text {} source).result = .error e → e.IsEscape) ∧
      ∀ e, (bodies {} source metaUrl).result = .error e → e.IsEscape ∨ ∃ v, e = .value v := by
  have hlower : ∀ {e}, (lower {} p.items).result = .error e → e.IsEscape :=
    isEscape_of_lower (Program.fits_of_read hread).1 hbodies
  constructor
  · intro e he
    rw [result_text, hread] at he
    rcases Except.bind_eq_error.1 he with he | ⟨p', hp, he⟩
    · cases he
    obtain rfl := Except.ok.inj hp
    rcases Except.bind_eq_error.1 he with he | ⟨⟨out, plans⟩, -, he⟩
    · exact hlower he
    · exact isEscape_of_printed he
  · intro e he
    simp only [bodies, bodiesFilled, Noted.result_bind, Noted.result_lift, hread] at he
    rcases Except.bind_eq_error.1 he with he | ⟨p', hp, he⟩
    · cases he
    obtain rfl := Except.ok.inj hp
    rcases Except.bind_eq_error.1 he with he | ⟨⟨items, plans⟩, hplans, he⟩
    · exact .inl (hlower he)
    · exact .inr (value_of_fillAll (isKnown_of_lowersTo (lower_eq_ok hplans).2) he)

/-- a block around another one, with a specifier whose escape has no digits -/
def faultyNest : Text :=
  Text.ofString "module \x7b f(module \x7b \x7d);\nimport \"\\u\x7b\x7d\" \x7d"

/-- two blocks in one call -/
def blockPair : Text := Text.ofString "f(module \x7b a \x7d, module \x7b \x7d)"

theorem only_literals_fail_call :
    (∃ p e, Program.read faultyNest = .ok p ∧
      (∀ body ∈ moduleBodiesAll p.items, keepsAll legible {} body = true) ∧
      (text {} faultyNest).result = .error e ∧ e.IsEscape) ∧
    ∃ p e, Program.read blockPair = .ok p ∧
      (∀ body ∈ moduleBodiesAll p.items, keepsAll legible {} body = true) ∧
      (bodies {} blockPair (Text.ofString "http://[x")).result = .error e ∧
      (e.IsEscape ∨ ∃ v, e = .value v) := by
  have hlegible : ∀ source ∈ [faultyNest, blockPair], (Program.read source).toOption.any
      (fun p => (moduleBodiesAll p.items).all (keepsAll legible {})) = true := by decide +kernel
  have htext : (text {} faultyNest).result =
      .error (.source ⟨.malformedEscape (Text.ofString "\"\\u\x7b\x7d\""), none⟩) := by
    decide +kernel
  have hbodies :
      (bodies {} blockPair (Text.ofString "http://[x")).result = .error (.value .strayBracket) := by
    decide +kernel
  constructor
  · obtain ⟨p, hread, hall⟩ := Except.exists_of_any (hlegible faultyNest (by simp))
    have hall := List.all_eq_true.1 hall
    exact ⟨p, _, hread, hall, htext, (only_literals_fail hread hall []).1 _ htext⟩
  · obtain ⟨p, hread, hall⟩ := Except.exists_of_any (hlegible blockPair (by simp))
    have hall := List.all_eq_true.1 hall
    exact ⟨p, _, hread, hall, hbodies, (only_literals_fail hread hall _).2 _ hbodies⟩

/-- a block whose lowered body has no plan is not lowered -/
theorem error_of_bodyPlan {options : Options} {inner : List Plan} {m : Mark} {closeNewline : Bool}
    {e : Failure} (hlower : (lower options items).result = .ok (body, inner))
    (hplan : (bodyPlan options body).result = .error e) :
    (lower options [.block items m closeNewline]).result = .error e := by
  have hartifact : (blockArtifact options m.newline body).result = .error e := by
    rw [blockArtifact, Noted.result_bind]
    exact Except.bind_eq_error.2 (.inl hplan)
  have hitem : (lowerItem options (.block items m closeNewline)).result = .error e := by
    rw [lowerItem, Noted.result_bind]
    exact Except.bind_eq_error.2 (.inr ⟨_, hlower, hartifact⟩)
  rw [lower, guardCallsAfter, Noted.result_bind, lowerAll, Noted.result_bind]
  exact Except.bind_eq_error.2 (.inl (Except.bind_eq_error.2 (.inl hitem)))

/-- a body that re-exports under the name `import`: both `export` and `import` claim the
specifier -/
def reclaimed : List Item :=
  [.name "export", .punct "*", .name "as", .name "import", .name "from", .leaf .string "\"./x\"" {}]

/-- what the body is compiled to -/
def reclaimedText : Text :=
  Text.ofString "import \x7b ModuleBlock \x7d from \"/module-blocks-shim.js\";\nexport * as import from \"./x\""

theorem planOf_reclaimed :
    planOf reclaimedText = .error (.inconsistent (.misplacedSplit ⟨.staticImport, 78, 83⟩)) := by
  have hscan : (Program.read reclaimedText >>= fun p => Split.scanFrom false 0 p.items) =
      .ok [⟨.staticImport, 28, 52⟩, ⟨.staticImport, 78, 83⟩, ⟨.staticImport, 78, 83⟩] := by
    rw [reclaimedText, Text.ofString_ofList]
    decide +kernel
  obtain ⟨p, hread, hsplits⟩ := Split.exists_read_splits hscan (by decide)
  have hreversed :
      ([⟨.staticImport, 28, 52⟩, ⟨.staticImport, 78, 83⟩, ⟨.staticImport, 78, 83⟩] :
        List Split).mergeSort
      (fun a b => decide (b.start ≤ a.start)) =
      [⟨.staticImport, 78, 83⟩, ⟨.staticImport, 78, 83⟩, ⟨.staticImport, 28, 52⟩] := by
    simp [List.mergeSort, List.MergeSort.Internal.splitInTwo]
  have hlast : Substitution.ofSplit reclaimedText ⟨.staticImport, 78, 83⟩ =
      .ok (.staticImport (some (Text.ofString "./x"))) := by decide +kernel
  rw [planOf, hread]
  simp only [bind, Except.bind, hsplits, Plan.ofSplits, hreversed]
  rw [Plan.cutAll, if_pos (by decide +kernel), hlast]
  show Plan.cutAll reclaimedText 78 _ _ = _
  rw [Plan.cutAll, if_neg (by decide)]

/-- the program is read and its one specifier has a value, and still the body has no plan -/
theorem text_reclaimed :
    ∃ p, Program.read (Text.ofString "module \x7b export * as import from \"./x\" \x7d") = .ok p ∧
      (text {} (Text.ofString "module \x7b export * as import from \"./x\" \x7d")).result =
        .error (.inconsistent (.misplacedSplit ⟨.staticImport, 78, 83⟩)) := by
  have hprint :
      print [.block reclaimed {} false] =
        Text.ofString "module \x7b export * as import from \"./x\" \x7d" := by
    decide +kernel
  have hfits : FitsAll .start reclaimed :=
    ⟨fits_name (readable_of_front (by decide)) _,
      fits_punct (readable_of_front (by decide)) (by decide) _,
      fits_name (readable_of_front (by decide)) _, fits_name (readable_of_front (by decide)) _,
      fits_name (readable_of_front (by decide)) _, fits_string (readable_of_front (by decide)) _,
      trivial⟩
  have hblock : FitsAll .start [.block reclaimed {} false] := ⟨⟨rfl, hfits⟩, trivial⟩
  obtain ⟨p, hread, halike⟩ := Program.read_print_alike hblock (by decide)
  rw [hprint] at hread
  have hprinted : printed {} reclaimed = .ok reclaimedText := by
    rw [reclaimedText, Text.ofString_ofList]
    decide +kernel
  have hlowered : (lower {} reclaimed).result = .ok (reclaimed, []) := by rfl
  have hplan :
      (bodyPlan {} reclaimed).result =
        .error (.inconsistent (.misplacedSplit ⟨.staticImport, 78, 83⟩)) := by
    simp only [result_bodyPlan, hprinted, bind, Except.bind]
    exact planOf_reclaimed
  refine ⟨p, hread, (result_text _ _).trans ?_⟩
  simp only [hread, error_of_alike halike (error_of_bodyPlan hlowered hplan), bind, Except.bind]

end Compile

end Relocation
