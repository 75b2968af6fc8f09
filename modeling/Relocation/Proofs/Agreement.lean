import Relocation.Proofs.Lowering
import Relocation.Proofs.Patching
import Relocation.Proofs.Rendering
import Relocation.Proofs.Scalar

/-!
# Bodies and artifacts

A module's blocks are lowered twice: to bodies, when the URL of the module is known, and to
artifacts, which compute the same bodies later.  `artifacts_create_bodies`: the two are the same
sequence of UTF-16 code units for every block, and the same code points unless the artifact holds a
surrogate.  With a surrogate they may differ: a pair that reading a specifier kept apart is one
character in what the artifact creates (`artifacts_create_joined`).
-/

namespace Relocation

/-! ## artifacts without surrogates -/

theorem Json.isScalar_of_literal {t : Text} (h : (Json.literal t).all CodePoint.isScalar = true) :
    t.all CodePoint.isScalar = true := by
  rw [List.all_eq_true] at h ⊢
  intro c hc
  by_cases hb : c.isBasic = true
  · simp only [CodePoint.isBasic, Bool.and_eq_true] at hb
    exact hb.1
  · have he : Json.escaped c = none := Literal.escaped_of_not_basic (by simpa using hb)
    apply h
    rw [Json.literal, List.cons_append]
    refine List.mem_cons_of_mem _ (List.mem_append_left _ (List.mem_flatMap.2 ⟨c, hc, ?_⟩))
    simp [he]

namespace Substitution

/-- a specifier's literal is one of the pieces of the code that resolves it -/
theorem isScalar_of_pieces {s : Substitution} {items : List Item} (h : s.code = .ok items)
    {depth : Nat} (hp : ∀ p ∈ Item.piecesFrom depth 0 items, p.text.all CodePoint.isScalar = true) :
    s.IsScalar := by
  match s with
  | .metaUrl => trivial
  | .staticImport none => trivial
  | .staticImport (some t) =>
    obtain rfl := Except.ok.inj h
    let literal : Item := .leaf .string (Json.literal t) {}
    let call : Item := .grouped .paren (literal :: .punct "," :: metaUrlItems)
    have hliteral : ⟨.string, Json.literal t, false, depth + 2⟩ ∈ Item.pieces (depth + 1) call := by
      simp only [call, Item.grouped, Item.pieces, List.cons_append]
      refine List.mem_cons_of_mem _ (List.mem_append_left _ ?_)
      exact Item.mem_piecesFrom (i := literal) (fun _ => rfl) (by simp [literal, Item.pieces])
        List.mem_cons_self
    have hcall : ⟨.string, Json.literal t, false, depth + 2⟩ ∈
        Item.piecesFrom depth 0 (stringified [.name "new", .name "URL", call]) := by
      refine Item.mem_piecesFrom (i := .grouped .paren [.name "new", .name "URL", call])
        (fun _ => rfl) ?_
          (by simp [stringified])
      simp only [Item.grouped, Item.pieces, List.cons_append]
      refine List.mem_cons_of_mem _ (List.mem_append_left _ ?_)
      exact Item.mem_piecesFrom (i := call) (fun _ => rfl) hliteral (by simp)
    exact Json.isScalar_of_literal (hp _ hcall)
  | .other label => cases h

end Substitution

namespace Plan

theorem isScalar_of_restPieces {depth : Nat} :
    ∀ {rest : List (Substitution × Text)} {items : List (List Item × Text)},
    templateRest rest = .ok items →
    (∀ p ∈ Item.restPieces depth items, p.text.all CodePoint.isScalar = true) →
    ∀ s ∈ rest, s.1.IsScalar := by
  intro rest
  induction rest with
  | nil => intro _ _ _ s hs; cases hs
  | cons s rest ih =>
    intro items h hp
    obtain ⟨code, more, hcode, hmore, rfl⟩ := templateRest_cons_eq_ok.1 h
    rw [Item.restPieces] at hp
    intro s' hs'
    rcases List.mem_cons.1 hs' with rfl | hs'
    · exact Substitution.isScalar_of_pieces hcode fun p h => hp p (List.mem_append_left _ h)
    · exact ih hmore (fun p h => hp p (List.mem_append_right _ (List.mem_cons_of_mem _ h))) s' hs'

theorem isScalar_of_artifact {options : Options} {plan : Plan} {artifact : List Item}
    (h : plan.artifact options = .ok artifact)
    (hs : (Item.print artifact).all CodePoint.isScalar = true) : plan.IsScalar := by
  obtain ⟨rest, hrest, rfl⟩ := Compile.artifact_eq_ok.1 h
  refine isScalar_of_restPieces hrest fun p (hp : p ∈ Item.restPieces 1 rest) => ?_
  have hgroup : p ∈ Item.pieces 0 (.grouped .paren [.template (escapeRaw plan.first) rest {}]) := by
    simp only [Item.grouped, Item.pieces, List.cons_append]
    refine List.mem_cons_of_mem _ (List.mem_append_left _ ?_)
    refine Item.mem_piecesFrom (i := .template (escapeRaw plan.first) rest {})
      (fun _ => rfl) ?_ List.mem_cons_self
    rw [Item.pieces]
    cases rest with
    | nil => cases hp
    | cons r rest => exact List.mem_cons_of_mem _ hp
  refine Piece.all_text_of_all_render hs (Item.mem_piecesFrom (fun _ => rfl) hgroup ?_)
  simp

end Plan

/-! ## the same bodies -/

namespace Compile

/-- a body is what the artifact of its block creates, up to the spelling of characters as
surrogates -/
def IsCreated (options : Options) (metaUrl : Text) (artifact : List Item) (body : Text) : Prop :=
  ∃ value, Creation.body? options metaUrl artifact = some value ∧ value.halves = body.halves ∧
    ((Item.print artifact).all CodePoint.isScalar = true → value = body)

theorem isCreated_of_plannedAs {options : Options} {metaUrl : Text} {block : Item} {plan : Plan}
    (h : PlannedAs options block plan) {body : Text} (hb : plan.textAt metaUrl = .ok body) :
    IsCreated options metaUrl (artifactOf options block) body := by
  obtain ⟨hknown, first, rest, hartifact, hblock⟩ := h
  obtain ⟨artifact, value, hartifact', hvalue, hhalves, hscalar⟩ :=
    Plan.body?_artifact options hknown hb
  obtain rfl := Except.ok.inj (hartifact.symm.trans hartifact')
  rcases hblock with hblock | hblock
  · rw [hblock]
    exact ⟨value, hvalue, hhalves, fun h => hscalar (Plan.isScalar_of_artifact hartifact h)⟩
  · obtain ⟨_, -, he⟩ := artifact_eq_ok.1 hartifact
    obtain ⟨rfl, rfl⟩ := List.cons.inj he
    rw [hblock]
    refine ⟨value, ?_, hhalves, fun h => hscalar (Plan.isScalar_of_artifact hartifact ?_)⟩
    · rw [← hvalue]
      rfl
    · rwa [← Item.print_onNewLine]

/-- the bodies of a module are, one for each outermost block and in document order, what the
artifacts in the compiled program create -/
theorem artifacts_create_bodies {options : Options} {source metaUrl : Text} {bodies : List Text}
    (h : (Compile.bodies options source metaUrl).result = .ok bodies) :
    ∃ p, Program.read source = .ok p ∧ ∃ (artifact : Item → List Item) (items : List Item),
      replaced options artifact p.items = .ok items ∧
      (program options p).result = (⟨items, none⟩ : Program).withSupport options ∧
      List.Forall₂ (fun block body => IsCreated options metaUrl (artifact block) body)
        (Item.outerBlocksAll p.items) bodies := by
  obtain ⟨p, items, plans, hread, hlower, hbodies⟩ := bodies_eq_ok h
  refine ⟨p, hread, artifactOf options, items, (lower_eq_ok hlower).1, ?_, ?_⟩
  · simp only [program, Noted.result_bind, hlower, Noted.result_lift]
    rfl
  · exact hbodies.imp fun block body ⟨plan, hplan, hbody⟩ =>
      isCreated_of_plannedAs (plannedAs_of_lowersTo hplan) hbody

theorem artifacts_create_bodies_template :
    (Compile.bodies {} (Text.ofString "f(module \x7b \x7d, \x60$\x7bmodule \x7b b \x7d\x7d\x60)")
      (Text.ofString "https://h/m.js")).result =
      .ok [Text.ofString "import \x7b ModuleBlock \x7d from \"https://h/module-blocks-shim.js\";",
        Text.ofString "import \x7b ModuleBlock \x7d from \"https://h/module-blocks-shim.js\";\nb"] ∧
    ∃ p, Program.read
        (Text.ofString "f(module \x7b \x7d, \x60$\x7bmodule \x7b b \x7d\x7d\x60)") = .ok p ∧
      ∃ (artifact : Item → List Item) (items : List Item),
        replaced {} artifact p.items = .ok items ∧
        (program {} p).result = (⟨items, none⟩ : Program).withSupport {} ∧
        List.Forall₂
          (fun block body => IsCreated {} (Text.ofString "https://h/m.js") (artifact block) body)
          (Item.outerBlocksAll p.items)
          [Text.ofString "import \x7b ModuleBlock \x7d from \"https://h/module-blocks-shim.js\";",
            Text.ofString "import \x7b ModuleBlock \x7d from \"https://h/module-blocks-shim.js\";\nb"] := by
  have hbodies :
      (Compile.bodies {} (Text.ofString "f(module \x7b \x7d, \x60$\x7bmodule \x7b b \x7d\x7d\x60)")
        (Text.ofString "https://h/m.js")).result =
      .ok [Text.ofString "import \x7b ModuleBlock \x7d from \"https://h/module-blocks-shim.js\";",
        Text.ofString "import \x7b ModuleBlock \x7d from \"https://h/module-blocks-shim.js\";\nb"] := by
    decide +kernel
  exact ⟨hbodies, artifacts_create_bodies hbodies⟩

/-! ## a pair that is kept apart -/

/-- the import that a body with blocks has to have -/
def classImport : Text :=
  Text.ofString "import \x7b ModuleBlock \x7d " ++ Text.ofString "from \"/module-blocks-shim.js\";"

/-- a surrogate that is half of a pair -/
def half : CodePoint := .surrogate ⟨0, by decide⟩

/-- one character, and the surrogates that spell it -/
def joinedPair : Text := [.char '😀']

def splitPair : Text := [.surrogate ⟨61, by decide⟩, .surrogate ⟨1536, by decide⟩]

/-- the value of a specifier with a surrogate and a surrogate pair -/
def unjoined : Text := Text.ofString "/'" ++ half :: Text.ofString "';import'/" ++ splitPair

def innerText : Text :=
  classImport ++ Text.ofString " import \"/'\\ud800';import'" ++ Text.ofString "/\\ud83d\\ude00\""

/-- a module with a block in a block.  The surrogate in the inner specifier keeps the pair behind it
apart. -/
def outerSource : Text :=
  Text.ofString "module \x7b . 5. / module \x7b " ++ innerText ++ Text.ofString " \x7d + /'/ \x7d"

/-- what the inner block holds; `group` is where the names of its first import stand -/
def innerItems (group : Option Range) : List Item :=
  [.leaf .name "import" ⟨some ⟨25, 31⟩, false⟩,
    .group .brace [.leaf .name "ModuleBlock" ⟨some ⟨34, 45⟩, false⟩] ⟨group, false⟩ false,
    .leaf .name "from" ⟨some ⟨48, 52⟩, false⟩,
    .leaf .string "\"/module-blocks-shim.js\"" ⟨some ⟨53, 77⟩, false⟩,
    .leaf .punct ";" ⟨some ⟨77, 78⟩, false⟩, .leaf .name "import" ⟨some ⟨79, 85⟩, false⟩,
    .leaf .string "\"/'\\ud800';import'/\\ud83d\\ude00\"" ⟨some ⟨86, 118⟩, false⟩]

/-- what the outer block holds, the inner one or what it is compiled to included -/
def outerItems (inner : List Item) : List Item :=
  [.leaf .punct "." ⟨some ⟨9, 10⟩, false⟩, .leaf .number "5." ⟨some ⟨11, 13⟩, false⟩,
    .leaf .punct "/" ⟨some ⟨14, 15⟩, false⟩] ++ inner ++
    [.leaf .punct "+" ⟨some ⟨121, 122⟩, false⟩, .leaf .regex "/'/" ⟨some ⟨123, 126⟩, false⟩]

def innerBlock : Item := .block (innerItems (some ⟨32, 47⟩)) ⟨some ⟨16, 120⟩, false⟩ false

def outerBlock : Item := .block (outerItems [innerBlock]) ⟨some ⟨0, 128⟩, false⟩ false

set_option maxRecDepth 4000 in
theorem read_outerSource : Program.read outerSource = .ok ⟨[outerBlock], some outerSource⟩ := by rfl

def innerPlan : Plan :=
  ⟨innerText, Text.ofString "import \x7b ModuleBlock \x7d from ",
    [(.staticImport (some (Text.ofString "/module-blocks-shim.js")), Text.ofString "; import "),
      (.staticImport (some unjoined), [])]⟩

theorem planOf_innerText : planOf innerText = .ok innerPlan := by
  have hscan : (Program.read innerText >>= fun p => Split.scanFrom false 0 p.items) =
      .ok [⟨.staticImport, 28, 52⟩, ⟨.staticImport, 61, 93⟩] := by
    decide +kernel
  rw [Plan.planOf_eq_cutAll hscan (List.pairwise_pair.2 (by decide))]
  rfl

/-- the code that resolves a reference -/
def resolved (t : Text) : List Item :=
  Substitution.stringified [.name "new", .name "URL",
    .grouped .paren (.leaf .string (Json.literal t) {} :: .punct "," :: Substitution.metaUrlItems)]

def innerArtifact : List Item :=
  [.name "new", .name "ModuleBlock",
    .grouped .paren [.template (escapeRaw (Text.ofString "import \x7b ModuleBlock \x7d from "))
      [(resolved (Text.ofString "/module-blocks-shim.js"), escapeRaw (Text.ofString "; import ")),
        (resolved unjoined, escapeRaw [])] {}]]

theorem lowerItem_innerBlock :
    (lowerItem {} innerBlock).result = .ok (innerArtifact, [innerPlan]) := by
  have hlower : (lower {} (innerItems (some ⟨32, 47⟩))).result = .ok (innerItems none, []) := by rfl
  have hprinted : printed {} (innerItems none) = .ok innerText := by decide +kernel
  refine lowerItem_block_eq_ok.2 ⟨innerItems none, [], innerPlan, innerArtifact, hlower, ?_,
    rfl, rfl, rfl⟩
  simp only [result_bodyPlan, hprinted, bind, Except.bind]
  exact planOf_innerText

theorem lower_outerItems :
    (lower {} (outerItems [innerBlock])).result = .ok (outerItems innerArtifact, [innerPlan]) := by
  refine guardCallsAfter_eq_ok.2 ⟨outerItems innerArtifact, ?_, rfl⟩
  simp only [outerItems, List.cons_append, List.nil_append, lowerAll, Noted.result_bind,
    lowerItem_innerBlock]
  rfl

/-- the text of the outer block's body.  The number has taken the point before it, so that the slash
behind it begins a regular expression, and a string literal begins inside the inner specifier:
`import` stands before it, and it holds the pair as it was kept. -/
def outerText : Text :=
  classImport ++ Text.ofString "\n.5. / new ModuleBlock(\x60import \x7b ModuleBlock \x7d " ++
    Text.ofString "from $\x7bJSON.stringify(new URL(" ++
      Text.ofString "\"/module-blocks-shim.js\", " ++
    Text.ofString "import.meta.url))\x7d; import " ++
      Text.ofString "$\x7bJSON.stringify(new URL(\"" ++ unjoined ++
    Text.ofString "\", import.meta.url))\x7d\x60) + /'/"

/-- the body of the outer block, the pair in the specifier of the inner one written as in
`spelling` -/
def createdText (spelling : Text) : Text :=
  Text.ofString "import \x7b ModuleBlock \x7d " ++
    Text.ofString "from \"https://h/module-blocks-shim.js\";" ++
      Text.ofString "\n.5. / new ModuleBlock(\x60import \x7b ModuleBlock \x7d " ++
    Text.ofString "from $\x7bJSON.stringify(new URL(" ++
      Text.ofString "\"/module-blocks-shim.js\", " ++
    Text.ofString "import.meta.url))\x7d; import " ++
      Text.ofString "$\x7bJSON.stringify(new URL(\"/'" ++ half ::
    Text.ofString "';import\"https://h/" ++ spelling ++
      Text.ofString "\\\", import.meta.url))\x7d\x60) + /\"/"

/-- In the artifact the value of that literal is a JSON literal with an escaped quotation mark;
reading it joins the pair, as the one surrogate that kept it apart is not in it. -/
theorem exists_planOf_outerText : ∃ plan, planOf outerText = .ok plan ∧
    plan.textAt (Text.ofString "https://h/m.js") = .ok (createdText splitPair) ∧
    ∃ artifact, plan.artifact {} = .ok artifact ∧
      Creation.body? {} (Text.ofString "https://h/m.js") artifact =
        some (createdText joinedPair) := by
  have hscan : (Program.read outerText >>= fun p => Split.scanFrom false 0 p.items) =
      .ok [⟨.staticImport, 28, 52⟩, ⟨.staticImport, 220, 252⟩] := by decide +kernel
  have htest : (Plan.cutAll outerText outerText.length []
      [⟨.staticImport, 220, 252⟩, ⟨.staticImport, 28, 52⟩]).toOption.any (fun plan =>
        (plan.textAt (Text.ofString "https://h/m.js")).toOption =
            some (createdText splitPair) ∧
          (plan.artifact {}).toOption.bind (Creation.body? {} (Text.ofString "https://h/m.js")) =
            some (createdText joinedPair)) = true := by
    decide +kernel
  obtain ⟨plan, hplan, htest⟩ := Except.exists_of_any htest
  obtain ⟨hbody, hvalue⟩ := of_decide_eq_true htest
  obtain ⟨artifact, hartifact, hvalue⟩ := Option.bind_eq_some_iff.1 hvalue
  refine ⟨plan, ?_, Except.toOption_eq_some.1 hbody, artifact, Except.toOption_eq_some.1 hartifact,
    hvalue⟩
  rw [Plan.planOf_eq_cutAll hscan (List.pairwise_pair.2 (by decide))]
  exact hplan

theorem lower_outerBlock {plan : Plan} {artifact : List Item} (hplan : planOf outerText = .ok plan)
    (hartifact : plan.artifact {} = .ok artifact) :
    artifactOf {} outerBlock = artifact ∧
    (lower {} [outerBlock]).result = .ok (artifact, [plan]) := by
  have hprinted : printed {} (outerItems innerArtifact) = .ok outerText := by decide +kernel
  have hbody : (bodyPlan {} (outerItems innerArtifact)).result = .ok plan := by
    simp only [result_bodyPlan, hprinted, bind, Except.bind]
    exact hplan
  obtain ⟨rest, -, rfl⟩ := artifact_eq_ok.1 hartifact
  have hitem : (lowerItem {} outerBlock).result = .ok (_, [plan]) :=
    lowerItem_block_eq_ok.2 ⟨_, _, plan, _, lower_outerItems, hbody, hartifact, rfl, rfl⟩
  exact ⟨by rw [artifactOf, hitem]; rfl, result_lower_block lower_outerItems hbody hartifact rfl⟩

/-- a pair that the body keeps apart is one character in what the artifact creates -/
theorem artifacts_create_joined :
    outerSource.Scalar ∧ Program.read outerSource = .ok ⟨[outerBlock], some outerSource⟩ ∧
    Item.outerBlocksAll [outerBlock] = [outerBlock] ∧
    (bodies {} outerSource (Text.ofString "https://h/m.js")).result =
      .ok [createdText splitPair] ∧
    (program {} ⟨[outerBlock], some outerSource⟩).result =
      (⟨artifactOf {} outerBlock, none⟩ : Program).withSupport {} ∧
    Creation.body? {} (Text.ofString "https://h/m.js")
      (artifactOf {} outerBlock) = some (createdText joinedPair) ∧
    createdText joinedPair ≠ createdText splitPair := by
  obtain ⟨plan, hplan, hbody, artifact, hartifact, hvalue⟩ := exists_planOf_outerText
  obtain ⟨hout, hlower⟩ := lower_outerBlock hplan hartifact
  refine ⟨?_, read_outerSource, rfl, ?_, ?_, hout ▸ hvalue, fun h => ?_⟩
  · simp only [outerSource, innerText, classImport, Text.scalar_append,
      Text.scalar_ofString, and_self]
  · simp only [bodies, bodiesFilled, Noted.result_bind, Noted.result_lift, Except.bind_eq_ok]
    exact ⟨_, read_outerSource, _, hlower, Except.bind_eq_ok.2 ⟨_, hbody, rfl⟩⟩
  · simp only [program, Noted.result_bind, hlower, hout]
    rfl
  · have hlength := congrArg List.length h
    simp [createdText, joinedPair, splitPair] at hlength

end Compile

end Relocation
