import Relocation.ImportCall
import Relocation.Tree.Printer
import Relocation.Proofs.Cooked
import Relocation.Proofs.Quotation
import Relocation.Proofs.Reference

/-!
# What an artifact creates

`Creation.body?` evaluates an artifact in a module with a given URL: quasis are cooked,
`JSON.stringify` writes a JSON literal, `import.meta.url` is the URL of the module and `new URL`
resolves a reference against it. `body?_of_artifact`: for the artifact of a plan this is what
filling in the plan gives, the same UTF-16 code units, and the same code points unless the artifact
itself holds a surrogate.
-/

namespace Relocation

namespace Creation

/-- the URL that an expression stands for in a module at `metaUrl` -/
def url? (metaUrl : Text) : List Item → Option Text
  | [.leaf .name new _, .leaf .name cls _,
      .group .paren (.leaf .string literal _ :: .leaf .punct comma _ :: base) _ _] =>
    if new = Text.ofString "new" ∧ cls = Text.ofString "URL" ∧ comma = Text.ofString "," ∧
      ImportCall.isMetaUrl base then do
      let reference ← (Literal.value literal).toOption
      (Url.resolve metaUrl reference).toOption
    else none
  | items => if ImportCall.isMetaUrl items then some metaUrl else none

/-- the text that an expression in a substitution stands for -/
def substitution? (metaUrl : Text) : List Item → Option Text
  | [.leaf .name json _, .leaf .punct dot _, .leaf .name stringify _, .group .paren argument _ _] =>
    if json = Text.ofString "JSON" ∧ dot = Text.ofString "." ∧
      stringify = Text.ofString "stringify" then
      (url? metaUrl argument).map Json.literal
    else none
  | _ => none

/-- substitutions with the quasis behind them -/
def rest? (metaUrl : Text) : List (List Item × Text) → Option Text
  | [] => some []
  | (items, quasi) :: r => do
    let value ← substitution? metaUrl items
    let cooked ← Template.cook quasi
    let rest ← rest? metaUrl r
    return value ++ cooked ++ rest

/-- the body of the block that `new Class(…)` creates -/
def body? (options : Options) (metaUrl : Text) : List Item → Option Text
  | [.leaf .name new _, .leaf .name cls _, .group .paren [.template quasi rest _] _ _] =>
    if new = Text.ofString "new" ∧ cls = options.classCode then do
      let cooked ← Template.cook quasi
      let rest ← rest? metaUrl rest
      return cooked ++ rest
    else none
  | _ => none

end Creation

namespace Substitution

/-- does a split of a text give the substitution? -/
def IsKnown : Substitution → Prop
  | .metaUrl => True
  | .staticImport s => s.isSome
  | .other _ => False

/-- the specifier holds no surrogate -/
def IsScalar : Substitution → Prop
  | .staticImport (some t) => t.all CodePoint.isScalar = true
  | _ => True

theorem isKnown_ofSplit {source : Text} {split : Split} {s : Substitution}
    (h : ofSplit source split = .ok s) : s.IsKnown := by
  unfold ofSplit at h
  cases hk : split.kind with
  | metaUrl => rw [hk] at h; obtain rfl := Except.ok.inj h; trivial
  | staticImport =>
    rw [hk] at h
    obtain ⟨v, -, h⟩ := Except.bind_eq_ok.1 h
    obtain rfl := Except.ok.inj h
    rfl
  | other label => rw [hk] at h; cases h

theorem isMetaUrl_metaUrlItems : ImportCall.isMetaUrl metaUrlItems = true := by decide

/-- the code of a substitution evaluates to its value, up to the spelling of characters as
surrogates -/
theorem substitution?_code {s : Substitution} (hs : s.IsKnown) {metaUrl w : Text}
    (h : s.valueAt metaUrl = .ok w) : ∃ items w', s.code = .ok items ∧
    Creation.substitution? metaUrl items = some w' ∧ w'.halves = w.halves ∧
      (s.IsScalar → w' = w) := by
  match s, hs with
  | .metaUrl, _ =>
    obtain rfl := Except.ok.inj h
    refine ⟨_, Json.literal metaUrl, rfl, ?_, rfl, fun _ => rfl⟩
    simp [Creation.substitution?, stringified, Item.name, Item.punct, Item.grouped, Creation.url?,
      metaUrlItems]
    decide
  | .staticImport (some t), _ =>
    simp only [valueAt] at h
    cases hu : Url.resolve metaUrl t with
    | error e => rw [hu] at h; cases h
    | ok u =>
      rw [hu] at h
      obtain rfl := Except.ok.inj h
      have hunits : Text.halves t = Text.halves (Literal.requoted t) :=
        (Literal.halves_requoted t).symm
      obtain ⟨u', hu', hhu⟩ := Url.resolve_congr hunits hu
      refine ⟨_, Json.literal u', rfl, ?_, ?_, ?_⟩
      · have hurl : Creation.url? metaUrl [.name "new", .name "URL",
            .grouped .paren (.leaf .string (Json.literal t) {} :: .punct "," :: metaUrlItems)] =
            some u' := by
          simp [Creation.url?, Item.name, Item.punct, Item.grouped, isMetaUrl_metaUrlItems,
            Literal.value_literal, hu', Except.toOption]
        simp only [Creation.substitution?, stringified, Item.name, Item.punct, Item.grouped]
          at hurl ⊢
        simp [hurl]
      · rw [Literal.halves_literal, hhu, ← Literal.halves_literal]
      · intro hscalar
        rw [Literal.requoted_of_scalar hscalar, hu] at hu'
        rw [Except.ok.inj hu']

end Substitution

namespace Plan

/-- the plan's substitutions come from splits -/
def IsKnown (p : Plan) : Prop := ∀ s ∈ p.rest, s.1.IsKnown

theorem isKnown_cutAll {source : Text} {splits : List Split} :
    ∀ {limit : Nat} {done : List (Substitution × Text)}
    {p : Plan}, (∀ s ∈ done, s.1.IsKnown) → cutAll source limit done splits = .ok p →
    p.IsKnown := by
  induction splits with
  | nil =>
    intro limit done p hd h
    obtain rfl := Except.ok.inj h
    exact hd
  | cons s splits ih =>
    intro limit done p hd h
    rw [cutAll] at h
    split_ifs at h with hrange
    obtain ⟨sub, hsub, h⟩ := Except.bind_eq_ok.1 h
    refine ih ?_ h
    intro s' hs'
    rcases List.mem_cons.1 hs' with rfl | hs'
    · exact Substitution.isKnown_ofSplit hsub
    · exact hd s' hs'

theorem isKnown_ofSplits {source : Text} {splits : List Split} {p : Plan}
    (h : ofSplits source splits = .ok p) : p.IsKnown :=
  isKnown_cutAll (by simp) h

/-- no specifier of the plan holds a surrogate -/
def IsScalar (p : Plan) : Prop := ∀ s ∈ p.rest, s.1.IsScalar

theorem templateRest_cons_eq_ok {part : Substitution × Text} {parts : List (Substitution × Text)}
    {rest : List (List Item × Text)} : templateRest (part :: parts) = .ok rest ↔
      ∃ items more, part.1.code = .ok items ∧ templateRest parts = .ok more ∧
        rest = (items, escapeRaw part.2) :: more := by
  obtain ⟨s, literal⟩ := part
  rw [templateRest]
  constructor
  · intro h
    obtain ⟨items, hitems, h⟩ := Except.bind_eq_ok.1 h
    obtain ⟨more, hmore, h⟩ := Except.bind_eq_ok.1 h
    exact ⟨items, more, hitems, hmore, (Except.ok.inj h).symm⟩
  · rintro ⟨items, more, hitems, hmore, rfl⟩
    exact Except.bind_eq_ok.2 ⟨items, hitems, Except.bind_eq_ok.2 ⟨more, hmore, rfl⟩⟩

theorem exists_templateRest {parts : List (Substitution × Text)}
    (h : ∀ part ∈ parts, ∃ items, part.1.code = .ok items) :
    ∃ rest, templateRest parts = .ok rest := by
  induction parts with
  | nil => exact ⟨[], rfl⟩
  | cons part parts ih =>
    obtain ⟨⟨items, hitems⟩, hparts⟩ := List.forall_mem_cons.1 h
    obtain ⟨more, hmore⟩ := ih hparts
    exact ⟨_, templateRest_cons_eq_ok.2 ⟨items, more, hitems, hmore, rfl⟩⟩

theorem rest?_templateRest {metaUrl : Text} : ∀ {rest : List (Substitution × Text)} {w : Text},
    (∀ s ∈ rest, s.1.IsKnown) → fillRest (·.valueAt metaUrl) rest = .ok w →
    ∃ items w', templateRest rest = .ok items ∧ Creation.rest? metaUrl items = some w' ∧
    w'.halves = w.halves ∧
      ((∀ s ∈ rest, s.1.IsScalar) → w' = w) := by
  intro rest
  induction rest with
  | nil =>
    intro w _ h
    obtain rfl := Except.ok.inj h
    exact ⟨[], [], rfl, rfl, rfl, fun _ => rfl⟩
  | cons s rest ih =>
    intro w hk h
    obtain ⟨s, literal⟩ := s
    obtain ⟨filled, hf, h⟩ := Except.bind_eq_ok.1 h
    obtain ⟨more, hm, h⟩ := Except.bind_eq_ok.1 h
    obtain rfl := Except.ok.inj h
    obtain ⟨items, filled', hcode, heval, hfh, hfs⟩ :=
      Substitution.substitution?_code (hk (s, literal) (by simp)) hf
    obtain ⟨itemsRest, more', htr, her, hmh, hms⟩ := ih (fun s hs => hk s (by simp [hs])) hm
    refine ⟨(items, escapeRaw literal) :: itemsRest, filled' ++ literal ++ more', ?_, ?_, ?_, ?_⟩
    · exact templateRest_cons_eq_ok.2 ⟨items, itemsRest, hcode, htr, rfl⟩
    · simp only [Creation.rest?, heval, her, Template.cook_escapeRaw]
      rfl
    · simp only [Text.halves_append, hfh, hmh]
    · intro hscalar
      rw [hfs (hscalar (s, literal) (by simp)), hms fun s hs => hscalar s (by simp [hs])]

/-- the artifact of a plan creates the body that filling in the plan gives -/
theorem body?_artifact {p : Plan} (options : Options) (hp : p.IsKnown) {metaUrl body : Text}
    (h : p.textAt metaUrl = .ok body) :
    ∃ artifact body', p.artifact options = .ok artifact ∧
    Creation.body? options metaUrl artifact = some body' ∧
      body'.halves = body.halves ∧ (p.IsScalar → body' = body) := by
  obtain ⟨w, hw, h⟩ := Except.bind_eq_ok.1 h
  obtain rfl := Except.ok.inj h
  obtain ⟨items, w', htr, her, hwh, hws⟩ := rest?_templateRest hp hw
  refine ⟨_, p.first ++ w', by simp only [artifact, htr]; rfl, ?_, ?_, ?_⟩
  · simp [Creation.body?, Item.name, Item.grouped, Template.cook_escapeRaw, her]
  · simp only [Text.halves_append, hwh]
  · intro hscalar
    rw [hws hscalar]

end Plan

end Relocation
