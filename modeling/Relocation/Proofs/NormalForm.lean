import Relocation.Proofs.Imported
import Relocation.Proofs.Nesting

/-!
# Compiled trees are in normal form

Lowering leaves trees without blocks in which groups and templates have no ranges any more
(`Item.Rebuilt`); where no call is left to guard, such trees are lowered to themselves
(`Compile.lowerAll_of_rebuilt`).  So compiling a tree a second time gives the same items
(`Compile.program_idempotent`), and `Compile.normal_of_program` says what they look like at every
depth.
-/

namespace Relocation

variable {options : Options}

namespace Item

variable {i : Item} {a b items out : List Item} {rest : List (List Item × Text)}

/-! ## rebuilt trees -/

mutual
/-- no block is in the item, and its groups and templates stand nowhere in a text -/
def Rebuilt : Item → Prop
  | .leaf _ _ _ => True
  | .group _ items m _ => m.range = none ∧ RebuiltEach items
  | .template _ rest m => m.range = none ∧ RebuiltRest rest
  | .block _ _ _ => False

def RebuiltEach : List Item → Prop
  | [] => True
  | i :: r => Rebuilt i ∧ RebuiltEach r

def RebuiltRest : List (List Item × Text) → Prop
  | [] => True
  | (items, _) :: r => RebuiltEach items ∧ RebuiltRest r
end

theorem rebuiltEach_append : RebuiltEach (a ++ b) ↔ RebuiltEach a ∧ RebuiltEach b := by
  induction a with
  | nil => simp [RebuiltEach]
  | cons i a ih => simp only [List.cons_append, RebuiltEach, ih, and_assoc]

theorem isBlock_of_rebuiltEach (h : RebuiltEach items) : ∀ i ∈ items, i.isBlock = false := by
  induction items with
  | nil => exact fun i hi => by cases hi
  | cons i r ih =>
    refine List.forall_mem_cons.2 ⟨?_, ih h.2⟩
    cases i with
    | block => exact h.1.elim
    | _ => rfl

theorem rebuilt_onNewLine (h : Rebuilt i) : Rebuilt i.onNewLine := by
  cases i with
  | leaf => trivial
  | group => exact ⟨rfl, h.2⟩
  | template => exact ⟨rfl, h.2⟩
  | block => exact h

theorem rebuilt_metaUrlItems : RebuiltEach Substitution.metaUrlItems :=
  ⟨trivial, trivial, trivial, trivial, trivial, trivial⟩

theorem rebuilt_located (t : Text) (m : Mark) :
    RebuiltEach (ImportCall.located (.leaf .string t m)) :=
  ⟨trivial, trivial, ⟨rfl, trivial, trivial, rebuilt_metaUrlItems⟩, trivial⟩

theorem rebuilt_fixedUp (h : RebuiltEach items) : RebuiltEach (ImportCall.fixedUp options items) :=
  ⟨trivial, trivial, trivial, ⟨rfl, h⟩, trivial⟩

theorem rebuilt_of_guardArguments (hitems : RebuiltEach items)
    (h : ImportCall.guardArguments options items = .ok (some out)) : RebuiltEach out := by
  obtain ⟨argument, hargument, hout⟩ := ImportCall.guardArguments_eq_some h
  have hrebuilt : RebuiltEach argument := by
    rcases eq_of_argumentsOf_singleton hargument with rfl | ⟨comma, -, rfl⟩
    · exact hitems
    · exact (rebuiltEach_append.1 hitems).1
  rcases hout with ⟨t, m, rfl, rfl⟩ | rfl
  · exact rebuilt_located t m
  · exact rebuilt_fixedUp hrebuilt

theorem rebuilt_of_guardCalls (hitems : RebuiltEach items)
    (h : (ImportCall.guardCalls options items).result = .ok out) :
    RebuiltEach out := by
  have hpairs := ImportCall.guardCalls_eq_ok h
  clear h
  induction hpairs with
  | nil => trivial
  | @cons i j items out hij _ ih =>
    refine ⟨?_, ih hitems.2⟩
    rcases hij with rfl | hij
    · exact hitems.1
    · obtain ⟨items, out, m, closeNewline, rfl, rfl, hguarded⟩ := ImportCall.guardGroup?_eq_some hij
      exact ⟨rfl, rebuilt_of_guardArguments hitems.1.2 hguarded⟩

theorem rebuilt_of_code {s : Substitution} (h : s.code = .ok items) : RebuiltEach items := by
  have hstringified : ∀ {argument : List Item}, RebuiltEach argument →
      RebuiltEach (Substitution.stringified argument) :=
    fun hargument => ⟨trivial, trivial, trivial, ⟨rfl, hargument⟩, trivial⟩
  match s with
  | .metaUrl =>
    obtain rfl := Except.ok.inj h
    exact hstringified rebuilt_metaUrlItems
  | .staticImport (some t) =>
    obtain rfl := Except.ok.inj h
    exact hstringified (rebuilt_located (Json.literal t) {})
  | .staticImport none =>
    obtain rfl := Except.ok.inj h
    exact hstringified ⟨trivial, trivial, ⟨rfl, trivial, trivial, rebuilt_metaUrlItems⟩, trivial⟩
  | .other label => cases h

theorem rebuilt_templateRest {parts : List (Substitution × Text)}
    (h : Plan.templateRest parts = .ok rest) :
    RebuiltRest rest := by
  induction parts generalizing rest with
  | nil =>
    obtain rfl := Except.ok.inj h
    trivial
  | cons part parts ih =>
    obtain ⟨items, more, hitems, hmore, rfl⟩ := Plan.templateRest_cons_eq_ok.1 h
    exact ⟨rebuilt_of_code hitems, ih hmore⟩

/-! ## every depth -/

theorem guardedAll_of_bodies (hg : Guarded options i) (hr : Rebuilt i) {body : List Item}
    (hbody : body ∈ i.bodies) : GuardedAll options body ∧ RebuiltEach body := by
  cases i with
  | leaf => cases hbody
  | group =>
    obtain rfl := List.mem_singleton.1 hbody
    exact ⟨hg, hr.2⟩
  | template =>
    exact ⟨forall_substitutions (P := GuardedAll options) (Q := GuardedRest options)
        (fun _ _ _ h => h) hg body hbody,
      forall_substitutions (P := RebuiltEach) (Q := RebuiltRest)
        (fun _ _ _ h => h) hr.2 body hbody⟩
  | block => exact hr.elim

/-- what is guarded and rebuilt is so at every depth -/
theorem Encloses.guarded {hidden : List Item → Item → Prop} {seq : List Item}
    (h : Encloses hidden items seq) (hg : GuardedAll options items) (hr : RebuiltEach items) :
    GuardedAll options seq ∧ RebuiltEach seq := by
  induction h with
  | self => exact ⟨hg, hr⟩
  | inside _ hbody _ ih =>
    obtain ⟨hg, hr⟩ :=
      guardedAll_of_bodies (guardedEach_append.1 hg.2).2.1 (rebuiltEach_append.1 hr).2.1 hbody
    exact ih hg hr

end Item

namespace Compile

open Item
open ImportCall (Done)

variable {i : Item} {items out : List Item} {plans : List Plan}

/-! ## lowering rebuilds -/

theorem rebuilt_of_guardCallsAfter {m : Noted (List Item × List Plan)}
    (hm : ∀ out plans, m.result = .ok (out, plans) → RebuiltEach out)
    (h : (guardCallsAfter options m).result = .ok (out, plans)) : RebuiltEach out := by
  obtain ⟨items, hitems, hguard⟩ := guardCallsAfter_eq_ok.1 h
  exact rebuilt_of_guardCalls (hm items plans hitems) hguard

mutual
/-- lowering leaves no blocks and no ranges of groups -/
theorem rebuilt_of_lowerItem : ∀ {i : Item} {out : List Item} {plans : List Plan},
    (lowerItem options i).result = .ok (out, plans) → RebuiltEach out
  | .leaf k t m, out, plans, h => by
    obtain ⟨rfl, rfl⟩ := Prod.mk.inj (Except.ok.inj h)
    exact ⟨trivial, trivial⟩
  | .group b items m closeNewline, out, plans, h => by
    obtain ⟨items', hitems, rfl⟩ := lowerItem_group_eq_ok.1 h
    exact ⟨⟨rfl, rebuilt_of_guardCallsAfter (fun _ _ h => rebuilt_of_lowerAll h) hitems⟩, trivial⟩
  | .template q rest m, out, plans, h => by
    obtain ⟨rest', hrest, rfl⟩ := lowerItem_template_eq_ok.1 h
    exact ⟨⟨rfl, rebuilt_of_lowerRest hrest⟩, trivial⟩
  | .block items m closeNewline, out, plans, h => by
    obtain ⟨plan, rest, -, hrest, rfl⟩ := eq_of_lowerItem_block h
    exact ⟨trivial, trivial, ⟨rfl, ⟨rfl, rebuilt_templateRest hrest⟩, trivial⟩, trivial⟩

theorem rebuilt_of_lowerAll : ∀ {items out : List Item} {plans : List Plan},
    (lowerAll options items).result = .ok (out, plans) → RebuiltEach out
  | [], out, plans, h => by
    obtain ⟨rfl, rfl⟩ := Prod.mk.inj (Except.ok.inj h)
    trivial
  | i :: r, out, plans, h => by
    obtain ⟨first, firstPlans, more, morePlans, hfirst, hmore, rfl, rfl⟩ := lowerAll_cons_eq_ok.1 h
    exact rebuiltEach_append.2 ⟨rebuilt_of_lowerItem hfirst, rebuilt_of_lowerAll hmore⟩

theorem rebuilt_of_lowerRest : ∀ {rest out : List (List Item × Text)} {plans : List Plan},
    (lowerRest options rest).result = .ok (out, plans) → RebuiltRest out
  | [], out, plans, h => by
    obtain ⟨rfl, rfl⟩ := Prod.mk.inj (Except.ok.inj h)
    trivial
  | (items, q) :: r, out, plans, h => by
    obtain ⟨first, firstPlans, more, morePlans, hfirst, hmore, rfl, rfl⟩ := lowerRest_cons_eq_ok.1 h
    exact ⟨rebuilt_of_guardCallsAfter (fun _ _ h => rebuilt_of_lowerAll h) hfirst,
      rebuilt_of_lowerRest hmore⟩
end

/-! ## what is rebuilt and guarded stays -/

theorem lower_of_rebuilt (h : Done options none none items)
    (hlower : (lowerAll options items).result = .ok (items, [])) :
    (guardCallsAfter options (lowerAll options items)).result = .ok (items, []) :=
  guardCallsAfter_eq_ok.2 ⟨_, hlower, ImportCall.result_guardCalls_of_done h⟩

mutual
theorem lowerItem_of_rebuilt : ∀ {i : Item}, Guarded options i → Rebuilt i →
    (lowerItem options i).result = .ok ([i], [])
  | .leaf _ _ _, _, _ => rfl
  | .group b items ⟨_, newline⟩ closeNewline, h, hrebuilt => by
    obtain ⟨rfl, hitems⟩ := hrebuilt
    simp only [lowerItem, Noted.result_bind, lower_of_rebuilt h.1 (lowerAll_of_rebuilt h.2 hitems)]
    rfl
  | .template q rest ⟨_, newline⟩, h, hrebuilt => by
    obtain ⟨rfl, hrest⟩ := hrebuilt
    simp only [lowerItem, Noted.result_bind, lowerRest_of_rebuilt h hrest]
    rfl
  | .block _ _ _, _, hrebuilt => hrebuilt.elim

theorem lowerAll_of_rebuilt : ∀ {items : List Item}, GuardedEach options items → RebuiltEach items →
    (lowerAll options items).result = .ok (items, [])
  | [], _, _ => rfl
  | i :: r, h, hrebuilt => by
    simp only [lowerAll, Noted.result_bind, lowerItem_of_rebuilt h.1 hrebuilt.1,
      lowerAll_of_rebuilt h.2 hrebuilt.2]
    rfl

theorem lowerRest_of_rebuilt : ∀ {rest : List (List Item × Text)}, GuardedRest options rest →
    RebuiltRest rest → (lowerRest options rest).result = .ok (rest, [])
  | [], _, _ => rfl
  | (items, q) :: r, h, hrebuilt => by
    simp only [lowerRest, Noted.result_bind,
      lower_of_rebuilt h.1.1 (lowerAll_of_rebuilt h.1.2 hrebuilt.1),
      lowerRest_of_rebuilt h.2 hrebuilt.2]
    rfl
end

/-! ## compiled programs -/

/-- what compilation gives: nothing is left to do -/
structure Normal (options : Options) (items : List Item) : Prop where
  guarded : GuardedAll options items
  rebuilt : RebuiltEach items
  present : Support.Import.isPresent options items = .ok true

theorem withSupport_eq_ok {q : Program}
    (h : (⟨items, none⟩ : Program).withSupport options = .ok q) :
    (Support.Import.isPresent options items = .ok true ∧ q = ⟨items, none⟩) ∨ ∃ support,
      Support.Import.items options = .ok support ∧
      q = ⟨support ++ items.head?.elim [] fun i => i.onNewLine :: items.tail, none⟩ := by
  obtain ⟨o, ho, h⟩ := Except.bind_eq_ok.1 h
  obtain rfl := Except.ok.inj h
  obtain ⟨present, hpresent, ho⟩ := Except.bind_eq_ok.1 ho
  cases present with
  | true =>
    obtain rfl := Except.ok.inj ho
    exact .inl ⟨hpresent, rfl⟩
  | false =>
    obtain ⟨support, hsupport, ho⟩ := Except.bind_eq_ok.1 ho
    obtain rfl := Except.ok.inj ho
    refine .inr ⟨support, hsupport, ?_⟩
    cases items <;> rfl

variable {name specifier : Text} {p q : Program}

theorem rebuilt_itemsOf (h : RebuiltEach items) :
    RebuiltEach (Support.Import.itemsOf name specifier ++ items.head?.elim [] fun i =>
    i.onNewLine :: items.tail) := by
  refine rebuiltEach_append.2 ⟨⟨trivial, ⟨rfl, trivial, trivial⟩, trivial, trivial, trivial,
    trivial⟩, ?_⟩
  cases items with
  | nil => trivial
  | cons i r => exact ⟨rebuilt_onNewLine h.1, h.2⟩

theorem normal_of_result (hclass : options.className = some name)
    (hspecifier : options.supportSpecifier = some specifier)
    (hname : Token.Readable .name name) (hscalar : specifier.Scalar)
    (h : (program options p).result = .ok q) : q.source = none ∧ Normal options q.items := by
  simp only [program, Noted.result_bind, Noted.result_lift] at h
  obtain ⟨⟨items, plans⟩, hlower, h⟩ := Except.bind_eq_ok.1 h
  have hsome : options.className.isSome = true := by rw [hclass]; rfl
  have hguarded : GuardedAll options items :=
    guarded_of_guardCallsAfter hsome (fun _ _ h => guarded_of_lowerAll hsome h) hlower
  have hrebuilt : RebuiltEach items :=
    rebuilt_of_guardCallsAfter (fun _ _ h => rebuilt_of_lowerAll h) hlower
  rcases withSupport_eq_ok h with ⟨hpresent, rfl⟩ | ⟨support, hsupport, rfl⟩
  · exact ⟨rfl, hguarded, hrebuilt, hpresent⟩
  · rw [Support.Import.items_eq_ok hclass hspecifier hname] at hsupport
    obtain rfl := Except.ok.inj hsupport
    exact ⟨rfl, Support.Import.guardedAll_itemsOf hguarded, rebuilt_itemsOf hrebuilt,
      Support.Import.isPresent_itemsOf hclass hspecifier hscalar _⟩

/-- what is in normal form is compiled to itself -/
theorem result_program_of_normal (h : Normal options p.items) :
    (program options p).result = .ok ⟨p.items, none⟩ := by
  have hlower : (lower options p.items).result = .ok (p.items, []) :=
    lower_of_rebuilt h.guarded.1 (lowerAll_of_rebuilt h.guarded.2 h.rebuilt)
  simp only [program, Noted.result_bind, Noted.result_lift, hlower]
  show (⟨p.items, none⟩ : Program).withSupport options = _
  rw [Program.withSupport, Program.withSupport?, h.present]
  rfl

/-- compiling a tree a second time gives the same items -/
theorem program_idempotent (hclass : options.className = some name)
    (hspecifier : options.supportSpecifier = some specifier)
    (hname : Token.Readable .name name) (hscalar : specifier.Scalar)
    (h : (program options p).result = .ok q) : (program options q).result = .ok q := by
  obtain ⟨hsource, hnormal⟩ := normal_of_result hclass hspecifier hname hscalar h
  rw [result_program_of_normal hnormal, ← hsource]

/-- `f(import('./b'), import(module { import(x) }, ))` -/
def nested : Program :=
  ⟨[.name "f", .grouped .paren [.name "import", .grouped .paren [.leaf .string "'./b'" {}],
    .punct ",", .name "import",
    .grouped .paren [.block [.name "import", .grouped .paren [.name "x"]] {} false, .punct ","]]],
    none⟩

theorem exists_program_nested :
    ∃ q, (program { supportSpecifier := some "/s.js", className := some "B" } nested).result =
      .ok q := by
  have h :
      (program { supportSpecifier := some "/s.js", className := some "B" }
        nested).result.toOption.any (fun _ => true) = true := by
    decide +kernel
  obtain ⟨q, hq, -⟩ := Except.exists_of_any h
  exact ⟨q, hq⟩

theorem readable_b : Token.Readable .name "B" := readable_of_front (by decide)

theorem program_idempotent_nested : ∃ q,
    (program { supportSpecifier := some "/s.js", className := some "B" } nested).result = .ok q ∧
    Token.Readable .name "B" ∧ Text.Scalar "/s.js" ∧
    (program { supportSpecifier := some "/s.js", className := some "B" } q).result = .ok q := by
  obtain ⟨q, hq⟩ := exists_program_nested
  have hscalar : Text.Scalar "/s.js" := Text.scalar_ofString _
  exact ⟨q, hq, readable_b, hscalar, program_idempotent rfl rfl readable_b hscalar hq⟩

end Compile

/-! ## calls in normal form -/

namespace ImportCall

variable {before previous : Option Item} {ahead args argument r : List Item} {word i : Item}

/-- `name.fixup(…)` -/
def IsFixupOf (name : Text) (argument : List Item) : Prop :=
  ∃ receiver dot method args, argument = [receiver, dot, method, args] ∧
    receiver.isName name = true ∧ dot.isPunct "." = true ∧ method.isName "fixup" = true ∧
    args.isGroup .paren = true

/-- `new URL(<string>, import.meta.url)` -/
def IsLocated (argument : List Item) : Prop :=
  ∃ new url literal comma a b c d e m closeNewline,
    argument = [new, url, .group .paren [literal, comma, a, b, c, d, e] m closeNewline] ∧
    new.isName "new" = true ∧ url.isName "URL" = true ∧ literal.isString = true ∧
    comma.isPunct "," = true ∧ a.isName "import" = true ∧
    b.isPunct "." = true ∧ c.isName "meta" = true ∧ d.isPunct "." = true ∧ e.isName "url" = true

theorem isFixupOf_of_isFixup {name : Text} (hclass : options.className = some name)
    (h : isFixup options argument = true) : IsFixupOf name argument := by
  unfold isFixup at h
  split at h
  · simp only [Bool.and_eq_true, Options.isClass, hclass, Option.any_some] at h
    exact ⟨_, _, _, _, rfl, h.1.1.1, h.1.1.2, h.1.2, h.2⟩
  · cases h

theorem isLocated_of_isLocated (h : isLocated argument = true) : IsLocated argument := by
  unfold isLocated at h
  split at h
  · rename_i new url group
    split at h
    · rename_i literal comma rest hgroup
      cases group with
      | group bracket items m closeNewline =>
        simp only [Item.groupItems?] at hgroup
        split_ifs at hgroup with hparen
        obtain rfl := Option.some.inj hgroup
        subst hparen
        unfold isMetaUrl at h
        split at h
        · simp only [Bool.and_eq_true] at h
          exact ⟨new, url, literal, comma, _, _, _, _, _, m, closeNewline, rfl, h.1.1, h.1.2,
            h.2.1.1, h.2.1.2, h.2.2.1.1.1.1, h.2.2.1.1.1.2, h.2.2.1.1.2, h.2.2.1.2, h.2.2.2⟩
        · simp at h
      | _ => cases hgroup
    · simp at h
  · cases h

theorem guardArguments_eq_none (h : guardArguments options args = .ok none) :
    (argumentsOf args).length ≠ 1 ∨ ∃ argument, argumentsOf args = [argument] ∧
      (isFixup options argument = true ∨ isLocated argument = true) := by
  unfold guardArguments at h
  split at h
  · rename_i argument hargument
    obtain ⟨literal, -, h⟩ := Except.bind_eq_ok.1 h
    cases literal with
    | some literal => cases h
    | none =>
      simp only at h
      split_ifs at h with hguarded
      · exact .inr ⟨argument, hargument, Bool.or_eq_true_iff.1 hguarded⟩
      · cases h
  · rename_i hother
    refine .inl fun hlength => ?_
    obtain ⟨argument, hargument⟩ := List.length_eq_one_iff.1 hlength
    exact hother argument hargument

/-- a call in a sequence that is done is left alone -/
theorem Done.call (h : Done options before previous (ahead ++ word :: i :: r))
    (hword : word.isName "import" = true)
    (hdot : (ahead.getLast?.or previous).any (·.isMemberDot) = false)
    (hparen : i.isGroup .paren = true) (hbrace : r.head?.any (·.isGroup .brace) = false) :
    guardGroup? options i = .ok none := by
  induction ahead generalizing before previous with
  | nil => exact h.2.1 (by simpa [isCall, hword, hparen, hbrace] using hdot)
  | cons j ahead ih =>
    refine ih h.2 ?_
    rw [List.getLast?_cons] at hdot
    cases hlast : ahead.getLast? <;> simp_all

end ImportCall

namespace Compile

open Item ImportCall

variable {name specifier : Text} {p q : Program}

/-- In a compiled tree, at every depth, there is no block, and every call `import(…)` has no
argument or several, or its one argument is a call of `fixup` or a URL that is joined with the place
of the module.  The support import is there. -/
theorem normal_of_program (hclass : options.className = some name)
    (hspecifier : options.supportSpecifier = some specifier)
    (hname : Token.Readable .name name) (hscalar : specifier.Scalar)
    (h : (program options p).result = .ok q) :
    (∀ seq, Encloses Apparent q.items seq →
      (∀ i ∈ seq, i.isBlock = false) ∧
      ∀ before word args m closeNewline after,
        seq = before ++ word :: .group .paren args m closeNewline :: after →
        word.isName "import" = true → before.getLast?.any (·.isMemberDot) = false →
        after.head?.any (·.isGroup .brace) = false →
        (argumentsOf args).length ≠ 1 ∨
          ∃ argument, argumentsOf args = [argument] ∧
            (IsFixupOf name argument ∨ IsLocated argument)) ∧
    Support.Import.isPresent options q.items = .ok true := by
  obtain ⟨-, hnormal⟩ := normal_of_result hclass hspecifier hname hscalar h
  refine ⟨fun seq hseq => ?_, hnormal.present⟩
  obtain ⟨hguarded, hrebuilt⟩ := hseq.guarded hnormal.guarded hnormal.rebuilt
  refine ⟨fun i hi => isBlock_of_rebuiltEach hrebuilt i hi, ?_⟩
  rintro before word args m closeNewline after rfl hword hdot hbrace
  have hnone : guardGroup? options (.group .paren args m closeNewline) = .ok none :=
    Done.call hguarded.1 hword (by simpa using hdot) rfl hbrace
  obtain ⟨o, ho, hnone⟩ := Except.bind_eq_ok.1 hnone
  obtain rfl : o = none := Option.map_eq_none_iff.1 (Except.ok.inj hnone)
  refine (guardArguments_eq_none ho).imp_right ?_
  rintro ⟨argument, hargument, hfixup | hlocated⟩
  · exact ⟨argument, hargument, .inl (isFixupOf_of_isFixup hclass hfixup)⟩
  · exact ⟨argument, hargument, .inr (isLocated_of_isLocated hlocated)⟩

theorem normal_of_program_nested : ∃ q,
    (program { supportSpecifier := some "/s.js", className := some "B" } nested).result = .ok q ∧
    Token.Readable .name "B" ∧ Text.Scalar "/s.js" ∧
    (∀ seq, Encloses Apparent q.items seq →
      (∀ i ∈ seq, i.isBlock = false) ∧
      ∀ before word args m closeNewline after,
        seq = before ++ word :: .group .paren args m closeNewline :: after →
        word.isName "import" = true → before.getLast?.any (·.isMemberDot) = false →
        after.head?.any (·.isGroup .brace) = false →
        (argumentsOf args).length ≠ 1 ∨
          ∃ argument, argumentsOf args = [argument] ∧
            (IsFixupOf "B" argument ∨ IsLocated argument)) ∧
    Support.Import.isPresent { supportSpecifier := some "/s.js", className := some "B" } q.items =
      .ok true := by
  obtain ⟨q, hq⟩ := exists_program_nested
  have hscalar : Text.Scalar "/s.js" := Text.scalar_ofString _
  exact ⟨q, hq, readable_b, hscalar, normal_of_program rfl rfl readable_b hscalar hq⟩

end Compile

end Relocation
