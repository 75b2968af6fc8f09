import Relocation.Proofs.Rewriting

/-!
# What compilation changes in the words

A tree is flattened into signs: its words with their line breaks, and one sign for each outermost
block.  Compilation is a script of edits on them (`Compile.text_edits`): besides the support import
and what is written around the arguments of calls nothing is inserted, and nothing is dropped but
trailing commas of calls.
-/

namespace Relocation

/-! ## signs -/

/-- a word of a tree, or a block that counts as one; `newline` says that a line break comes before
it -/
inductive Sign
  | word (w : Word)
  | block (items : List Item) (newline closeNewline : Bool)

namespace Sign

def onNewLine : Sign → Sign
  | .word w => .word { w with newline := true }
  | .block items _ closeNewline => .block items true closeNewline

def words : Sign → List Word
  | .word w => [w]
  | .block items newline closeNewline => (Item.block items ⟨none, newline⟩ closeNewline).words

end Sign

/-- what stands behind a sign -/
def Lead.nextSign (lead : Lead) : Sign → Lead
  | .word w =>
    if w.isMemberDot then .member
    else if w.kind = .name ∧ w.text = Text.ofString "import" ∧ lead ≠ .member then .callee
    else .other
  | .block .. => .other

theorem Lead.nextSign_leaf {k : Piece.Kind} (hk : k.isLeaf = true) (lead : Lead) (t : Text)
    (m : Mark) : lead.nextSign (.word ⟨k.tokenKind, t, m.newline⟩) = lead.next (.leaf k t m) := by
  rcases Piece.Kind.isLeaf_cases hk with rfl | rfl | rfl | rfl | rfl <;>
    simp [nextSign, next, Word.isMemberDot, Item.isMemberDot, Item.isPunct, Item.isName,
      Piece.Kind.tokenKind]

namespace Item

mutual
/-- the signs of an item in the order of the text -/
def signs : Item → List Sign
  | .leaf k t m => [.word ⟨k.tokenKind, t, m.newline⟩]
  | .group b items m closeNewline =>
    .word ⟨b.openKind, b.opener, m.newline⟩ ::
      (signsAll items ++ [.word ⟨b.closeKind, b.closer, closeNewline⟩])
  | .template q rest m => .word (.quasi rest.isEmpty q m.newline) :: signsRest rest
  | .block items m closeNewline => [.block items m.newline closeNewline]

def signsAll : List Item → List Sign
  | [] => []
  | i :: r => signs i ++ signsAll r

def signsRest : List (List Item × Text) → List Sign
  | [] => []
  | (items, q) :: r => signsAll items ++ .word (.chunk r.isEmpty q false) :: signsRest r
end

theorem signsAll_append (a b : List Item) : signsAll (a ++ b) = signsAll a ++ signsAll b := by
  induction a with
  | nil => rfl
  | cons i a ih => rw [List.cons_append, signsAll, signsAll, ih, List.append_assoc]

mutual
/-- an item is printed as the words of its signs -/
theorem words_signs : ∀ i : Item, (signs i).flatMap Sign.words = words i
  | .leaf _ _ _ => rfl
  | .group _ items _ _ => by simp [signs, words, Sign.words, words_signsAll items]
  | .template _ rest _ => by simp [signs, words, Sign.words, words_signsRest rest]
  | .block _ _ _ => by simp [signs, words, Sign.words]

theorem words_signsAll : ∀ items : List Item, (signsAll items).flatMap Sign.words = wordsAll items
  | [] => rfl
  | i :: r => by rw [signsAll, wordsAll, List.flatMap_append, words_signs i, words_signsAll r]

theorem words_signsRest :
    ∀ rest : List (List Item × Text), (signsRest rest).flatMap Sign.words = wordsRest rest
  | [] => rfl
  | (items, _) :: r =>
    by simp [signsRest, wordsRest, Sign.words, words_signsAll items, words_signsRest r]
end

end Item

/-! ## edits -/

/-- one sign of a text or its copy: it is kept, kept on a line of its own, inserted or dropped -/
inductive Edit
  | kept (s : Sign)
  | lined (s : Sign)
  | inserted (s : Sign)
  | dropped (s : Sign)

namespace Edit

def old? : Edit → Option Sign
  | .kept s | .lined s | .dropped s => some s
  | .inserted _ => none

def new? : Edit → Option Sign
  | .kept s | .inserted s => some s
  | .lined s => some s.onNewLine
  | .dropped _ => none

/-- the signs that a script begins with -/
def before (script : List Edit) : List Sign := script.filterMap old?

/-- the signs that a script leads to -/
def after (script : List Edit) : List Sign := script.filterMap new?

/-- the signs of a sequence, all edited alike -/
def each (edit : Sign → Edit) (items : List Item) : List Edit := (Item.signsAll items).map edit

/-- a script between parentheses -/
def enclosed (edit : Sign → Edit) (newline closeNewline : Bool) (script : List Edit) : List Edit :=
  edit (.word ⟨.openParen, Bracket.paren.opener, newline⟩) ::
    (script ++ [edit (.word ⟨.closeParen, Bracket.paren.closer, closeNewline⟩)])

/-- `new URL(…, import.meta.url)` is written around a literal -/
def locating (literal : Item) : List Edit :=
  each .inserted [.name "new", .name "URL"] ++
    enclosed .inserted false false (each .kept [literal] ++
      each .inserted (.punct "," :: Substitution.metaUrlItems))

/-- `ModuleBlock.fixup(…)` is written around an argument -/
def fixing (argument : List Edit) : List Edit :=
  each .inserted [.name "ModuleBlock", .punct ".", .name "fixup"] ++
    enclosed .inserted false false argument

/-- Scripts that guard calls and change nothing else; `lead` is what stands before.  Only what
stands alone between the parentheses of a call is guarded, and only there a trailing comma goes. -/
inductive Guards : Lead → List Edit → Prop
  | nil {lead} : Guards lead []
  | keep {lead s r} : Guards (lead.nextSign s) r → Guards lead (.kept s :: r)
  | located {literal comma newline closeNewline r} : ImportCall.IsLocalLiteral [literal] →
      Item.TrailingComma comma → Guards .other r →
      Guards .callee (enclosed .kept newline closeNewline (locating literal ++
        each .dropped comma) ++ r)
  | fixedUp {argument script comma newline closeNewline r} :
    (∀ i ∈ argument, i.isPunct "," = false) → before script = Item.signsAll argument →
      Guards .other script → Item.TrailingComma comma → Guards .other r →
      Guards .callee (enclosed .kept newline closeNewline (fixing script ++ each .dropped comma) ++
        r)

variable {lead : Lead} {a b r script : List Edit} {items : List Item}

/-! ### projections -/

@[simp] theorem before_append (a b : List Edit) : before (a ++ b) = before a ++ before b :=
  List.filterMap_append

@[simp] theorem after_append (a b : List Edit) : after (a ++ b) = after a ++ after b :=
  List.filterMap_append

@[simp] theorem before_kept (s : Sign) (r : List Edit) : before (.kept s :: r) = s :: before r :=
  rfl

@[simp] theorem after_kept (s : Sign) (r : List Edit) : after (.kept s :: r) = s :: after r := rfl

@[simp] theorem before_inserted (s : Sign) (r : List Edit) : before (.inserted s :: r) = before r :=
  rfl

@[simp] theorem after_inserted (s : Sign) (r : List Edit) :
    after (.inserted s :: r) = s :: after r := rfl

@[simp] theorem before_nil : before [] = [] := rfl

@[simp] theorem after_nil : after [] = [] := rfl

@[simp] theorem before_each_kept (items : List Item) :
    before (each .kept items) = Item.signsAll items :=
  List.filterMap_map.trans List.filterMap_some

@[simp] theorem after_each_kept (items : List Item) :
    after (each .kept items) = Item.signsAll items :=
  List.filterMap_map.trans List.filterMap_some

@[simp] theorem before_each_inserted (items : List Item) : before (each .inserted items) = [] :=
  List.filterMap_map.trans (List.filterMap_none _)

@[simp] theorem after_each_inserted (items : List Item) :
    after (each .inserted items) = Item.signsAll items :=
  List.filterMap_map.trans List.filterMap_some

@[simp] theorem before_each_dropped (items : List Item) :
    before (each .dropped items) = Item.signsAll items :=
  List.filterMap_map.trans List.filterMap_some

@[simp] theorem after_each_dropped (items : List Item) : after (each .dropped items) = [] :=
  List.filterMap_map.trans (List.filterMap_none _)

/-! ### scripts in a row -/

/-- a script may be followed by what may stand anywhere -/
theorem Guards.append (h : Guards lead a) (hb : ∀ lead, Guards lead b) : Guards lead (a ++ b) := by
  induction h with
  | nil => exact hb _
  | keep _ ih => exact .keep ih
  | located hliteral hcomma _ ih =>
    rw [List.append_assoc]
    exact .located hliteral hcomma ih
  | fixedUp hcommas hscript hguards hcomma _ _ ih =>
    rw [List.append_assoc]
    exact .fixedUp hcommas hscript hguards hcomma ih

/-- no call is led to by a word that is neither a name nor a punctuator -/
theorem Guards.keep_other {w : Word} (hw : w.kind ≠ .name ∧ w.kind ≠ .punct) (h : Guards .other r)
    (lead : Lead) : Guards lead (.kept (.word w) :: r) := by
  have hnext : lead.nextSign (.word w) = .other := by simp [Lead.nextSign, Word.isMemberDot, hw]
  exact .keep (by rwa [hnext])

end Edit

namespace Item

open Edit (Guards before after enclosed locating fixing each)

theorem RewrittenRest.isEmpty_eq {rest rest' : List (List Item × Text)}
    (h : RewrittenRest rest rest') : rest'.isEmpty = rest.isEmpty := by
  cases h <;> rfl

mutual
/-- a sequence is rewritten by a script -/
theorem Rewritten.exists_script : ∀ {lead : Lead} {items out : List Item},
    Rewritten lead items out → ∃ script, before script = signsAll items ∧
    after script = signsAll out ∧ Guards lead script
  | _, _, _, .nil => ⟨[], rfl, rfl, .nil⟩
  | lead, _, _, @Rewritten.leaf _ k t m r r' hk h => by
    obtain ⟨script, hbefore, hafter, hguards⟩ := h.exists_script
    refine ⟨.kept (.word ⟨k.tokenKind, t, m.newline⟩) :: script, ?_, ?_, .keep ?_⟩
    · simp [signsAll, signs, hbefore]
    · simp [signsAll, signs, hafter]
    · rwa [Lead.nextSign_leaf hk]
  | lead, _, _, @Rewritten.group _ b items items' m c r r' hitems h => by
    obtain ⟨inner, hinner, hinner', hguards⟩ := hitems.exists_script
    obtain ⟨script, hbefore, hafter, hscript⟩ := h.exists_script
    have hopen : b.openKind ≠ .name ∧ b.openKind ≠ .punct := by cases b <;> decide
    have hclose : b.closeKind ≠ .name ∧ b.closeKind ≠ .punct := by cases b <;> decide
    refine ⟨.kept (.word ⟨b.openKind, b.opener, m.newline⟩) ::
      (inner ++ .kept (.word ⟨b.closeKind, b.closer, c⟩) :: script), ?_, ?_, ?_⟩
    · simp [signsAll, signs, hinner, hbefore]
    · simp [signsAll, signs, hinner', hafter]
    · exact Guards.keep_other hopen (hguards.append (Guards.keep_other hclose hscript)) lead
  | lead, _, _, @Rewritten.template _ q rest rest' m r r' hrest h => by
    obtain ⟨parts, hparts, hparts', hguards⟩ := hrest.exists_script
    obtain ⟨script, hbefore, hafter, hscript⟩ := h.exists_script
    have hquasi : (Word.quasi rest.isEmpty q m.newline).kind ≠ .name ∧
        (Word.quasi rest.isEmpty q m.newline).kind ≠ .punct := by
      cases rest.isEmpty <;> exact ⟨nofun, nofun⟩
    refine ⟨.kept (.word (.quasi rest.isEmpty q m.newline)) :: (parts ++ script), ?_, ?_, ?_⟩
    · simp [signsAll, signs, hparts, hbefore]
    · simp [signsAll, signs, hrest.isEmpty_eq, hparts', hafter]
    · exact Guards.keep_other hquasi (hguards script hscript) lead
  | lead, _, _, @Rewritten.block _ items m c r r' h => by
    obtain ⟨script, hbefore, hafter, hguards⟩ := h.exists_script
    refine ⟨.kept (.block items m.newline c) :: script, ?_, ?_, .keep hguards⟩
    · simp [signsAll, signs, hbefore]
    · simp [signsAll, signs, hafter]
  | _, _, _, @Rewritten.located literal comma m c r r' hliteral hcomma h => by
    obtain ⟨script, hbefore, hafter, hguards⟩ := h.exists_script
    refine ⟨enclosed .kept m.newline c (locating literal ++ each .dropped comma) ++ script, ?_, ?_,
      .located hliteral hcomma hguards⟩
    · simp [enclosed, locating, signsAll, signs, hbefore, Bracket.openKind, Bracket.closeKind]
    · simp [enclosed, locating, signsAll, signs, hafter, Bracket.openKind, Bracket.closeKind,
        ImportCall.located, grouped, name]
  | _, _, _, @Rewritten.fixedUp argument argument' comma m c r r' hcommas hargument hcomma h => by
    obtain ⟨inner, hinner, hinner', hguards⟩ := hargument.exists_script
    obtain ⟨script, hbefore, hafter, hscript⟩ := h.exists_script
    refine ⟨enclosed .kept m.newline c (fixing inner ++ each .dropped comma) ++ script, ?_, ?_,
      .fixedUp hcommas hinner hguards hcomma hscript⟩
    · simp [enclosed, fixing, signsAll, signs, signsAll_append, hinner, hbefore, Bracket.openKind,
        Bracket.closeKind]
    · simp [enclosed, fixing, signsAll, signs, hinner', hafter, Bracket.openKind, Bracket.closeKind,
        ImportCall.fixedUp, grouped, name, punct, Options.classCode]

theorem RewrittenRest.exists_script : ∀ {rest rest' : List (List Item × Text)},
    RewrittenRest rest rest' → ∃ script, before script = signsRest rest ∧
    after script = signsRest rest' ∧
      ∀ r, Guards .other r → Guards .other (script ++ r)
  | _, _, .nil => ⟨[], rfl, rfl, fun _ h => h⟩
  | _, _, @RewrittenRest.cons items items' q r r' hitems hrest => by
    obtain ⟨inner, hinner, hinner', hguards⟩ := hitems.exists_script
    obtain ⟨more, hbefore, hafter, hmore⟩ := hrest.exists_script
    have hchunk :
        (Word.chunk r.isEmpty q false).kind ≠ .name ∧
        (Word.chunk r.isEmpty q false).kind ≠ .punct := by
      cases r.isEmpty <;> exact ⟨nofun, nofun⟩
    refine ⟨inner ++ .kept (.word (.chunk r.isEmpty q false)) :: more, ?_, ?_,
      fun script hscript => ?_⟩
    · simp [signsRest, hinner, hbefore]
    · simp [signsRest, hrest.isEmpty_eq, hinner', hafter]
    · rw [List.append_assoc]
      exact hguards.append (Guards.keep_other hchunk (hmore script hscript))
end

end Item

/-! ## compiled programs -/

namespace Edit

/-- the script with a line break before its first sign -/
def onNewLine : List Edit → List Edit
  | .kept s :: r => .lined s :: r
  | script => script

/-- Scripts that compile: calls are guarded, and if the support import is inserted, what was first
begins a line. -/
def Compiles (script : List Edit) : Prop :=
  ∃ rest, Guards .other rest ∧
    (script = rest ∨ script = each .inserted Compile.supportItems ++ onNewLine rest)

end Edit

namespace Item

theorem signs_onNewLine (i : Item) :
    ∃ s ss, signs i = s :: ss ∧ signs i.onNewLine = s.onNewLine :: ss := by
  cases i with
  | template q rest m =>
    rw [onNewLine, signs, signs]
    cases rest.isEmpty <;> exact ⟨_, _, rfl, rfl⟩
  | _ => exact ⟨_, _, rfl, rfl⟩

end Item

namespace Edit

/-- a script leads to a sequence that begins a line if it does so itself; no program begins with the
arguments of a call -/
theorem Guards.onNewLine (h : Guards .other script) (hafter : after script = Item.signsAll items) :
    before (Edit.onNewLine script) = before script ∧
      after (Edit.onNewLine script) =
        Item.signsAll (items.head?.elim [] fun i => i.onNewLine :: items.tail) := by
  cases items with
  | nil =>
    cases h with
    | nil => exact ⟨rfl, rfl⟩
    | keep => cases hafter
  | cons i r =>
    obtain ⟨s, ss, hs, hline⟩ := i.signs_onNewLine
    rw [Item.signsAll, hs] at hafter
    cases h with
    | nil => cases hafter
    | @keep _ s' script _ =>
      obtain ⟨rfl, hrest⟩ := List.cons.inj hafter
      refine ⟨rfl, ?_⟩
      rw [List.head?_cons, Option.elim_some, List.tail_cons, Item.signsAll, hline]
      exact congrArg (List.cons _) hrest

end Edit

namespace Compile

open Item (CreatesAll filledAll signsAll)
open Edit (Guards Compiles before after)

/-- the support import before a rewritten sequence is a script as well -/
theorem exists_script_supported {items sketch sketch' : List Item}
    (h : Item.Rewritten .other items sketch) (hsupported : Supported sketch sketch') :
    ∃ script, before script = signsAll items ∧ after script = signsAll sketch' ∧
    Compiles script := by
  obtain ⟨script, hbefore, hafter, hguards⟩ := h.exists_script
  rcases hsupported with rfl | rfl
  · exact ⟨script, hbefore, hafter, script, hguards, .inl rfl⟩
  · obtain ⟨hold, hnew⟩ := hguards.onNewLine hafter
    refine ⟨Edit.each .inserted supportItems ++ Edit.onNewLine script, ?_, ?_, script,
      hguards, .inr rfl⟩
    · rw [Edit.before_append, Edit.before_each_inserted, hold, hbefore, List.nil_append]
    · rw [Edit.after_append, Edit.after_each_inserted, hnew, Item.signsAll_append]

/-- What compilation changes in the words of a program, each outermost block and what is created in
its place counted as one: nothing but what `Edit.Compiles` says. -/
theorem text_edits {source t : Text} (h : (text {} source).result = .ok t) :
    ∃ p q sketch script, Program.read source = .ok p ∧ (program {} p).result = .ok q ∧ t = q.print ∧
      q.items = filledAll (artifactOf {}) sketch ∧ CreatesAll (artifactOf {}) sketch ∧
      before script = signsAll p.items ∧ after script = signsAll sketch ∧ Compiles script := by
  simp only [text, Noted.result_bind, Noted.result_lift, Noted.result_tell, Noted.result_pure] at h
  obtain ⟨p, hread, h⟩ := Except.bind_eq_ok.1 h
  obtain ⟨q, hq, h⟩ := Except.bind_eq_ok.1 h
  obtain ⟨output, houtput, h⟩ := Except.bind_eq_ok.1 h
  obtain ⟨-, -, h⟩ := Except.bind_eq_ok.1 h
  obtain rfl := Except.ok.inj h
  obtain ⟨sketch, sketch', hsketch, hsupported, hfilled, hcreates⟩ := program_outline hq
  have hrewritten := rewritten_outline (Program.fits_of_read hread).1 hsketch
  obtain ⟨script, hbefore, hafter, hcompiles⟩ := exists_script_supported hrewritten hsupported
  exact ⟨p, q, sketch', script, hread, hq, (Except.ok.inj houtput).symm, hfilled, hcreates, hbefore,
    hafter, hcompiles⟩

/-- calls in each other, a trailing comma, a block and lines of their own -/
def calls : Text :=
  Text.ofString "f(\nimport(g(import(\"./a\")), ), module \x7b b() \x7d)\nimport(\"./c\")"

theorem text_edits_calls : ∃ t p q sketch script, (text {} calls).result = .ok t ∧
    Program.read calls = .ok p ∧ (program {} p).result = .ok q ∧ t = q.print ∧
    q.items = filledAll (artifactOf {}) sketch ∧ CreatesAll (artifactOf {}) sketch ∧
    before script = signsAll p.items ∧ after script = signsAll sketch ∧
    Compiles script := by
  have hcompiled : (text {} calls).result.toOption.any (fun _ => true) = true := by decide +kernel
  obtain ⟨t, ht, -⟩ := Except.exists_of_any hcompiled
  obtain ⟨p, q, sketch, script, h⟩ := text_edits ht
  exact ⟨t, p, q, sketch, script, ht, h⟩

end Compile

end Relocation
