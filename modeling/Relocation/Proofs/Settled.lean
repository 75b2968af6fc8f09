import Relocation.Proofs.Escaped
import Relocation.Proofs.Guarding
import Relocation.Proofs.Rules

/-!
# Compiled code may stand where blocks stood

`Item.Settled` says of a sequence that it may stand at the beginning of a text, keeps a rule and
holds no blocks.  Guarding keeps it (`Settled.guardCalls`), and the artifact of a plan may take the
place of a block (`takesPlace_of_artifact`).
-/

namespace Relocation

open Token (Left Readable)

variable {options : Options}

namespace Item

variable {rule : Rule} {tr : Trail} {l : Left} {a b items : List Item}

/-! ## what can be written down -/

theorem readable_of_front {kind : Token.Kind} {c : CodePoint} {t : Text}
    (h : ({} : Token.Context).front c t = .ok (.token kind, t.length)) : Readable kind (c :: t) :=
  ⟨{}, c, t, [], rfl, Token.Context.front_eq_ok.1 (by rw [List.append_nil, h])⟩

theorem readable_literal (t : Text) : Readable .string (Json.literal t) := by
  refine ⟨{}, .char '"', Literal.quotedBody t ++ [.char '"'], [], rfl, .string (.inl rfl) ?_⟩
  rw [List.append_nil, Lexical.stringLength?_quotedBody, List.length_append]
  rfl

theorem templateLength?_closed (t d : Text) (opens : Bool) (hd : d.head? ≠ some (.char '\x7b'))
    (h : Lexical.templateLength? d = some (d.length, opens)) :
    Lexical.templateLength? (escapeRaw t ++ d ++ []) = some ((escapeRaw t ++ d).length, opens) := by
  rw [List.append_nil, Lexical.templateLength?_escapeRaw hd, h, List.length_append]
  rfl

/-- escaped text is a template, or the chunk of one before its first substitution -/
theorem readable_quasi (whole : Bool) (t : Text) :
    Readable (Word.quasi whole (escapeRaw t) false).kind
      (Word.quasi whole (escapeRaw t) false).text := by
  cases whole with
  | false =>
    have hlength := templateLength?_closed t (Text.ofString "$\x7b") true (by decide) rfl
    exact ⟨{}, .char '\x60', _, [], rfl, (Token.Context.Reads.template rfl hlength :)⟩
  | true =>
    have hlength := templateLength?_closed t (Text.ofString "\x60") false (by decide) rfl
    exact ⟨{}, .char '\x60', _, [], rfl, (Token.Context.Reads.template rfl hlength :)⟩

/-- escaped text is the chunk of a template behind a substitution -/
theorem readable_chunk (last : Bool) (t : Text) :
    Readable (Word.chunk last (escapeRaw t) false).kind
      (Word.chunk last (escapeRaw t) false).text := by
  have hbraces : ({ braces := [.template] } : Token.Context).braces.head? = some .template := rfl
  cases last with
  | false =>
    have hlength := templateLength?_closed t (Text.ofString "$\x7b") true (by decide) rfl
    exact ⟨{ braces := [.template] }, .char '\x7d', _, [], rfl,
      (Token.Context.Reads.resume rfl hbraces hlength :)⟩
  | true =>
    have hlength := templateLength?_closed t (Text.ofString "\x60") false (by decide) rfl
    exact ⟨{ braces := [.template] }, .char '\x7d', _, [], rfl,
      (Token.Context.Reads.resume rfl hbraces hlength :)⟩

theorem fits_name {t : Text} (h : Readable .name t) (m : Mark) : Fits l (.leaf .name t m) :=
  ⟨rfl, h, trivial⟩

theorem fits_string {t : Text} (h : Readable .string t) (m : Mark) : Fits l (.leaf .string t m) :=
  ⟨rfl, h, trivial⟩

theorem fits_punct {t : Text} (h : Readable .punct t) (ht : t.head? ≠ some (.char '/')) (m : Mark) :
    Fits l (.leaf .punct t m) := ⟨rfl, h, fun h' => (ht h').elim⟩

/-! ## settled sequences -/

/-- the sequence may stand at the beginning of a text, keeps the rule, and holds no blocks -/
structure Settled (rule : Rule) (items : List Item) : Prop where
  fits : FitsAll .start items
  kept : keepsAll rule {} items = true
  blocks : outerBlocksAll items = []

theorem Settled.of_append (h : Settled rule (a ++ b)) : Settled rule a where
  fits := (fitsAll_append.1 h.fits).1
  kept := by
    obtain ⟨hseated, hkeeps⟩ := keepsAll_iff.1 h.kept
    exact keepsAll_iff.2 ⟨seated_of_append hseated, fun i hi =>
      hkeeps i (List.mem_append_left b hi)⟩
  blocks := by
    have := h.blocks
    rw [outerBlocksAll_append] at this
    exact (List.append_eq_nil_iff.1 this).1

/-- neighbours that are parted are printed as what they are -/
theorem Settled.tidy (h : Settled parted items) : tidyAll false items = true :=
  tidyAll_of_keepsAll (by simp [parted]) h.kept h.blocks

/-- a quiet item in front changes nothing -/
theorem keepsAll_cons_of_isQuiet (hrule : Lawful rule) {i : Item} (hi : i.isQuiet = true)
    (hkeeps : i.keeps rule = true) (hr : keepsAll rule (i.trail tr) items = true) :
    keepsAll rule tr (i :: items) = true := by
  rw [keepsAll, hkeeps, allows_of_isQuiet hrule hi, hr]
  rfl

theorem keepsAll_member (hrule : Lawful rule) (t t' : Text) (r : List Item)
    (hr : ∀ tr, keepsAll rule tr (name t' :: r) = true) :
    keepsAll rule tr (name t :: punct "." :: name t' :: r) = true := by
  have hname : allows rule tr (name t) (punct "." :: name t' :: r) = true :=
    allows_name_dot hrule t {}
  rw [keepsAll, keepsAll, hname, allows_dot hrule, hr]
  rfl

theorem keepsAll_metaUrlItems (hrule : Lawful rule) :
    keepsAll rule tr Substitution.metaUrlItems = true :=
  keepsAll_member hrule _ _ _ fun _ => keepsAll_member hrule _ _ _ fun _ =>
    keepsAll_cons_of_isQuiet hrule rfl rfl rfl

theorem settled_metaUrlItems (hrule : Lawful rule) : Settled rule Substitution.metaUrlItems where
  fits :=
    ⟨fits_name (readable_of_front (by decide)) _,
      fits_punct (readable_of_front (by decide)) (by decide) _,
    fits_name (readable_of_front (by decide)) _,
    fits_punct (readable_of_front (by decide)) (by decide) _,
    fits_name (readable_of_front (by decide)) _, trivial⟩
  kept := keepsAll_metaUrlItems hrule
  blocks := rfl

/-- the call `new URL(first, import.meta.url)` -/
theorem keepsAll_url (hrule : Lawful rule) {first : Item} (hfirst : first.isQuiet = true)
    (hkeeps : first.keeps rule = true) :
    keepsAll rule {}
      [name "new", name "URL", grouped .paren (first :: punct "," :: Substitution.metaUrlItems)] =
    true := by
  have hinner : keepsAll rule {} (first :: punct "," :: Substitution.metaUrlItems) = true :=
    keepsAll_cons_of_isQuiet hrule hfirst hkeeps (keepsAll_cons_of_isQuiet hrule rfl rfl
      (keepsAll_metaUrlItems hrule))
  exact keepsAll_cons_of_isQuiet hrule rfl rfl (keepsAll_cons_of_isQuiet hrule rfl rfl
    (keepsAll_cons_of_isQuiet hrule rfl hinner rfl))

theorem settled_located (hrule : Lawful rule) {t : Text} (ht : Readable .string t) (m : Mark) :
    Settled rule (ImportCall.located (.leaf .string t m)) where
  fits := ⟨fits_name (readable_of_front (by decide)) _, fits_name (readable_of_front (by decide)) _,
    ⟨fits_string ht m, fits_punct (readable_of_front (by decide)) (by decide) _,
      (settled_metaUrlItems hrule).fits⟩, trivial⟩
  kept := keepsAll_url hrule rfl rfl
  blocks := rfl

theorem Settled.fixedUp (hrule : Lawful rule) (hclass : Readable .name options.classCode)
    (h : Settled rule items) : Settled rule (ImportCall.fixedUp options items) where
  fits := ⟨fits_name hclass _, fits_punct (readable_of_front (by decide)) (by decide) _,
    fits_name (readable_of_front (by decide)) _, h.fits, trivial⟩
  kept := keepsAll_member hrule _ _ _ fun _ => keepsAll_cons_of_isQuiet hrule rfl rfl
    (keepsAll_cons_of_isQuiet hrule rfl h.kept rfl)
  blocks := by
    simp [ImportCall.fixedUp, outerBlocksAll, outerBlocks, grouped, name, punct, h.blocks]

/-! ## what takes the place of items -/

/-- the items of `out` take the place of `items` behind `l`; the artifacts among them call the class
`cls` -/
structure TakesPlace (rule : Rule) (cls : Text) (l : Left) (items out : List Item) : Prop where
  fits : FitsAll l out
  kept : ∀ j ∈ out, j.keeps rule = true
  blocks : outerBlocksAll out = []
  faces : out.map face = items.flatMap (loweredFaces cls)

variable {cls : Text} {i j : Item} {out : List Item}

theorem TakesPlace.append {out' : List Item} (h : TakesPlace rule cls l a out)
    (h' : TakesPlace rule cls (leftAfterAll l out) b out') :
    TakesPlace rule cls l (a ++ b) (out ++ out') where
  fits := fitsAll_append.2 ⟨h.fits, h'.fits⟩
  kept := fun j hj => (List.mem_append.1 hj).elim (h.kept j) (h'.kept j)
  blocks := by rw [outerBlocksAll_append, h.blocks, h'.blocks, List.append_nil]
  faces := by rw [List.map_append, List.flatMap_append, h.faces, h'.faces]

theorem takesPlace_nil : TakesPlace rule cls l [] [] := ⟨trivial, by simp, rfl, rfl⟩

theorem takesPlace_singleton (hi : i.isBlock = false) (hface : j.face = i.face) (hfits : Fits l j)
    (hkept : j.keeps rule = true) (hblocks : outerBlocks j = []) :
    TakesPlace rule cls l [i] [j] where
  fits := ⟨hfits, trivial⟩
  kept := by simpa using hkept
  blocks := by rw [outerBlocksAll, hblocks, outerBlocksAll, List.append_nil]
  faces := by
    rw [List.flatMap_singleton, loweredFaces_of_not_block hi, List.map_singleton, hface]

/-- neighbours see of an artifact what they see of its faces, so they keep the rule -/
theorem TakesPlace.settled (hrule : Lawful rule) (h : TakesPlace rule cls .start items out)
    (hkept : keepsAll rule {} items = true) : Settled rule out where
  fits := h.fits
  kept := by
    refine keepsAll_iff.2 ⟨?_, h.kept⟩
    rw [← seated_face hrule, h.faces]
    exact seated_lowered hrule (keepsAll_iff.1 hkept).1
  blocks := h.blocks

/-! ## guarding -/

theorem settled_of_guardArguments (hrule : Lawful rule) (hclass : Readable .name options.classCode)
    (h : Settled rule items) (hguard : ImportCall.guardArguments options items = .ok (some out)) :
    Settled rule out := by
  obtain ⟨argument, hargument, hout⟩ := ImportCall.guardArguments_eq_some hguard
  have hsettled : Settled rule argument := by
    rcases eq_of_argumentsOf_singleton hargument with rfl | ⟨comma, -, rfl⟩
    · exact h
    · exact h.of_append
  rcases hout with ⟨t, m, rfl, rfl⟩ | rfl
  · exact settled_located hrule hsettled.fits.1.2.1 m
  · exact hsettled.fixedUp hrule hclass

/-- a group whose calls are guarded stands where it stood -/
theorem takesPlace_of_guardGroup? (hrule : Lawful rule) (hclass : Readable .name options.classCode)
    (hfits : Fits l i) (hkept : i.keeps rule = true) (hblocks : outerBlocks i = [])
    (hguard : ImportCall.guardGroup? options i = .ok (some j)) :
    TakesPlace rule cls l [i] [j] ∧ j.leftAfter l = i.leftAfter l := by
  obtain ⟨items, out, m, closeNewline, rfl, rfl, hguarded⟩ := ImportCall.guardGroup?_eq_some hguard
  have hout := settled_of_guardArguments hrule hclass ⟨hfits, hkept, hblocks⟩ hguarded
  exact ⟨takesPlace_singleton rfl rfl hout.fits hout.kept hout.blocks, rfl⟩

theorem Settled.guardCalls (hrule : Lawful rule) (hclass : Readable .name options.classCode)
    (h : Settled rule items) (hguard : (ImportCall.guardCalls options items).result = .ok out) :
    Settled rule out := by
  have hplace : ∀ {l : Left} {items out : List Item}, FitsAll l items →
      (∀ i ∈ items, i.keeps rule = true) → outerBlocksAll items = [] →
      List.Forall₂ (fun i j => j = i ∨ ImportCall.guardGroup? options i = .ok (some j)) items out →
      TakesPlace rule options.classCode l items out := by
    intro l items out hfits hkept hblocks hpairs
    induction hpairs generalizing l with
    | nil => exact takesPlace_nil
    | @cons i j items out hij _ ih =>
      obtain ⟨hi, hr⟩ := List.append_eq_nil_iff.1 hblocks
      obtain ⟨hikept, hrkept⟩ := List.forall_mem_cons.1 hkept
      have hj : TakesPlace rule options.classCode l [i] [j] ∧ j.leftAfter l = i.leftAfter l := by
        rcases hij with rfl | hij
        · have hblock : j.isBlock = false := by cases j <;> first | rfl | cases hi
          exact ⟨takesPlace_singleton hblock rfl hfits.1 hikept hi, rfl⟩
        · exact takesPlace_of_guardGroup? hrule hclass hfits.1 hikept hi hij
      refine hj.1.append (b := items) (ih ?_ hrkept hr)
      rw [leftAfterAll, hj.2]
      exact hfits.2
  exact (hplace h.fits (keepsAll_iff.1 h.kept).2 h.blocks
    (ImportCall.guardCalls_eq_ok hguard)).settled hrule h.kept

/-! ## artifacts -/

theorem settled_of_code (hrule : Lawful rule) {s : Substitution} (h : s.code = .ok items) :
    Settled rule items := by
  have hstringified : ∀ {argument : List Item}, Settled rule argument →
      Settled rule (Substitution.stringified argument) :=
    fun {argument} h =>
      { fits := ⟨fits_name (readable_of_front (by decide)) _,
          fits_punct (readable_of_front (by decide)) (by decide) _,
          fits_name (readable_of_front (by decide)) _, h.fits, trivial⟩
        kept := keepsAll_member hrule _ _ _ fun _ => keepsAll_cons_of_isQuiet hrule rfl rfl
          (keepsAll_cons_of_isQuiet hrule rfl h.kept rfl)
        blocks := by
          simp [Substitution.stringified, outerBlocksAll, outerBlocks, grouped, name, punct,
            h.blocks] }
  cases s with
  | metaUrl =>
    obtain rfl := Except.ok.inj h
    exact hstringified (settled_metaUrlItems hrule)
  | staticImport specifier =>
    cases specifier with
    | some t =>
      obtain rfl := Except.ok.inj h
      exact hstringified (settled_located hrule (readable_literal t) {})
    | none =>
      obtain rfl := Except.ok.inj h
      refine hstringified ⟨⟨fits_name (readable_of_front (by decide)) _,
        fits_name (readable_of_front (by decide)) _, ⟨fits_name (readable_of_front (by decide)) _,
          fits_punct (readable_of_front (by decide)) (by decide) _,
          (settled_metaUrlItems hrule).fits⟩, trivial⟩, keepsAll_url hrule rfl rfl, rfl⟩
  | other label => cases h

theorem settled_templateRest (hrule : Lawful rule) {parts : List (Substitution × Text)}
    {rest : List (List Item × Text)} (h : Plan.templateRest parts = .ok rest) :
    FitsRest rest ∧ keepsRest rule rest = true ∧ outerBlocksRest rest = [] := by
  induction parts generalizing rest with
  | nil =>
    obtain rfl := Except.ok.inj h
    exact ⟨trivial, rfl, rfl⟩
  | cons part parts ih =>
    obtain ⟨items, more, hitems, hmore, rfl⟩ := Plan.templateRest_cons_eq_ok.1 h
    obtain ⟨hfits, hkept, hblocks⟩ := ih hmore
    have hsettled := settled_of_code hrule hitems
    refine ⟨fitsRest_cons.2 ⟨hsettled.fits, readable_chunk _ _, hfits⟩, ?_, ?_⟩
    · rw [keepsRest, hsettled.kept, hkept, Bool.and_self]
    · rw [outerBlocksRest, hsettled.blocks, hblocks, List.append_nil]

/-- the artifact of a plan takes the place of a block, and what follows it stands behind a
parenthesis -/
theorem takesPlace_of_artifact (hrule : Lawful rule) (hclass : Readable .name options.classCode)
    {parts : List (Substitution × Text)} {rest : List (List Item × Text)}
    (h : Plan.templateRest parts = .ok rest) (first : Text) (items : List Item) (m : Mark)
    (closeNewline : Bool) :
    TakesPlace rule options.classCode l [.block items m closeNewline]
      [.leaf .name "new" ⟨none, m.newline⟩,
        .name options.classCode, .grouped .paren [.template (escapeRaw first) rest {}]] where
  fits := by
    have htemplate : Fits .start (.template (escapeRaw first) rest {}) :=
      ⟨readable_quasi _ _, (settled_templateRest hrule h).1⟩
    exact ⟨fits_name (readable_of_front (by decide)) _, fits_name hclass _,
      ⟨htemplate, trivial⟩, trivial⟩
  kept := by
    have hinner : keepsAll rule {} [.template (escapeRaw first) rest {}] = true :=
      keepsAll_cons_of_isQuiet hrule rfl (settled_templateRest hrule h).2.1 rfl
    simp [keeps, name, grouped, hinner]
  blocks := by
    simp [outerBlocksAll, outerBlocks, grouped, name, (settled_templateRest hrule h).2.2]
  faces := rfl

end Item

end Relocation
