import Relocation.Proofs.Partition
import Relocation.Proofs.Regrouping
import Relocation.Proofs.Standing

/-!
# Legible code can be read back

What is read from the print of legible code without blocks may differ from the code: loose
punctuators, and numbers behind points, have become others (`Item.cuts_legible`).  They stand in the
same places among the same items, so no block has come up, and no specifier is claimed twice where
the code claims it once (`Item.rereadable_of_keepsAll`).  So the print has a plan, unless a literal
in it has no value (`Compile.isEscape_planOf_print`).
-/

namespace Relocation

open Token (Left)

namespace Word

variable {w w' : Word} {ws : List Word} {tr : Trail}

theorem not_misread_of_isInert (h : w'.kind.isInert = true) : ¬ Misread tr w w' := by
  rintro (⟨-, -, -, hk, -⟩ | ⟨-, -, -, -, hk, -⟩) <;> · rw [hk] at h; cases h

theorem legible_cons_of_isClosed (h : w.kind.isClosed = true) (hnumber : w.kind ≠ .number) :
    Legible tr (w :: ws) ↔ Legible {} ws := by
  have hkind := Token.Kind.ne_of_isClosed h
  have hread : ∀ w' ∈ ws.head?, ¬ Misread tr w w' := by
    rintro w' - (⟨hk, -⟩ | ⟨hk, -⟩)
    · exact hkind.1 hk
    · exact hnumber hk
  rw [Legible, Trail.behind_of_not_punct hkind.2.1]
  exact ⟨fun h => h.2.2, fun h => ⟨hkind.2.2, hread, h⟩⟩

end Word

namespace Item

variable {l : Left} {i j : Item} {items r : List Item} {tr : Trail}

/-! ## words of legible code -/

theorem isBraceBeside_of_head {w : Word} (hw : w ∈ (words j).head?) (hk : w.kind = .openBrace)
    (hn : w.newline = false) : j.isBraceBeside = true := by
  cases j with
  | leaf k => obtain rfl := Option.some.inj hw; cases k <;> cases hk
  | group b items m c =>
    obtain rfl := Option.some.inj hw
    cases b with
    | brace =>
      have hn : m.newline = false := hn
      simp [isBraceBeside, isGroup, groupItems?, mark, hn]
    | _ => cases hk
  | template q rest => obtain rfl := Option.some.inj hw; cases rest <;> cases hk
  | block => obtain rfl := Option.some.inj hw; cases hk

theorem isDivision_of_head (hj : Fits l j) {w : Word} (hw : w ∈ (words j).head?)
    (hk : w.kind = .punct) (hslash : w.text.head? = some (.char '/')) : j.isDivision = true := by
  cases j with
  | leaf k =>
    obtain rfl := Option.some.inj hw
    rcases Piece.Kind.isLeaf_cases hj.1 with rfl | rfl | rfl | rfl | rfl
    · cases hk
    · cases hk
    · cases hk
    · cases hk
    · simpa [isDivision] using hslash
  | group b => obtain rfl := Option.some.inj hw; cases b <;> cases hk
  | template q rest => obtain rfl := Option.some.inj hw; cases rest <;> cases hk
  | block => obtain rfl := Option.some.inj hw; cases hk

/-- a leaf that may stand before an item is not misread before the word that the item begins with -/
theorem not_misread_head {k : Piece.Kind} (hk : k.isLeaf = true) {t : Text} {m : Mark}
    (hj : Fits l j) (h : allows legible tr (.leaf k t m) (j :: r) = true) {w : Word}
    (hw : w ∈ (words j).head?) : ¬ Word.Misread tr ⟨k.tokenKind, t, m.newline⟩ w := by
  rw [allows_iff] at h
  rintro (⟨hname, ht, hmember, hbrace, hbeside⟩ | ⟨hnumber, hpoint, hbeside, hpoints,
    hpunct, hslash⟩)
  · have hkeyword := h keyword (by simp [legible])
    have hbrace := isBraceBeside_of_head hw hbrace hbeside
    rcases Piece.Kind.isLeaf_cases hk with rfl | rfl | rfl | rfl | rfl
    · have ht : t = Text.ofString "module" := ht
      simp [keyword, windowIf, isName, ht, hmember, startsWith, hbrace] at hkeyword
    · cases hname
    · cases hname
    · cases hname
    · cases hname
  · have hdivision := h slash (by simp [legible])
    have hslash := isDivision_of_head hj hw hpunct hslash
    rcases Piece.Kind.isLeaf_cases hk with rfl | rfl | rfl | rfl | rfl
    · cases hnumber
    · have hpoint : t.getLast? = some (.char '.') := hpoint
      have hbeside : m.newline = false := hbeside
      simp [slash, windowIf, isPointedBeside, hpoint, hbeside, hpoints, startsWith, hslash]
        at hdivision
    · cases hnumber
    · cases hnumber
    · cases hnumber

mutual
theorem legible_words : ∀ {i : Item} {l : Left}, Fits l i → i.keeps legible = true →
    outerBlocks i = [] →
    ∀ (tr : Trail) (more : List Word), (∀ k t m, i = .leaf k t m → ∀ w ∈ more.head?,
      ¬ Word.Misread tr ⟨k.tokenKind, t, m.newline⟩ w) → Word.Legible (i.trail tr) more →
      Word.Legible tr (words i ++ more)
  | .leaf k t m, _, h, _, _ => by
    intro tr more hmisread hmore
    rw [trail_leaf h.1] at hmore
    exact ⟨by cases k <;> simp [Piece.Kind.tokenKind], hmisread k t m rfl, hmore⟩
  | .group b items m c, _, h, hkept, hblocks => by
    intro tr more _ hmore
    rw [words, List.cons_append, List.append_assoc,
      Word.legible_cons_of_isClosed (by cases b <;> rfl) (by cases b <;> simp [Bracket.openKind])]
    refine legible_wordsAll h hkept hblocks _ (fun w hw => ?_) fun tr' => ?_
    · obtain rfl := Option.some.inj hw
      cases b <;> rfl
    · exact (Word.legible_cons_of_isClosed (by cases b <;> rfl)
        (by cases b <;> simp [Bracket.closeKind])).2 hmore
  | .template q [] m, _, _, _, _ => by
    intro tr more _ hmore
    exact (Word.legible_cons_of_isClosed rfl (by simp [Word.quasi])).2 hmore
  | .template q (part :: rest) m, _, h, hkept, hblocks => by
    intro tr more _ hmore
    refine (Word.legible_cons_of_isClosed rfl (by simp [Word.quasi])).2 ?_
    exact legible_wordsRest (List.cons_ne_nil part rest) h.2 hkept hblocks _ hmore
  | .block _ _ _, _, _, _, hblocks => by cases hblocks

theorem legible_wordsAll : ∀ {items : List Item} {l : Left} {tr : Trail}, FitsAll l items →
    keepsAll legible tr items = true → outerBlocksAll items = [] → ∀ more : List Word,
    (∀ w ∈ more.head?, w.kind.isInert = true) → (∀ tr', Word.Legible tr' more) →
    Word.Legible tr (wordsAll items ++ more)
  | [], _, _, _, _, _ => by
    intro more _ hmore
    exact hmore _
  | i :: r, _, tr, h, hkept, hblocks => by
    intro more hend hmore
    simp only [keepsAll, Bool.and_eq_true] at hkept
    obtain ⟨⟨hi, hallows⟩, hr⟩ := hkept
    obtain ⟨hiblocks, hrblocks⟩ := List.append_eq_nil_iff.1 hblocks
    rw [wordsAll, List.append_assoc]
    refine legible_words h.1 hi hiblocks tr _ ?_ (legible_wordsAll h.2 hr hrblocks more hend hmore)
    rintro k t m rfl w hw
    cases r with
    | nil => exact Word.not_misread_of_isInert (hend w hw)
    | cons j r =>
      rw [wordsAll, List.append_assoc, head?_words] at hw
      exact not_misread_head h.1.1 h.2.1 hallows hw

theorem legible_wordsRest : ∀ {rest : List (List Item × Text)}, rest ≠ [] → FitsRest rest →
    keepsRest legible rest = true → outerBlocksRest rest = [] → ∀ more : List Word,
    Word.Legible {} more → Word.Legible {} (wordsRest rest ++ more)
  | [], h, _, _, _ => (h rfl).elim
  | (items, q) :: r, _, h, hkept, hblocks => by
    intro more hmore
    simp only [keepsRest, Bool.and_eq_true] at hkept
    obtain ⟨hitems, hrblocks⟩ := List.append_eq_nil_iff.1 hblocks
    obtain ⟨hfits, -, hrfits⟩ := fitsRest_cons.1 h
    rw [wordsRest, List.append_assoc]
    refine legible_wordsAll hfits hkept.1 hitems _ (fun w hw => ?_) fun tr' => ?_
    · obtain rfl := Option.some.inj hw
      cases r <;> rfl
    · refine (Word.legible_cons_of_isClosed (by cases r <;> rfl)
        (by cases r <;> simp [Word.chunk])).2 ?_
      cases r with
      | nil => exact hmore
      | cons next r =>
        exact legible_wordsRest (List.cons_ne_nil next r) hrfits hkept.2 hrblocks more hmore
end

/-- legible code without blocks is cut into its words when it is printed, but for words that are
gathered -/
theorem cuts_legible (hfits : FitsAll .start items) (hkept : keepsAll legible {} items = true)
    (hblocks : outerBlocksAll items = []) : ∃ ls, Lexeme.textOf ls = print items ∧
    Lexeme.Cuts {} ls [] ∧
      Regroups false {} {} (wordsAll (beginning items)) (Lexeme.words none ls) := by
  have hfits' : FitsAll .start (beginning items) := fitsAll_beginning.2 hfits
  have hprint : print (beginning items) = print items := (alike_beginning items).print_eq
  have hprints := prints_wordsAll hfits' 0 0
  have hlegal : Token.Context.Legal {} (wordsAll (beginning items)) :=
    (legal_spellsAll (spellsAll_words hfits')).2 hfits'
  have hlegible : Word.Legible {} (wordsAll (beginning items)) := by
    have := legible_wordsAll hfits' ((keepsAll_beginning lawful_legible items).trans hkept)
      (outerBlocksAll_beginning hblocks) [] (by simp) fun _ => trivial
    rwa [List.append_nil] at this
  have hbegin : ∀ w ∈ (wordsAll (beginning items)).head?, w.newline = false := by
    rw [wordsAll_beginning]
    cases wordsAll items with
    | nil => simp [Word.beginning]
    | cons w ws => simp [Word.beginning]
  rw [← hprint, print]
  generalize piecesFrom 0 0 (beginning items) = ps at hprints
  generalize wordsAll (beginning items) = ws at *
  cases hprints with
  | nil => exact ⟨[], rfl, trivial, .nil⟩
  | @cons p w ps ws hp hps =>
    have hgathers : Gathers [] {} w :=
      ⟨by simp, fun _ _ => rfl, fun h => absurd rfl h, fun h => absurd rfl h⟩
    have hechoes : Echoes {} {} {} {} [] (some w) :=
      ⟨rfl, rfl, rfl, fun _ => rfl, fun _ => .inl rfl, fun _ h => h⟩
    obtain ⟨l, ls, htext, hcuts, -, -, hregroups⟩ :=
      Piece.cuts_legible_cons hps none hp hlegal hlegible hgathers
        hechoes fun _ => (hbegin w rfl).symm
    exact ⟨l :: ls, htext, hcuts, hregroups⟩

/-! ## the items that are read -/

end Item

namespace Word

variable {w : Word}

theorem isGathered_of_isClosed (h : w.kind.isClosed = true) (hnumber : w.kind ≠ .number) :
    w.isGathered = false := by
  simp [isGathered, isLoose, (Token.Kind.ne_of_isClosed h).2.1, hnumber]

/-- a scrap is none of the words of a declaration -/
theorem IsScrap.text_ne (h : w.IsScrap) :
    ∀ t ∈ ["export", "*", "as", "import", "from"].map Text.ofString, w.text ≠ t := by
  have hforeign : ∀ t ∈ ["export", "*", "as", "import", "from"].map Text.ofString,
      ∃ c ∈ t, Lexical.isLoose c = false ∧ Lexical.isNumeric c = false := by decide
  rintro t ht rfl
  obtain ⟨c, hc, hloose, hnumeric⟩ := hforeign _ ht
  rcases h.chars c hc with hc | hc
  · rw [hloose] at hc
    cases hc
  · rw [hnumeric] at hc
    cases hc

end Word

/-- a bracket or a part of a template is read as it is -/
theorem Regroups.eq_keep {pending : Bool} {tr tr' : Trail} {w : Word} {ws out : List Word}
    (h : Regroups pending tr tr' (w :: ws) out) (hw : w.kind.isClosed = true)
    (hnumber : w.kind ≠ .number) : pending = false ∧ ∃ out', out = w :: out' ∧
    Regroups false {} {} ws out' := by
  have hnot := Word.isGathered_of_isClosed hw hnumber
  cases h with
  | keep _ h =>
    have hpunct := (Token.Kind.ne_of_isClosed hw).2.1
    rw [Trail.behind_of_not_punct hpunct, Trail.behind_of_not_punct hpunct] at h
    exact ⟨rfl, _, rfl, h⟩
  | gather hgathered => rw [hgathered] at hnot; cases hnot
  | cut hgathered => rw [hgathered] at hnot; cases hnot

namespace Item

variable {i : Item} {items : List Item}

theorem allows_of_not_export (h : i.isName "export" = false) (tr : Trail) (r : List Item) :
    allows claimedOnce tr i r = true := by
  rw [allows_iff]
  intro window hwindow
  obtain rfl := List.mem_singleton.1 hwindow
  simp [reclaim, windowIf, h]

/-- an item that is no part of a declaration -/
structure IsPassed (i : Item) : Prop where
  head : i.isName "export" = false
  tests : ∀ test ∈ reclaimTests, test i = false
  keeps : i.keeps claimedOnce = true
  blocks : outerBlocks i = []

/-- a scrap is read as an item that is no part of a declaration -/
theorem exists_of_isScrap {w : Word} (h : w.IsScrap) : ∃ i : Item, Spells i [w] ∧ IsPassed i ∧
    ∀ tr, i.trail tr = tr.behind w := by
  obtain ⟨kind, text, newline⟩ := w
  have hne := h.text_ne
  obtain ⟨hkind, -⟩ := h
  simp only [List.map_cons, List.map_nil, List.mem_cons, List.not_mem_nil, or_false,
    forall_eq_or_imp, forall_eq] at hne
  rcases hkind with rfl | rfl | rfl
  · refine ⟨.leaf .punct text ⟨none, newline⟩, ⟨rfl, rfl⟩, ⟨rfl, ?_, rfl, rfl⟩, fun tr => rfl⟩
    simp [reclaimTests, isPunct, isName, isLocalString, stringText?, hne]
  · refine ⟨.leaf .number text ⟨none, newline⟩, ⟨rfl, rfl⟩, ⟨rfl, ?_, rfl, rfl⟩,
      fun tr => (Trail.behind_of_not_punct (by simp) tr).symm⟩
    simp [reclaimTests, isPunct, isName, isLocalString, stringText?]
  · refine ⟨.leaf .name text ⟨none, newline⟩, ⟨rfl, rfl⟩, ⟨?_, ?_, rfl, rfl⟩,
      fun tr => (Trail.behind_of_not_punct (by simp) tr).symm⟩
    · simp [isName, hne]
    · simp [reclaimTests, isPunct, isName, isLocalString, stringText?, hne]

theorem exists_of_scraps {scraps : List Word} (h : ∀ s ∈ scraps, s.IsScrap) :
    ∃ items, SpellsAll items scraps ∧ outerBlocksAll items = [] ∧ (∀ i ∈ items, IsPassed i) ∧
    ∀ tr r, keepsAll claimedOnce (tr.behindAll scraps) r = true →
      keepsAll claimedOnce tr (items ++ r) = true := by
  induction scraps with
  | nil => exact ⟨[], rfl, rfl, by simp, fun _ _ h => h⟩
  | cons w scraps ih =>
    obtain ⟨hw, hscraps⟩ := List.forall_mem_cons.1 h
    obtain ⟨i, hspells, hpassed, htrail⟩ := exists_of_isScrap hw
    obtain ⟨items, hspellsAll, hblocks, hall, hkept⟩ := ih hscraps
    refine ⟨i :: items, ⟨[w], scraps, hspells, hspellsAll, rfl⟩, ?_,
      List.forall_mem_cons.2 ⟨hpassed, hall⟩, fun tr r hr => ?_⟩
    · rw [outerBlocksAll, hpassed.blocks, hblocks, List.append_nil]
    · rw [List.cons_append, keepsAll, hpassed.keeps, allows_of_not_export hpassed.head, htrail,
        hkept (tr.behind w) r hr]
      rfl

/-- The items that are read for the items of legible code: what of a declaration stands among them
stood there before.  Where words are gathered that are still to be cut, nothing does. -/
structure Rereads (pending : Bool) (tr' : Trail) (items items' : List Item) : Prop where
  blocks : outerBlocksAll items' = []
  kept : keepsAll claimedOnce tr' items' = true
  tests : ∀ tests : List (Item → Bool), (∀ test ∈ tests, test ∈ reclaimTests) →
    startsWith tests items' = true → tests = [] ∨ pending = false ∧ startsWith tests items = true

theorem rereads_nil {tr' : Trail} : Rereads false tr' [] [] :=
  ⟨rfl, rfl, fun _ _ h => .inr ⟨rfl, h⟩⟩

variable {r r' : List Item} {j : Item} {tr tr' : Trail}

/-- an item is read as one with the same face -/
theorem Rereads.cons (h : Rereads false (j.trail tr') r r') (hface : j.face = i.face)
    (hblocks : outerBlocks j = []) (hkeeps : j.keeps claimedOnce = true)
    (hallows : allows claimedOnce tr' j r' = true) : Rereads false tr' (i :: r) (j :: r') where
  blocks := by rw [outerBlocksAll, hblocks, h.blocks, List.append_nil]
  kept := by rw [keepsAll, hkeeps, hallows, h.kept]; rfl
  tests tests htests hstarts := by
    cases tests with
    | nil => exact .inl rfl
    | cons test tests =>
      obtain ⟨htest, htests⟩ := List.forall_mem_cons.1 htests
      have hsame : test j = test i := by
        rw [← reclaimTests_face test htest, hface, reclaimTests_face test htest]
      obtain ⟨hj, hr'⟩ := Bool.and_eq_true_iff.1 hstarts
      have hr : startsWith tests r = true := by
        rcases h.tests tests htests hr' with rfl | ⟨-, hr⟩
        · rfl
        · exact hr
      exact .inr ⟨rfl, Bool.and_eq_true_iff.2 ⟨hsame ▸ hj, hr⟩⟩

/-- a legible item may stand before what is read behind it -/
theorem Rereads.allows (h : Rereads false (i.trail tr') r r')
    (hallows : allows legible tr i r = true) (hmember : tr.member = true → tr'.dot = true) :
    allows claimedOnce tr' i r' = true := by
  rw [allows_iff] at hallows ⊢
  intro window hwindow
  obtain rfl := List.mem_singleton.1 hwindow
  have hreclaim := hallows (reclaim Trail.member) (by simp [legible])
  cases hexport : i.isName "export" with
  | false => simp [reclaim, windowIf, hexport]
  | true =>
    cases hdot : tr'.dot with
    | true => simp [reclaim, windowIf, hdot]
    | false =>
      have hmember : tr.member = false := by
        by_contra hcon
        rw [hmember (by simpa using hcon)] at hdot
        cases hdot
      simp only [reclaim, windowIf, hexport, hmember, hdot, Bool.not_false, Bool.and_self, if_true]
        at hreclaim ⊢
      by_contra hstarts
      rw [Bool.not_eq_false] at hstarts
      rcases h.tests _ (fun _ => id) hstarts with hnil | ⟨-, hr⟩
      · cases hnil
      · rw [hr] at hreclaim
        cases hreclaim

/-- behind scraps -/
theorem Rereads.cut {scraps : List Word} (h : Rereads false (tr'.behindAll scraps) r r')
    (hne : scraps ≠ []) (hscraps : ∀ s ∈ scraps, s.IsScrap) (pending : Bool) (i : Item) :
    ∃ items, SpellsAll items scraps ∧
      Rereads pending tr' (i :: r) (items ++ r') := by
  obtain ⟨items, hspells, hblocks, hpassed, hkept⟩ := exists_of_scraps hscraps
  refine ⟨items, hspells, ?_, hkept tr' r' h.kept, fun tests htests hstarts => ?_⟩
  · rw [outerBlocksAll_append, hblocks, h.blocks, List.append_nil]
  · cases tests with
    | nil => exact .inl rfl
    | cons test tests =>
      cases items with
      | nil => exact absurd hspells hne
      | cons s items =>
        rw [List.cons_append, startsWith, (hpassed s (by simp)).tests test (htests test (by simp))]
          at hstarts
        cases hstarts

theorem Rereads.gather (h : Rereads true tr' r r') (pending : Bool) (i : Item) :
    Rereads pending tr' (i :: r) r' :=
  ⟨h.blocks, h.kept, fun tests htests hstarts =>
    .inl ((h.tests tests htests hstarts).resolve_right fun h => by cases h.1)⟩

/-- Up to a word that is not gathered, the words of the items are read as items that are `Rereads` of
them. -/
def Rereadable (tr : Trail) (items : List Item) : Prop :=
  ∀ ⦃ws more out : List Word⦄ ⦃pending : Bool⦄ ⦃tr' : Trail⦄, SpellsAll items ws →
    (∀ w ∈ more.head?, w.isGathered = false) → Regroups pending tr tr' (ws ++ more) out →
    ∃ items' ws' out' tr₁ tr₁', out = ws' ++ out' ∧ SpellsAll items' ws' ∧
      Rereads pending tr' items items' ∧ Regroups false tr₁ tr₁' more out'

theorem rereadable_nil : Rereadable tr [] := by
  rintro ws more out pending tr' rfl hmore h
  have hpending : pending = false := by
    cases h with
    | nil => rfl
    | keep => rfl
    | gather hw => rw [hmore _ rfl] at hw; cases hw
    | cut hw => rw [hmore _ rfl] at hw; cases hw
  subst hpending
  exact ⟨[], [], out, tr, tr', rfl, rfl, rereads_nil, h⟩

/-- a leaf is read as it is, or gathered, or cut with what is gathered before it -/
theorem Rereadable.leaf {k : Piece.Kind} {t : Text} {m : Mark}
    (h : Rereadable (trail tr (.leaf k t m)) r) (hallows : allows legible tr (.leaf k t m) r = true) :
    Rereadable tr (.leaf k t m :: r) := by
  rintro ws more out pending tr' ⟨first, ws, ⟨hk, rfl⟩, hspells, rfl⟩ hmore hregroups
  have htrail : ∀ tr : Trail, trail tr (.leaf k t m) = tr.behind ⟨k.tokenKind, t, m.newline⟩ :=
    fun _ => trail_leaf hk t m
  rw [List.append_assoc] at hregroups
  cases hregroups with
  | keep hmember hregroups =>
    rw [← htrail] at hregroups
    obtain ⟨r', ws', out, tr₁, tr₁', rfl, hspells', hrereads, hend⟩ := h hspells hmore hregroups
    rw [← htrail] at hrereads
    exact ⟨.leaf k t m :: r', _ :: ws', out, tr₁, tr₁', rfl, ⟨_, ws', ⟨hk, rfl⟩, hspells', rfl⟩,
      hrereads.cons rfl rfl rfl (hrereads.allows hallows hmember), hend⟩
  | gather hw hregroups =>
    rw [← htrail] at hregroups
    obtain ⟨r', ws', out, tr₁, tr₁', rfl, hspells', hrereads, hend⟩ := h hspells hmore hregroups
    exact ⟨r', ws', out, tr₁, tr₁', rfl, hspells', hrereads.gather pending _, hend⟩
  | cut hw hne hscraps hregroups =>
    rw [← htrail] at hregroups
    obtain ⟨r', ws', out, tr₁, tr₁', rfl, hspells', hrereads, hend⟩ := h hspells hmore hregroups
    obtain ⟨items, hitems, hcut⟩ := hrereads.cut hne hscraps pending (.leaf k t m)
    exact ⟨items ++ r', _, out, tr₁, tr₁', (List.append_assoc _ _ _).symm,
      hitems.append hspells', hcut, hend⟩

/-- The words of the item are read as an item with the same face, and nothing is gathered before
them. -/
def Regroupable (i : Item) : Prop :=
  ∀ ⦃ws more out : List Word⦄ ⦃pending : Bool⦄ ⦃tr tr' : Trail⦄, Spells i ws →
    Regroups pending tr tr' (ws ++ more) out →
    pending = false ∧ ∃ j ws' out', out = ws' ++ out' ∧ Spells j ws' ∧ j.face = i.face ∧
      outerBlocks j = [] ∧ j.keeps claimedOnce = true ∧ Regroups false {} {} more out'

theorem Rereadable.cons (h : Rereadable {} r) (hi : Regroupable i)
    (hexport : i.isName "export" = false) (htrail : ∀ tr, i.trail tr = {}) :
    Rereadable tr (i :: r) := by
  rintro ws more out pending tr' ⟨first, ws, hfirst, hspells, rfl⟩ hmore hregroups
  rw [List.append_assoc] at hregroups
  obtain ⟨rfl, j, first', out, rfl, hfirst', hface, hblocks, hkept, hregroups⟩ :=
    hi hfirst hregroups
  obtain ⟨r', ws', out, tr₁, tr₁', rfl, hspells', hrereads, hend⟩ := h hspells hmore hregroups
  have hjexport : j.isName "export" = false := by rw [← isName_face, hface, isName_face, hexport]
  have hjtrail : j.trail tr' = {} := by rw [← trail_face, hface, trail_face, htrail]
  exact ⟨j :: r', first' ++ ws', out, tr₁, tr₁', (List.append_assoc _ _ _).symm,
    ⟨first', ws', hfirst', hspells', rfl⟩,
    Rereads.cons (hjtrail ▸ hrereads) hface hblocks hkept (allows_of_not_export hjexport tr' r'),
    hend⟩

mutual
/-- an item that is more than a leaf is read as one of its kind -/
theorem regroupable_of_keeps : ∀ {i : Item}, (∀ k t m, i ≠ .leaf k t m) → i.keeps legible = true →
    outerBlocks i = [] → Regroupable i
  | .leaf k t m, h, _, _ => (h k t m rfl).elim
  | .group b items m c, _, hkept, hblocks => by
    rintro ws more out pending tr tr' ⟨inner, hinner, rfl⟩ h
    rw [List.cons_append, List.append_assoc] at h
    obtain ⟨rfl, out, rfl, hinside⟩ :=
      h.eq_keep (by cases b <;> rfl) (by cases b <;> simp [Bracket.openKind])
    have hclose : ∀ w ∈ ([(⟨b.closeKind, b.closer, c⟩ : Word)] ++ more).head?,
        w.isGathered = false := by
      rintro w hw
      obtain rfl := Option.some.inj hw
      cases b <;> rfl
    obtain ⟨items', inner', out, _, _, rfl, hinner', hitems', hend⟩ :=
      rereadable_of_keepsAll hkept hblocks hinner hclose hinside
    obtain ⟨-, out, rfl, hmore⟩ :=
      hend.eq_keep (by cases b <;> rfl) (by cases b <;> simp [Bracket.closeKind])
    have hspells : Spells (.group b items' m c)
        (⟨b.openKind, b.opener, m.newline⟩ :: (inner' ++ [⟨b.closeKind, b.closer, c⟩])) :=
      ⟨inner', hinner', rfl⟩
    exact ⟨rfl, _, _, out, by simp, hspells, rfl, hitems'.blocks, hitems'.kept, hmore⟩
  | .template q rest m, _, hkept, hblocks => by
    rintro ws more out pending tr tr' ⟨inner, hinner, rfl⟩ h
    rw [List.cons_append] at h
    obtain ⟨rfl, out, rfl, hinside⟩ :=
      h.eq_keep (by cases rest <;> rfl) (by cases rest <;> simp [Word.quasi])
    obtain ⟨rest', inner', out, rfl, hinner', hempty, hblocks', hkept', hmore⟩ :=
      exists_regroupedRest hkept hblocks hinner hinside
    have hspells : Spells (.template q rest' m) (.quasi rest.isEmpty q m.newline :: inner') :=
      ⟨inner', hinner', by rw [hempty]⟩
    exact ⟨rfl, _, _, out, rfl, hspells, rfl, hblocks', hkept', hmore⟩
  | .block _ _ _, _, _, hblocks => by cases hblocks

theorem rereadable_of_keepsAll : ∀ {items : List Item} {tr : Trail},
    keepsAll legible tr items = true → outerBlocksAll items = [] → Rereadable tr items
  | [], _, _, _ => rereadable_nil
  | .leaf k t m :: r, tr, hkept, hblocks => by
    simp only [keepsAll, Bool.and_eq_true] at hkept
    exact (rereadable_of_keepsAll hkept.2 hblocks).leaf hkept.1.2
  | .group b items m c :: r, tr, hkept, hblocks => by
    simp only [keepsAll, Bool.and_eq_true] at hkept
    obtain ⟨hiblocks, hrblocks⟩ := List.append_eq_nil_iff.1 hblocks
    exact (rereadable_of_keepsAll hkept.2 hrblocks).cons
      (regroupable_of_keeps (by simp) hkept.1.1 hiblocks) rfl fun _ => rfl
  | .template q rest m :: r, tr, hkept, hblocks => by
    simp only [keepsAll, Bool.and_eq_true] at hkept
    obtain ⟨hiblocks, hrblocks⟩ := List.append_eq_nil_iff.1 hblocks
    exact (rereadable_of_keepsAll hkept.2 hrblocks).cons
      (regroupable_of_keeps (by simp) hkept.1.1 hiblocks) rfl fun _ => rfl
  | .block _ _ _ :: _, _, _, hblocks => by cases hblocks

/-- the rest of a template -/
theorem exists_regroupedRest : ∀ {rest : List (List Item × Text)}, keepsRest legible rest = true →
    outerBlocksRest rest = [] → ∀ ⦃ws more out : List Word⦄, SpellsRest rest ws →
    Regroups false {} {} (ws ++ more) out → ∃ rest' ws' out', out = ws' ++ out' ∧
    SpellsRest rest' ws' ∧ rest'.isEmpty = rest.isEmpty ∧
      outerBlocksRest rest' = [] ∧ keepsRest claimedOnce rest' = true ∧
      Regroups false {} {} more out'
  | [], _, _ => by
    rintro ws more out rfl h
    exact ⟨[], [], out, rfl, rfl, rfl, rfl, rfl, h⟩
  | (items, q) :: r, hkept, hblocks => by
    rintro ws more out ⟨inner, newline, ws, hinner, hspells, rfl⟩ h
    simp only [keepsRest, Bool.and_eq_true] at hkept
    obtain ⟨hitems, hr⟩ := List.append_eq_nil_iff.1 hblocks
    rw [List.append_assoc, List.cons_append] at h
    have hchunk : ∀ w ∈ (.chunk r.isEmpty q newline :: (ws ++ more)).head?,
        w.isGathered = false := by
      rintro w hw
      obtain rfl := Option.some.inj hw
      cases r <;> rfl
    obtain ⟨items', inner', out, _, _, rfl, hinner', hitems', hend⟩ :=
      rereadable_of_keepsAll hkept.1 hitems hinner hchunk h
    obtain ⟨-, out, rfl, hrest⟩ :=
      hend.eq_keep (by cases r <;> rfl) (by cases r <;> simp [Word.chunk])
    obtain ⟨rest', ws', out, rfl, hspells', hempty, hblocks', hkept', hmore⟩ :=
      exists_regroupedRest hkept.2 hr hspells hrest
    refine ⟨(items', q) :: rest', inner' ++ .chunk r.isEmpty q newline :: ws',
      out, by simp, ?_, rfl, ?_, ?_, hmore⟩
    · exact ⟨inner', newline, ws', hinner', hspells', by rw [hempty]⟩
    · rw [outerBlocksRest, hitems'.blocks, hblocks', List.append_nil]
    · rw [keepsRest, hitems'.kept, hkept']
      rfl
end

end Item

namespace Compile

open Item

/-- code that is settled under `legible` has a plan when it is printed, unless a literal in it has
no value -/
theorem isEscape_planOf_print {items : List Item} {e : Failure} (h : Settled legible items)
    (he : planOf (print items) = .error e) : e.IsEscape := by
  obtain ⟨ls, htext, hcuts, hregroups⟩ := cuts_legible h.fits h.kept h.blocks
  have hspells := spellsAll_words (fitsAll_beginning.2 h.fits)
  have hkept := (keepsAll_beginning lawful_legible items).trans h.kept
  rw [← List.append_nil (wordsAll _)] at hregroups
  obtain ⟨items₁, ws, out, _, _, hwords, hspells₁, hitems₁, hout⟩ :=
    rereadable_of_keepsAll hkept (outerBlocksAll_beginning h.blocks) hspells (by simp) hregroups
  obtain rfl : out = [] := by cases hout; rfl
  rw [List.append_nil] at hwords
  subst hwords
  obtain ⟨items₂, hread, hun, hspans⟩ := Program.read_of_spells hcuts hspells₁
  rw [htext] at hread
  have hplaced := placedAll_of_spansAll hspans 0 _ (Lexeme.run_marked hcuts)
  rw [htext] at hplaced
  have hblocks := outerBlocksAll_of_unplacedAll hun hitems₁.blocks
  have hkept₂ := (keepsAll_of_unplacedAll lawful_claimedOnce hun).trans hitems₁.kept
  exact isEscape_planOf hread hplaced hblocks (Split.claimsOnce_of_keepsAll (by simp [claimedOnce])
    hkept₂ hblocks) he

end Compile

end Relocation
