import Relocation.Proofs.Imported
import Relocation.Proofs.Settled

/-!
# Lowered code stands where the code stood

Where lowering gives something for a sequence that may stand at the beginning of a text and keeps a
rule, what it gives is settled (`settled_of_lower`).  This is an induction on the tree: what follows
an artifact stands behind a parenthesis and not behind a brace (`Narrows`), and no regular
expression may stand there.  With the support import in front compiled code is settled as well
(`settled_of_printed`).
-/

namespace Relocation

open Token (Left Readable)

namespace Item

variable {l l' : Left} {i : Item}

/-- behind `l'` stands what may stand behind `l`, regular expressions apart -/
structure Narrows (l l' : Left) : Prop where
  member : l'.member = l.member
  head : l'.head = l.head
  regex : l'.regex = true → l.regex = true

theorem narrows_refl (l : Left) : Narrows l l := ⟨rfl, rfl, id⟩

/-- where a block ends, a parenthesis may close as well -/
theorem narrows_closeParen (ended : Bool) :
    Narrows (.behind false .closeBrace Bracket.brace.closer)
      (.behind ended .closeParen Bracket.paren.closer) :=
  ⟨Eq.trans (b := false) rfl rfl, Eq.trans (b := false) rfl rfl, fun _ => rfl⟩

theorem Narrows.fits (h : Narrows l l') (hregex : i.isRegex = true → l' = l) (hi : Fits l i) :
    Fits l' i := by
  cases i with
  | leaf k t m =>
    obtain ⟨hk, hread, hadmits⟩ := hi
    refine ⟨hk, hread, ?_⟩
    rcases Piece.Kind.isLeaf_cases hk with rfl | rfl | rfl | rfl | rfl
    · exact hadmits
    · exact hadmits
    · exact hadmits
    · rwa [hregex rfl]
    · intro ht
      have hl := hadmits ht
      cases hr : l'.regex with
      | false => rfl
      | true => rw [h.regex hr] at hl; cases hl
  | group b items m c => exact hi
  | template q rest m => exact hi
  | block items m c => exact ⟨h.member.trans hi.1, hi.2⟩

/-- what takes the place of an item behind `l` where `l'` is what stands before it now; `cls` is the
name of the block class -/
structure Lowered (rule : Rule) (cls : Text) (l l' : Left) (i : Item) (out : List Item) : Prop where
  place : TakesPlace rule cls l' [i] out
  narrows : Narrows (i.leftAfter l) (leftAfterAll l' out)
  same : i.isBlock = false → leftAfterAll l' out = i.leftAfter l

theorem lowered_of_face {rule : Rule} {cls : Text} {j : Item}
    (hplace : TakesPlace rule cls l' [i] [j]) (hleft : j.leftAfter l' = i.leftAfter l) :
    Lowered rule cls l l' i [j] where
  place := hplace
  narrows := by
    show Narrows _ (j.leftAfter l')
    rw [hleft]
    exact narrows_refl _
  same := fun _ => hleft

/-- no regular expression stands behind a block -/
theorem not_isRegex_of_allows {rule : Rule} {tr : Trail} {r : List Item}
    (hdivision : division ∈ rule) (h : allows rule tr i r = true) :
    ∀ j ∈ r.head?, j.isRegex = true → i.isBlock = false := by
  intro j hj hregex
  obtain ⟨r, rfl⟩ := List.head?_eq_some_iff.1 hj
  have := allows_iff.1 h division hdivision
  cases hblock : i.isBlock with
  | false => rfl
  | true => simp [division, windowIf, startsWith, hblock, hregex] at this

end Item

namespace Compile

open Item

variable {rule : Rule} {options : Options} {items out : List Item} {plans : List Plan}

mutual
theorem lowered_of_lowerItem (hrule : Lawful rule) (hdivision : division ∈ rule)
    (hclass : Readable .name options.classCode) :
    ∀ {i : Item} {l l' : Left} {out : List Item} {plans : List Plan},
    Fits l i → i.keeps rule = true → Narrows l l' → (i.isRegex = true → l' = l) →
    (lowerItem options i).result = .ok (out, plans) → Lowered rule options.classCode l l' i out
  | .leaf k t m, l, l', out, plans, hfits, _, hnarrows, hregex, h => by
    obtain ⟨rfl, -⟩ := Prod.mk.inj (Except.ok.inj h)
    exact lowered_of_face (takesPlace_singleton rfl rfl (hnarrows.fits hregex hfits) rfl rfl) rfl
  | .group b items m closeNewline, l, l', out, plans, hfits, hkept, hnarrows, _, h => by
    obtain ⟨items', hitems, rfl⟩ := lowerItem_group_eq_ok.1 h
    obtain ⟨inner, hinner, hguard⟩ := guardCallsAfter_eq_ok.1 hitems
    have hplace :=
      takesPlace_of_lowerAll hrule hdivision hclass hfits hkept (narrows_refl _)
        (fun _ _ _ => rfl) hinner
    have hsettled := (hplace.settled hrule hkept).guardCalls hrule hclass hguard
    refine lowered_of_face (takesPlace_singleton rfl rfl hsettled.fits hsettled.kept
      hsettled.blocks) ?_
    rw [leftAfter, leftAfter, hnarrows.head]
  | .template q rest m, l, l', out, plans, hfits, hkept, _, _, h => by
    obtain ⟨rest', hrest, rfl⟩ := lowerItem_template_eq_ok.1 h
    obtain ⟨hempty, hrest, hrkept, hblocks⟩ :=
      fitsRest_of_lowerRest hrule hdivision hclass hfits.2 hkept hrest
    refine lowered_of_face (takesPlace_singleton rfl rfl ⟨?_, hrest⟩ hrkept hblocks) ?_
    · rw [hempty]
      exact hfits.1
    · rw [leftAfter, leftAfter, hempty]
  | .block items m closeNewline, l, l', out, plans, _, _, _, _, h => by
    obtain ⟨plan, rest, -, hrest, rfl⟩ := eq_of_lowerItem_block h
    exact
      { place := takesPlace_of_artifact hrule hclass hrest plan.first items m closeNewline
        narrows := narrows_closeParen _
        same := fun h => by cases h }

theorem takesPlace_of_lowerAll (hrule : Lawful rule) (hdivision : division ∈ rule)
    (hclass : Readable .name options.classCode) :
    ∀ {items : List Item} {l l' : Left} {tr : Trail} {out : List Item} {plans : List Plan},
    FitsAll l items → keepsAll rule tr items = true → Narrows l l' →
    (∀ i ∈ items.head?, i.isRegex = true → l' = l) →
    (lowerAll options items).result = .ok (out, plans) →
    TakesPlace rule options.classCode l' items out
  | [], _, _, _, out, plans, _, _, _, _, h => by
    obtain ⟨rfl, -⟩ := Prod.mk.inj (Except.ok.inj h)
    exact takesPlace_nil
  | i :: r, l, l', tr, out, plans, hfits, hkept, hnarrows, hregex, h => by
    obtain ⟨first, _, rest, _, hfirst, hrest, rfl, -⟩ := lowerAll_cons_eq_ok.1 h
    simp only [keepsAll, Bool.and_eq_true] at hkept
    obtain ⟨⟨hi, hallows⟩, hr⟩ := hkept
    have ho := lowered_of_lowerItem hrule hdivision hclass hfits.1 hi hnarrows (hregex i rfl) hfirst
    exact ho.place.append (takesPlace_of_lowerAll hrule hdivision hclass hfits.2 hr ho.narrows
      (fun j hj hregex => ho.same (not_isRegex_of_allows hdivision hallows j hj hregex)) hrest)

theorem fitsRest_of_lowerRest (hrule : Lawful rule) (hdivision : division ∈ rule)
    (hclass : Readable .name options.classCode) :
    ∀ {rest out : List (List Item × Text)} {plans : List Plan}, FitsRest rest →
    keepsRest rule rest = true → (lowerRest options rest).result = .ok (out, plans) →
    out.isEmpty = rest.isEmpty ∧ FitsRest out ∧ keepsRest rule out = true ∧ outerBlocksRest out = []
  | [], out, plans, _, _, h => by
    obtain ⟨rfl, -⟩ := Prod.mk.inj (Except.ok.inj h)
    exact ⟨rfl, trivial, rfl, rfl⟩
  | (items, q) :: r, out, plans, hfits, hkept, h => by
    obtain ⟨first, _, rest, _, hfirst, hrest, rfl, -⟩ := lowerRest_cons_eq_ok.1 h
    obtain ⟨hitems, hchunk, hr⟩ := fitsRest_cons.1 hfits
    simp only [keepsRest, Bool.and_eq_true] at hkept
    obtain ⟨inner, hinner, hguard⟩ := guardCallsAfter_eq_ok.1 hfirst
    have hplace :=
      takesPlace_of_lowerAll hrule hdivision hclass hitems hkept.1 (narrows_refl _)
        (fun _ _ _ => rfl) hinner
    have hsettled := (hplace.settled hrule hkept.1).guardCalls hrule hclass hguard
    obtain ⟨hempty, hrest, hrkept, hblocks⟩ :=
      fitsRest_of_lowerRest hrule hdivision hclass hr hkept.2 hrest
    refine ⟨rfl, fitsRest_cons.2 ⟨hsettled.fits, ?_, hrest⟩, ?_, ?_⟩
    · rw [hempty]
      exact hchunk
    · rw [keepsRest, hsettled.kept, hrkept]
      rfl
    · rw [outerBlocksRest, hsettled.blocks, hblocks, List.append_nil]
end

/-- what a sequence is lowered to is settled, if the sequence keeps the rule outside of blocks -/
theorem settled_of_lower (hrule : Lawful rule) (hdivision : division ∈ rule)
    (hclass : Readable .name options.classCode) (hfits : FitsAll .start items)
    (hkept : keepsAll rule {} items = true) (h : (lower options items).result = .ok (out, plans)) :
    Settled rule out := by
  obtain ⟨inner, hinner, hguard⟩ := guardCallsAfter_eq_ok.1 h
  have hplace :=
    takesPlace_of_lowerAll hrule hdivision hclass hfits hkept (narrows_refl _)
      (fun _ _ _ => rfl) hinner
  exact (hplace.settled hrule hkept).guardCalls hrule hclass hguard

/-! ## the support import -/

/-- the items of the support import, as compiled code has it by default -/
def supportItems : List Item :=
  [.name "import", .grouped .brace [.name "ModuleBlock"], .name "from",
    .leaf .string (Json.literal "/module-blocks-shim.js") {}, .punct ";"]

theorem readable_classCode : Readable .name ({} : Options).classCode :=
  readable_of_front (by decide)

theorem fits_supportItems : FitsAll .start supportItems :=
  Support.Import.fitsAll_itemsOf readable_classCode

theorem items_eq_supportItems : Support.Import.items {} = .ok supportItems :=
  Support.Import.items_eq_ok rfl rfl readable_classCode

/-- everything in the support import is quiet -/
theorem keepsAll_supportItems (hrule : Lawful rule) {r : List Item}
    (hr : keepsAll rule {} r = true) : keepsAll rule {} (supportItems ++ r) = true := by
  have hname : keepsAll rule {} [.name "ModuleBlock"] = true :=
    keepsAll_cons_of_isQuiet hrule rfl rfl rfl
  exact keepsAll_cons_of_isQuiet hrule rfl rfl (keepsAll_cons_of_isQuiet hrule rfl hname
    (keepsAll_cons_of_isQuiet hrule rfl rfl (keepsAll_cons_of_isQuiet hrule rfl rfl
      (keepsAll_cons_of_isQuiet hrule rfl rfl hr))))

/-- the support import may stand in front of every settled sequence -/
theorem settled_supported (hrule : Lawful rule) (h : Settled rule items) :
    Settled rule (supportItems ++ items.head?.elim [] fun i => i.onNewLine :: items.tail) := by
  cases items with
  | nil => exact ⟨fits_supportItems, keepsAll_supportItems hrule rfl, rfl⟩
  | cons i r =>
    refine ⟨fitsAll_append.2 ⟨fits_supportItems, ?_⟩, ?_, (outerBlocksAll_append _ _).trans ?_⟩
    · have := h.fits
      cases i <;> exact this
    · exact keepsAll_supportItems hrule ((keepsAll_onNewLine hrule i r).trans h.kept)
    · have := h.blocks
      cases i with
      | block => cases this
      | _ => exact this

/-- compiled code is the print of a settled sequence -/
theorem settled_of_printed (hrule : Lawful rule) (hsettled : Settled rule items) {t : Text}
    (h : printed {} items = .ok t) : ∃ items', t = print items' ∧ Settled rule items' := by
  rw [printed_eq, items_eq_supportItems] at h
  obtain ⟨present, -, h⟩ := Except.bind_eq_ok.1 h
  cases present with
  | true => exact ⟨items, (Except.ok.inj h).symm, hsettled⟩
  | false => exact ⟨_, (Except.ok.inj h).symm, settled_supported hrule hsettled⟩

end Compile

end Relocation
