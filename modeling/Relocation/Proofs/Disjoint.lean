import Relocation.Proofs.Arrival

/-!
# Splits do not overlap

The word `import` in `export * as import from` claims the specifier for a second time
(`Split.Reclaims`).  Where no sequence does that, no two splits overlap, and where one does, two
splits are the same (`Split.pairwise_scanFrom_iff`).  A rule that forbids it is enough
(`Split.claimsOnce_of_keepsAll`).
-/

namespace Relocation

namespace Item

variable {rule : Rule} {tr : Trail} {items seq body : List Item} {i : Item}

/-- what comes last in front of a sequence that keeps a rule is the item the sequence keeps it
behind -/
theorem keepsAll_of_prefix {a : List Item} (h : keepsAll rule tr (a ++ items) = true) :
    ∃ tr', keepsAll rule tr' items = true ∧ tr'.dot = a.getLast?.elim tr.dot (·.isMemberDot) := by
  induction a generalizing tr with
  | nil => exact ⟨tr, h, rfl⟩
  | cons i a ih =>
    simp only [List.cons_append, keepsAll, Bool.and_eq_true] at h
    obtain ⟨tr', htr', hdot⟩ := ih h.2
    refine ⟨tr', htr', hdot.trans ?_⟩
    rw [dot_trail, List.getLast?_cons]
    cases a.getLast? <;> rfl

theorem keepsAll_of_bodies (h : i.keeps rule = true) (hblocks : outerBlocks i = [])
    (hbody : body ∈ i.bodies) : keepsAll rule {} body = true ∧ outerBlocksAll body = [] := by
  cases i with
  | leaf => cases hbody
  | block => cases hblocks
  | group =>
    obtain rfl := List.mem_singleton.1 hbody
    exact ⟨h, hblocks⟩
  | template =>
    refine forall_substitutions (P := fun items => keepsAll rule {} items = true ∧
      outerBlocksAll items = [])
        (Q := fun rest => keepsRest rule rest = true ∧ outerBlocksRest rest = []) ?_
          ⟨h, hblocks⟩ body hbody
    rintro items q r ⟨hkept, hblocks⟩
    simp only [keepsRest, Bool.and_eq_true] at hkept
    obtain ⟨hitems, hr⟩ := List.append_eq_nil_iff.1 hblocks
    exact ⟨⟨hkept.1, hitems⟩, hkept.2, hr⟩

/-- what stands inside of a sequence without blocks keeps the rule that the sequence keeps -/
theorem Encloses.keepsAll {hidden : List Item → Item → Prop} (h : Encloses hidden items seq)
    (hkept : keepsAll rule {} items = true) (hblocks : outerBlocksAll items = []) :
    Item.keepsAll rule {} seq = true := by
  induction h with
  | self => exact hkept
  | inside _ hbody _ ih =>
    obtain ⟨tr, hi, -⟩ := keepsAll_of_prefix hkept
    simp only [Item.keepsAll, Bool.and_eq_true] at hi
    rw [outerBlocksAll_append, outerBlocksAll] at hblocks
    obtain ⟨-, hblocks⟩ := List.append_eq_nil_iff.1 hblocks
    obtain ⟨hkept, hblocks⟩ := keepsAll_of_bodies hi.1.1 (List.append_eq_nil_iff.1 hblocks).1 hbody
    exact ih hkept hblocks

end Item

namespace Split

open Item (Encloses Placed PlacedAll PlacedRest placed_le placedAll_le placedRest_le)

variable {ahead items r : List Item} {i s : Item} {lo hi : Nat} {found : List Split}

/-- somewhere in the items stands `export * as import from` before a local path -/
def Reclaims (items : List Item) : Prop :=
  ∃ before i r, items = before ++ i :: r ∧ before.getLast?.any (·.isMemberDot) = false ∧
    i.isName "export" = true ∧ Item.startsWith Item.reclaimTests r = true

/-- no sequence that scanning comes to claims a specifier twice -/
def ClaimsOnce (items : List Item) : Prop := ∀ seq, Encloses IsBracketMember items seq →
    ¬ Reclaims seq

/-- no specifier is claimed twice where a rule forbids that -/
theorem claimsOnce_of_keepsAll {rule : Item.Rule} (hreclaim : Item.reclaim Trail.dot ∈ rule)
    (hkept : Item.keepsAll rule {} items = true) (hblocks : Item.outerBlocksAll items = []) :
    ClaimsOnce items := by
  rintro seq hseq ⟨before, i, r, rfl, hdot, hexport, htests⟩
  obtain ⟨tr, hi, htr⟩ := Item.keepsAll_of_prefix (hseq.keepsAll hkept hblocks)
  simp only [Item.keepsAll, Bool.and_eq_true] at hi
  have hstarts := Item.allows_iff.1 hi.1.2 _ hreclaim
  have htrdot : tr.dot = false := by
    rw [htr]
    cases hlast : before.getLast? with
    | none => rfl
    | some j => simpa [hlast] using hdot
  rw [Item.reclaim, Item.windowIf, hexport, htrdot] at hstarts
  rw [show Item.startsWith (if (true && !false) = true then Item.reclaimTests else Item.never) r =
    true from htests]
      at hstarts
  cases hstarts

/-- at an item that scanning comes to, what is claimed is claimed by nothing else -/
theorem ClaimsOnce.claims (h : ClaimsOnce (ahead ++ i :: r)) :
    (!(ahead.getLast?.any (·.isMemberDot)) && i.isName "export" &&
      Item.startsWith Item.reclaimTests r) = false := by
  by_contra hreclaims
  simp only [Bool.not_eq_false, Bool.and_eq_true, Bool.not_eq_true'] at hreclaims
  exact h _ (.self _) ⟨ahead, i, r, rfl, hreclaims.1.1, hreclaims.1.2, hreclaims.2⟩

theorem ClaimsOnce.inside {body : List Item} (h : ClaimsOnce (ahead ++ i :: r))
    (hi : ¬ IsBracketMember ahead i) (hbody : body ∈ i.bodies) : ClaimsOnce body :=
  fun _ hseq => h _ (.inside hi hbody hseq)

/-! ## no overlaps -/

mutual
/-- the splits of a sequence do not overlap where every specifier is claimed once; `ahead` is what
comes before it -/
theorem pairwise_scanFrom :
    ∀ (ahead : List Item) {items : List Item} {lo hi : Nat} {afterDot : Bool} (skip : Nat),
    PlacedAll lo hi (items.drop skip) → arrival false 0 ahead items = (afterDot, skip) →
    ClaimsOnce (ahead ++ items) → ∀ splits : List Split, scanFrom afterDot skip items = .ok splits →
    splits.Pairwise Apart
  | _, [], _, _, _, _, _, _, _ => by
    intro splits h
    rw [scanFrom] at h
    obtain rfl := Except.ok.inj h
    exact .nil
  | ahead, i :: r, lo, hi, afterDot, skip + 1, hp, hstate, honce => by
    intro splits h
    rw [scanFrom] at h
    have hnext : arrival false 0 (ahead ++ [i]) r = (false, skip) := by
      rw [arrival_append, List.singleton_append, hstate]
      rfl
    exact pairwise_scanFrom (ahead ++ [i]) skip hp hnext (by simpa using honce) splits h
  | ahead, i :: r, lo, hi, afterDot, 0, hp, hstate, honce => by
    intro splits h
    have honce' : ClaimsOnce ((ahead ++ [i]) ++ r) := by simpa using honce
    have hnext : arrival false 0 (ahead ++ [i]) r = arrival afterDot 0 [i] r := by
      rw [arrival_append, List.singleton_append, hstate]
    have ih : ∀ {lo : Nat} {afterDot : Bool} (skip : Nat), PlacedAll lo hi (r.drop skip) →
        arrival false 0 (ahead ++ [i]) r = (afterDot, skip) → ∀ splits : List Split,
        scanFrom afterDot skip r = .ok splits → splits.Pairwise Apart :=
      fun skip hp hstate => pairwise_scanFrom (ahead ++ [i]) skip hp hstate honce'
    obtain ⟨mid, hfirst, hr⟩ := hp
    rcases scanFrom_cases h with ⟨n, last, rest, hmeta, hrest, rfl⟩ |
      ⟨own, inner, rest, hmeta, hown, hinner, hrest, rfl⟩
    · obtain ⟨-, init, hr', -, -⟩ := metaMember?_eq_some (metaAt?_eq_some hmeta).2
      rw [hr'] at hr
      obtain ⟨stop, -, hdrop, hbetween⟩ := within_between hfirst hr
      refine List.pairwise_append.2 ⟨pairwise_between, ih n hdrop ?_ rest hrest, ?_⟩
      · rw [hnext, arrival, List.nil_append, hmeta]
        rfl
      · intro t ht t' ht'
        exact apart_of_within (hbetween t ht) (within_scanFrom n hdrop false rest hrest t' ht')
    · have hinside := within_scanInside hfirst inner hinner
      have hbehind := within_scanFrom 0 hr _ rest hrest
      have hpairs : (inner ++ rest).Pairwise Apart := by
        refine List.pairwise_append.2 ⟨pairwise_scanInside hfirst (fun body hbody =>
          honce.inside ?_ hbody) inner hinner, ih 0 hr ?_ rest hrest, ?_⟩
        · rw [← arrival_eq_zero_iff (r := r) hbody, hstate]
        · rw [hnext, arrival, List.nil_append, hmeta]
          rfl
        · intro t ht t' ht'
          exact apart_of_within (hinside t ht) (hbehind t' ht')
      rw [List.append_assoc]
      rcases claimed_eq_ok hown with rfl | ⟨s, pre, post, hr', rfl, hs, hclaims⟩
      · exact hpairs
      · subst hr'
        have hdot : afterDot = ahead.getLast?.any (·.isMemberDot) := by
          have hunder := under_arrival ahead (i :: (pre ++ s :: post))
          rw [hstate] at hunder
          cases hunder
          rfl
        obtain ⟨start, stop, hpre, hplace, hpost⟩ := Item.exists_placed_of_middle hr
        have houtside :=
          apart_of_scanFrom hs hplace hpost hpre (hclaims (hdot ▸ honce.claims)) (Nat.zero_le _)
            _ rest hrest
        have hle := placedAll_le hpre
        refine List.pairwise_append.2 ⟨pairwise_between, hpairs, ?_⟩
        intro t ht t' ht'
        have ht := within_between_self hplace t ht
        rcases List.mem_append.1 ht' with ht' | ht'
        · exact (apart_of_within ((hinside t' ht').mono (Nat.le_refl lo) hle) ht).symm
        · rcases houtside t' ht' with h' | h'
          · exact (apart_of_within h' ht).symm
          · exact apart_of_within ht h'

theorem pairwise_scanInside : ∀ {i : Item} {lo hi : Nat}, Placed lo hi i →
    (∀ body ∈ i.bodies, ClaimsOnce body) → ∀ splits : List Split, scanInside i = .ok splits →
    splits.Pairwise Apart
  | .leaf _ _ _, _, _, _, _ => by
    intro splits h
    rw [scanInside] at h
    obtain rfl := Except.ok.inj h
    exact .nil
  | .group _ _ _ _, _, _, hp, honce => by
    intro splits h
    obtain ⟨range, -, -, -, -, hp⟩ := hp
    rw [scanInside] at h
    exact pairwise_scanFrom [] 0 hp rfl (honce _ (List.mem_singleton_self _)) splits h
  | .template _ _ _, _, _, hp, honce => by
    intro splits h
    obtain ⟨range, -, -, -, -, hp⟩ := hp
    rw [scanInside] at h
    exact pairwise_scanRest hp honce splits h
  | .block _ _ _, _, _, _, _ => by
    intro splits h
    rw [scanInside] at h
    cases h

theorem pairwise_scanRest : ∀ {rest : List (List Item × Text)} {lo hi : Nat},
    PlacedRest lo hi rest → (∀ body ∈ rest.map (·.1), ClaimsOnce body) → ∀ splits : List Split,
    scanRest rest = .ok splits → splits.Pairwise Apart
  | [], _, _, _, _ => by
    intro splits h
    rw [scanRest] at h
    obtain rfl := Except.ok.inj h
    exact .nil
  | (items, _) :: r, lo, hi, hp, honce => by
    intro splits h
    obtain ⟨honce, honces⟩ := List.forall_mem_cons.1 honce
    obtain ⟨mid, hitems, hr⟩ := hp
    obtain ⟨first, more, hfirst, hmore, rfl⟩ := scanRest_cons_eq_ok.1 h
    refine List.pairwise_append.2 ⟨pairwise_scanFrom [] 0 hitems rfl honce first hfirst,
      pairwise_scanRest hr honces more hmore, ?_⟩
    intro t ht t' ht'
    exact apart_of_within (within_scanFrom 0 hitems false first hfirst t ht)
      (within_scanRest hr more hmore t' ht')
end

/-! ## a specifier that is claimed twice -/

theorem exists_of_reclaimTests (h : Item.startsWith Item.reclaimTests r = true) :
    ∃ star as word clause s post, r = star :: as :: word :: clause :: s :: post ∧
    star.isPunct "*" = true ∧ as.isName "as" = true ∧
      word.isName "import" = true ∧ clause.isName "from" = true ∧ s.isLocalString = true := by
  match r with
  | [] | [_] | [_, _] | [_, _, _] | [_, _, _, _] => simp [Item.reclaimTests, Item.startsWith] at h
  | star :: as :: word :: clause :: s :: post =>
    simp only [Item.reclaimTests, Item.startsWith, Bool.and_eq_true, Bool.and_true] at h
    exact ⟨star, as, word, clause, s, post, rfl, h⟩

theorem ofSpecifier_of_isLocalString (h : s.isLocalString = true) :
    ofSpecifier s = .ok (between .staticImport s s) := by
  unfold Item.isLocalString at h
  unfold ofSpecifier
  cases htext : s.stringText? with
  | none => simp [htext] at h
  | some text =>
    rw [htext] at h
    cases hvalue : Literal.value text with
    | error e => simp [hvalue, Except.toOption] at h
    | ok value =>
      have hlocal : isLocalPath value = true := by simpa [hvalue, Except.toOption] using h
      simp [bind, Except.bind, pure, Except.pure, hvalue, hlocal]

theorem isString_of_isLocalString (h : s.isLocalString = true) : s.isString = true := by
  unfold Item.isLocalString at h
  unfold Item.isString
  cases htext : s.stringText? with
  | none => simp [htext] at h
  | some text => rfl

theorem metaAt?_of_not_dot {j : Item} {afterDot : Bool} (h : j.isPunct "." = false) :
    metaAt? afterDot i (j :: r) = none := by
  unfold metaAt? metaMember?
  split
  · split
    · rename_i heq
      obtain ⟨rfl, -⟩ := List.cons.inj heq
      simp [h]
    · rfl
  · rfl

theorem importedFrom?_of_name (h : i.isAnyName = true) :
    importedFrom? (i :: r) = fromClause? (i :: r) := by
  obtain ⟨t, m, rfl⟩ := Item.exists_of_isAnyName h
  rfl

theorem leadingFrom?_from (hi : i.isName "from" = true) (hs : s.isString = true) :
    leadingFrom? (i :: s :: r) = some s := by
  rw [leadingFrom?, if_pos hi, leadingString?, if_pos hs]

theorem fromClause?_from (hi : i.isName "from" = true) (hs : s.isString = true) :
    fromClause? (i :: s :: r) = some s := by
  obtain ⟨m, rfl⟩ := Item.exists_of_isName hi
  exact if_pos hs

/-- what a keyword claims is among what is found from there on -/
theorem sublist_of_specifier? (h : scanFrom false 0 (i :: r) = .ok found)
    (hmeta : metaAt? false i r = none) (hspec : specifier? i r = some s)
    (hlocal : s.isLocalString = true) : ∃ behind, scanFrom i.isMemberDot 0 r = .ok behind ∧
    (between .staticImport s s ++ behind).Sublist found := by
  rcases scanFrom_cases h with ⟨n, last, rest, hsome, -⟩ |
    ⟨own, inner, rest, -, hown, -, hrest, rfl⟩
  · rw [hmeta] at hsome
    cases hsome
  · unfold claimed at hown
    simp only [Bool.false_eq_true, if_false, hspec, ofSpecifier_of_isLocalString hlocal] at hown
    obtain rfl := Except.ok.inj hown
    exact ⟨rest, hrest, (List.sublist_append_left _ _).append (List.Sublist.refl _)⟩

/-- the specifier that is claimed twice is found twice -/
theorem sublist_of_reclaims (h : scanFrom false 0 (i :: r) = .ok found)
    (hexport : i.isName "export" = true) (htests : Item.startsWith Item.reclaimTests r = true) :
    ∃ pre s post, r = pre ++ s :: post ∧
      (between .staticImport s s ++ between .staticImport s s).Sublist found := by
  obtain ⟨star, as, word, clause, s, post, rfl, hstar, has, hword, hclause, hlocal⟩ :=
    exists_of_reclaimTests htests
  have hstring := isString_of_isLocalString hlocal
  have hfirst : specifier? i (star :: as :: word :: clause :: s :: post) = some s := by
    obtain ⟨m, rfl⟩ := Item.exists_of_isName hexport
    simp only [specifier?, reexportedFrom?, hstar, has, hexport, if_true, List.drop_one,
      List.tail_cons, leadingFrom?_from hclause hstring]
    rfl
  have hsecond : specifier? word (clause :: s :: post) = some s := by
    obtain ⟨m, rfl⟩ := Item.exists_of_isName hclause
    rw [specifier?, if_pos hword, importedFrom?_of_name rfl, fromClause?_from hclause hstring]
  have hexport' : i.isName "import" = false := by
    obtain ⟨m, rfl⟩ := Item.exists_of_isName hexport
    rfl
  obtain ⟨behind, hbehind, hsub⟩ :=
    sublist_of_specifier? h (metaAt?_of_not_import hexport') hfirst hlocal
  rw [show i.isMemberDot = false by simp [Item.isMemberDot, Item.isPunct_of_isName hexport],
    show star :: as :: word :: clause :: s :: post = [star, as] ++ word :: clause :: s ::
      post from rfl] at hbehind
  obtain ⟨splits, hsplits, hsub'⟩ := exists_scanFrom_arrival hbehind
  rw [arrival_of_keyword (.inl hword) (by simp [Item.isMemberDot, Item.isPunct_of_isName has])]
    at hsplits
  obtain ⟨_, -, hagain⟩ :=
    sublist_of_specifier? hsplits (metaAt?_of_not_dot (Item.isPunct_of_isName hclause))
      hsecond hlocal
  refine ⟨[star, as, word, clause], s, post, rfl, List.Sublist.trans ?_ hsub⟩
  exact (List.Sublist.refl _).append (((List.sublist_append_left _ _).trans hagain).trans hsub')

theorem not_apart_self {t : Split} (h : t.Within lo hi) : ¬ Apart t t := by
  have := h.lt
  unfold Apart
  omega

/-- no two splits overlap if, and only if, no sequence claims a specifier twice -/
theorem pairwise_scanFrom_iff (hplaced : PlacedAll lo hi items)
    (h : scanFrom false 0 items = .ok found) : found.Pairwise Apart ↔ ClaimsOnce items := by
  constructor
  · rintro hapart seq hseq ⟨before, i, r, rfl, hdot, hexport, htests⟩
    obtain ⟨splits, hsplits, hsub⟩ := exists_scanFrom_of_keyword hseq (.inr hexport) hdot h
    obtain ⟨pre, s, post, rfl, hagain⟩ := sublist_of_reclaims hsplits hexport htests
    obtain ⟨_, _, hseq⟩ := hseq.placed hplaced
    rw [show before ++ i :: (pre ++ s :: post) = (before ++ i :: pre) ++ s :: post by simp] at hseq
    obtain ⟨start, stop, -, hs, -⟩ := Item.exists_placed_of_middle hseq
    obtain ⟨range, hrange, -⟩ := Item.range_of_placed hs
    have hmem : (⟨.staticImport, range.start, range.stop⟩ : Split) ∈ between .staticImport s s :=
      mem_between.2 ⟨range, range, hrange, hrange, rfl⟩
    have hpair := hapart.sublist (hagain.trans hsub)
    exact not_apart_self (within_between_self hs _ hmem) ((List.pairwise_append.1 hpair).2.2 _
      hmem _ hmem)
  · intro honce
    exact pairwise_scanFrom [] 0 hplaced rfl honce found h

end Split

end Relocation
