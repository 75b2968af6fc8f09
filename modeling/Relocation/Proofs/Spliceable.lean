import Relocation.Proofs.Partition
import Relocation.Proofs.Splicing

/-!
# What the splits of a text cover

Every split covers a stretch of tokens: a member of `import.meta`, or one string literal whose value
is a local path (`Split.Covers`).  A text can be cut at its splits unless a declaration in it claims
its specifier twice (`Program.splits_spliceable`).
-/

namespace Relocation

open Item (Spans SpansAll SpansRest)

namespace Token

def Is (kind : Kind) (text : Text) (t : Token) : Prop := t.kind = kind ∧ t.text = text

/-- square brackets with a sequence of items between them -/
def IsIndex (ts : List Token) : Prop :=
  ∃ first last items, ∃ inner : List (Token × Bool), ts = first :: (inner.map (·.1) ++ [last]) ∧
    first.kind = .openSquare ∧ last.kind = .closeSquare ∧ SpansAll items inner

/-- a dot and a name, or an index -/
inductive IsAccess : List Token → Prop
  | name {dot member : Token} : dot.Is .punct "." ∨ dot.Is .punct "?." → member.kind = .name →
      IsAccess [dot, member]
  | index {ts : List Token} : IsIndex ts → IsAccess ts
  | optional {dot : Token} {ts : List Token} : dot.Is .punct "?." → IsIndex ts →
      IsAccess (dot :: ts)

/-- `import.meta` and a member of it -/
def IsMetaMember (ts : List Token) : Prop :=
  ∃ word dot property access, ts = word :: dot :: property :: access ∧ word.Is .name "import" ∧
    dot.Is .punct "." ∧ property.Is .name "meta" ∧ IsAccess access

end Token

namespace Item

variable {i : Item} {ts : List (Token × Bool)} {text : Text}

theorem spans_of_isName (h : Spans i ts) (hname : i.isName text = true) :
    ∃ t newline, ts = [(t, newline)] ∧ t.Is .name text := by
  obtain ⟨m, rfl⟩ := exists_of_isName hname
  obtain ⟨t, newline, hk, rfl, -, rfl⟩ := h
  exact ⟨t, newline, rfl, (Piece.Kind.leafKind?_eq_some.1 hk).2, rfl⟩

theorem spans_of_isAnyName (h : Spans i ts) (hname : i.isAnyName = true) :
    ∃ t newline, ts = [(t, newline)] ∧ t.kind = .name := by
  obtain ⟨text, m, rfl⟩ := exists_of_isAnyName hname
  obtain ⟨t, newline, hk, -, -, rfl⟩ := h
  exact ⟨t, newline, rfl, (Piece.Kind.leafKind?_eq_some.1 hk).2⟩

theorem spans_of_isPunct (h : Spans i ts) (hpunct : i.isPunct text = true) :
    ∃ t newline, ts = [(t, newline)] ∧ t.Is .punct text := by
  obtain ⟨m, rfl⟩ := exists_of_isPunct hpunct
  obtain ⟨t, newline, hk, rfl, -, rfl⟩ := h
  exact ⟨t, newline, rfl, (Piece.Kind.leafKind?_eq_some.1 hk).2, rfl⟩

theorem spans_of_isSquare (h : Spans i ts) (hsquare : i.isGroup .square = true) :
    Token.IsIndex (ts.map (·.1)) := by
  obtain ⟨items, m, c, rfl⟩ := exists_of_isGroup hsquare
  obtain ⟨first, newline, inner, last, hfirst, hlast, -, hinner, rfl⟩ := h
  exact ⟨first, last, items, inner, by simp, hfirst, hlast, hinner⟩

theorem spans_of_isLocalString (h : Spans i ts) (hlocal : i.isLocalString = true) :
    ∃ t newline value, ts = [(t, newline)] ∧ t.kind = .string ∧ Literal.value t.text = .ok value ∧
    isLocalPath value = true := by
  obtain ⟨text, m, rfl⟩ := exists_of_isString (Split.isString_of_isLocalString hlocal)
  obtain ⟨t, newline, hk, rfl, -, rfl⟩ := h
  obtain ⟨value, hvalue, hpath⟩ : ∃ value, Literal.value t.text = .ok value ∧
    isLocalPath value = true := by
    simp only [isLocalString, stringText?, Option.any_some] at hlocal
    cases hvalue : Literal.value t.text with
    | error e => simp [hvalue, Except.toOption] at hlocal
    | ok value => exact ⟨value, rfl, by simpa [hvalue, Except.toOption] using hlocal⟩
  exact ⟨t, newline, value, rfl, (Piece.Kind.leafKind?_eq_some.1 hk).2, hvalue, hpath⟩

end Item

namespace Split

variable {i last s : Item} {r items : List Item} {ts : List (Token × Bool)} {t : Split}
  {found : List Split} {n : Nat} {afterDot : Bool}

/-- the split is the stretch of the tokens, and they are what its kind stands for -/
structure Covers (t : Split) (seg : List Token) : Prop where
  start : ∃ first ∈ seg.head?, t.start = first.start.offset
  stop : ∃ last ∈ seg.getLast?, t.stop = last.stop.offset
  kind : match t.kind with
    | .metaUrl => Token.IsMetaMember seg
    | .staticImport => ∃ literal value, seg = [literal] ∧ literal.kind = .string ∧
        Literal.value literal.text = .ok value ∧ isLocalPath value = true
    | .other _ => False

/-- some of the tokens are covered by the split -/
def CoversIn (t : Split) (ts : List (Token × Bool)) : Prop := ∃ seg, seg <:+: ts.map (·.1) ∧
    t.Covers seg

theorem CoversIn.append_left {a b : List (Token × Bool)} (h : t.CoversIn b) :
    t.CoversIn (a ++ b) := by
  obtain ⟨seg, hseg, hcovers⟩ := h
  rw [CoversIn, List.map_append]
  exact ⟨seg, hseg.trans (List.suffix_append _ _).isInfix, hcovers⟩

theorem CoversIn.append_right {a b : List (Token × Bool)} (h : t.CoversIn a) :
    t.CoversIn (a ++ b) := by
  obtain ⟨seg, hseg, hcovers⟩ := h
  rw [CoversIn, List.map_append]
  exact ⟨seg, hseg.trans (List.prefix_append _ _).isInfix, hcovers⟩

theorem CoversIn.cons (x : Token × Bool) (h : t.CoversIn ts) : t.CoversIn (x :: ts) :=
  append_left (a := [x]) h

theorem isAccess_of_spansAll {access : List Item} (h : SpansAll (access ++ [last]) ts)
    (haccess : access = [] ∧ last.isGroup .square = true ∨ ∃ point, access = [point] ∧
      point.isMemberDot = true ∧
      (last.isAnyName = true ∨ point.isPunct "?." = true ∧ last.isGroup .square = true)) :
    Token.IsAccess (ts.map (·.1)) := by
  rcases haccess with ⟨rfl, hsquare⟩ | ⟨point, rfl, hpoint, hend⟩
  · obtain ⟨_, _, hlast, rfl, rfl⟩ := h
    rw [List.append_nil]
    exact .index (Item.spans_of_isSquare hlast hsquare)
  · obtain ⟨_, _, hdot, ⟨_, _, hlast, rfl, rfl⟩, rfl⟩ := h
    rw [List.append_nil]
    rcases hend with hname | ⟨hoptional, hsquare⟩
    · obtain ⟨member, _, rfl, hkind⟩ := Item.spans_of_isAnyName hlast hname
      rcases Bool.or_eq_true_iff.1 hpoint with hpoint | hpoint
      · obtain ⟨dot, _, rfl, his⟩ := Item.spans_of_isPunct hdot hpoint
        exact .name (.inl his) hkind
      · obtain ⟨dot, _, rfl, his⟩ := Item.spans_of_isPunct hdot hpoint
        exact .name (.inr his) hkind
    · obtain ⟨dot, _, rfl, his⟩ := Item.spans_of_isPunct hdot hoptional
      exact .optional his (Item.spans_of_isSquare hlast hsquare)

theorem coversIn_of_metaAt? (h : SpansAll (i :: r) ts)
    (hmeta : metaAt? afterDot i r = some (n, last))
    (ht : t ∈ between .metaUrl i last) : t.CoversIn ts := by
  obtain ⟨himport, hmember⟩ := metaAt?_eq_some hmeta
  obtain ⟨dot, property, access, post, rfl, -, hdot, hproperty, haccess⟩ :=
    metaMember?_shape hmember
  rw [show i :: dot :: property :: (access ++ last :: post) = (i :: dot :: property ::
    (access ++ [last])) ++ post by simp] at h
  obtain ⟨seg, behind, hseg, -, rfl⟩ := spansAll_append_iff.1 h
  obtain ⟨a, b, ha, hb, rfl⟩ := mem_between.1 ht
  obtain ⟨final, hfinal, range, hrange, hstop⟩ :=
    getLast?_of_spansAll (i :: dot :: property :: access) hseg
  obtain rfl := Option.some.inj (hb.symm.trans hrange)
  obtain ⟨_, _, hi, ⟨_, _, hdot', ⟨_, more, hproperty', hmore, rfl⟩, rfl⟩, rfl⟩ := hseg
  obtain ⟨_, _, hfirst, -, hirange⟩ := Item.ends_of_spans hi
  obtain ⟨word, _, rfl, hword⟩ := Item.spans_of_isName hi himport
  obtain ⟨point, _, rfl, hpoint⟩ := Item.spans_of_isPunct hdot' hdot
  obtain ⟨name, _, rfl, hname⟩ := Item.spans_of_isName hproperty' hproperty
  obtain rfl := Option.some.inj hfirst
  obtain rfl := Option.some.inj (ha.symm.trans hirange)
  refine CoversIn.append_right ⟨_, List.infix_rfl, ⟨word, rfl, rfl⟩, ⟨final.1, ?_, by rw [hstop]⟩,
    ?_⟩
  · rw [List.getLast?_map, hfinal]
    rfl
  · exact ⟨word, point, name, more.map (·.1), rfl, hword, hpoint, hname,
      isAccess_of_spansAll hmore haccess⟩

theorem coversIn_of_isLocalString (h : Spans s ts) (hlocal : s.isLocalString = true)
    (ht : t ∈ between .staticImport s s) : t.CoversIn ts := by
  obtain ⟨a, b, ha, hb, rfl⟩ := mem_between.1 ht
  obtain ⟨first, final, hfirst, hfinal, hrange⟩ := Item.ends_of_spans h
  obtain rfl := Option.some.inj (ha.symm.trans hrange)
  obtain rfl := Option.some.inj (hb.symm.trans hrange)
  obtain ⟨literal, _, value, rfl, hkind, hvalue, hpath⟩ := Item.spans_of_isLocalString h hlocal
  obtain rfl := Option.some.inj hfirst
  obtain rfl := Option.some.inj hfinal
  exact ⟨[literal], List.infix_rfl, ⟨literal, rfl, rfl⟩, ⟨literal, rfl, rfl⟩, literal, value, rfl,
    hkind, hvalue, hpath⟩

theorem coversIn_of_claimed {own : List Split} (h : SpansAll r ts)
    (hclaimed : claimed afterDot i r = .ok own) : ∀ t ∈ own, t.CoversIn ts := by
  intro t ht
  unfold claimed at hclaimed
  split at hclaimed
  · rename_i s hspec
    split_ifs at hspec
    rcases ofSpecifier_eq_ok hclaimed with rfl | ⟨hlocal, rfl⟩
    · cases ht
    obtain ⟨-, pre, post, rfl, -⟩ := specifier?_eq_some hspec
    obtain ⟨ahead, _, -, ⟨seg, behind, hs, -, rfl⟩, rfl⟩ := spansAll_append_iff.1 h
    exact (coversIn_of_isLocalString hs hlocal ht).append_right.append_left
  · obtain rfl := Except.ok.inj hclaimed
    cases ht

mutual
/-- every split that is found covers some of the tokens that the items were read from -/
theorem coversIn_of_scanFrom : ∀ {items : List Item} {ts : List (Token × Bool)} (skip : Nat),
    SpansAll (items.drop skip) ts → ∀ (afterDot : Bool) (found : List Split),
    scanFrom afterDot skip items = .ok found → ∀ t ∈ found, t.CoversIn ts
  | [], _, _, _ => by
    intro afterDot found h t ht
    rw [scanFrom] at h
    obtain rfl := Except.ok.inj h
    cases ht
  | i :: r, ts, skip + 1, hspans => by
    intro afterDot found h
    rw [scanFrom] at h
    exact coversIn_of_scanFrom skip hspans false found h
  | i :: r, ts, 0, hspans => by
    intro afterDot found h t ht
    have ih : ∀ {ts : List (Token × Bool)} (skip : Nat), SpansAll (r.drop skip) ts →
        ∀ (afterDot : Bool) (found : List Split), scanFrom afterDot skip r = .ok found →
        ∀ t ∈ found, t.CoversIn ts := fun skip h => coversIn_of_scanFrom skip h
    rw [List.drop_zero] at hspans
    rcases scanFrom_cases h with ⟨n, last, rest, hmeta, hrest, rfl⟩ |
      ⟨own, inner, rest, -, hown, hinner, hrest, rfl⟩
    · rcases List.mem_append.1 ht with ht | ht
      · exact coversIn_of_metaAt? hspans hmeta ht
      · obtain ⟨seg, behind, -, hr, rfl⟩ := hspans
        rw [← List.take_append_drop n r] at hr
        obtain ⟨_, _, -, hdrop, rfl⟩ := spansAll_append_iff.1 hr
        exact (ih n hdrop false rest hrest t ht).append_left.append_left
    · obtain ⟨seg, behind, hi, hr, rfl⟩ := hspans
      rcases List.mem_append.1 ht with ht | ht
      · rcases List.mem_append.1 ht with ht | ht
        · exact (coversIn_of_claimed hr hown t ht).append_left
        · exact (coversIn_of_scanInside hi inner hinner t ht).append_right
      · exact (ih 0 hr _ rest hrest t ht).append_left

theorem coversIn_of_scanInside : ∀ {i : Item} {ts : List (Token × Bool)}, Spans i ts →
    ∀ found : List Split, scanInside i = .ok found → ∀ t ∈ found, t.CoversIn ts
  | .leaf _ _ _, _, _ => by
    intro found h t ht
    rw [scanInside] at h
    obtain rfl := Except.ok.inj h
    cases ht
  | .group _ _ _ _, _, hspans => by
    intro found h t ht
    obtain ⟨first, newline, inner, last, -, -, -, hitems, rfl⟩ := hspans
    rw [scanInside] at h
    exact (coversIn_of_scanFrom 0 hitems false found h t ht).append_right.cons _
  | .template _ rest _, ts, hspans => by
    intro found h t ht
    rw [scanInside] at h
    cases rest with
    | nil =>
      obtain rfl := Except.ok.inj h
      cases ht
    | cons part rest =>
      obtain ⟨first, newline, inner, last, -, -, -, hrest, rfl⟩ := hspans
      exact (coversIn_of_scanRest hrest found h t ht).cons _
  | .block _ _ _, _, _ => by
    intro found h
    rw [scanInside] at h
    cases h

theorem coversIn_of_scanRest :
    ∀ {rest : List (List Item × Text)} {ts : List (Token × Bool)} {last : Token},
    SpansRest rest ts last → ∀ found : List Split, scanRest rest = .ok found →
    ∀ t ∈ found, t.CoversIn ts
  | [], _, _, hspans => hspans.elim
  | [(items, _)], _, _, hspans => by
    intro found h t ht
    obtain ⟨inner, newline, hitems, -, -, rfl⟩ := hspans
    obtain ⟨first, more, hfirst, hmore, rfl⟩ := scanRest_cons_eq_ok.1 h
    obtain rfl := Except.ok.inj hmore
    rw [List.append_nil] at ht
    exact (coversIn_of_scanFrom 0 hitems false first hfirst t ht).append_right
  | (items, _) :: part :: rest, _, _, hspans => by
    intro found h t ht
    obtain ⟨inner, chunk, newline, more, hitems, -, -, hrest, rfl⟩ := hspans
    obtain ⟨first, behind, hfirst, hbehind, rfl⟩ := scanRest_cons_eq_ok.1 h
    rcases List.mem_append.1 ht with ht | ht
    · exact (coversIn_of_scanFrom 0 hitems false first hfirst t ht).append_right
    · exact ((coversIn_of_scanRest hrest behind hbehind t ht).cons _).append_left
end

/-- a split that covers tokens of a text has a value there -/
theorem exists_ofSplit_of_covers {source : Text} {seg : List Token} (h : t.Covers seg)
    (htext : ∀ token ∈ seg, (source.take token.stop.offset).drop token.start.offset = token.text) :
    ∃ substitution, Substitution.ofSplit source t = .ok substitution := by
  obtain ⟨hstart, hstop, hkind⟩ := h
  unfold Substitution.ofSplit
  cases hk : t.kind with
  | metaUrl => exact ⟨.metaUrl, rfl⟩
  | staticImport =>
    rw [hk] at hkind
    obtain ⟨literal, value, rfl, -, hvalue, -⟩ := hkind
    obtain ⟨first, hfirst, hstart⟩ := hstart
    obtain ⟨last, hlast, hstop⟩ := hstop
    obtain rfl : literal = first := Option.some.inj hfirst
    obtain rfl : literal = last := Option.some.inj hlast
    refine ⟨.staticImport (some value), ?_⟩
    rw [hstart, hstop]
    simp only [Int.toNat_natCast, htext literal (List.mem_singleton_self _), hvalue]
    rfl
  | other label =>
    rw [hk] at hkind
    exact hkind.elim

end Split

namespace Program

open Split

variable {source : Text} {p : Program} {splits : List Split}

theorem coversIn_of_splits (hread : read source = .ok p) (hsplits : p.splits = .ok splits) :
    ∀ s ∈ splits, ∃ seg, seg <:+: (TokenStream.ofText source).tokens ∧ s.Covers seg := by
  obtain ⟨found, hfound, rfl⟩ := splits_of_read hread hsplits
  obtain ⟨-, line, ls, hcut, -, -, -, hspans⟩ := cuts_of_read hread
  rw [(tokens_of_cut hcut).2]
  exact fun s hs => coversIn_of_scanFrom 0 hspans false found hfound s (mem_sorted.1 hs)

/-- Every split of a text covers a member of `import.meta` or one string literal with a local path.
If no declaration claims its specifier twice, the splits start one after the other without overlaps,
and the text can be cut at them; if one does, it cannot. -/
theorem splits_spliceable (hread : read source = .ok p) (hsplits : p.splits = .ok splits) :
    (∀ s ∈ splits, s.Within 0 source.length ∧
      ∃ seg, seg <:+: (TokenStream.ofText source).tokens ∧ s.Covers seg) ∧
    (Ascending splits ∧ splits.Pairwise Apart ↔ ClaimsOnce p.items) ∧
    ((∃ plan, Plan.ofSplits source splits = .ok plan) ↔ ClaimsOnce p.items) := by
  have hwithin := within_splits hread hsplits
  have hcovers := coversIn_of_splits hread hsplits
  have hvalue : ∀ s ∈ splits, ∃ substitution, Substitution.ofSplit source s = .ok substitution := by
    intro s hs
    obtain ⟨seg, hseg, hs⟩ := hcovers s hs
    exact exists_ofSplit_of_covers hs fun t ht =>
      ((mirrors_of_read hread).text t (hseg.subset ht)).1
  have hapart : splits.Pairwise Apart ↔ ClaimsOnce p.items := by
    obtain ⟨found, hfound, rfl⟩ := splits_of_read hread hsplits
    rw [← pairwise_scanFrom_iff (placedAll_of_read hread) hfound]
    exact (List.mergeSort_perm found _).pairwise_iff Apart.symm
  refine ⟨fun s hs => ⟨hwithin s hs, hcovers s hs⟩,
    ⟨fun h => hapart.1 h.2, fun h => ⟨?_, hapart.2 h⟩⟩,
    (Plan.exists_ofSplits_iff hwithin hvalue).trans hapart⟩
  obtain ⟨found, -, rfl⟩ := splits_of_read hread hsplits
  exact ascending_sorted (fun s hs => hwithin s (mem_sorted.2 hs)) (hapart.2 h)

theorem splits_spliceable_member :
    ∃ p splits, read (Text.ofString "export * from \"/a\"; f(import.meta?.[import.meta.url])") =
        .ok p ∧
      p.splits = .ok splits ∧ splits = [⟨.staticImport, 14, 18⟩, ⟨.metaUrl, 22, 52⟩] ∧
      (∀ s ∈ splits,
        s.Within 0 (Text.ofString "export * from \"/a\"; f(import.meta?.[import.meta.url])").length ∧
        ∃ seg, seg <:+: (TokenStream.ofText
            (Text.ofString "export * from \"/a\"; f(import.meta?.[import.meta.url])")).tokens ∧
          s.Covers seg) ∧
      (Ascending splits ∧ splits.Pairwise Apart ↔ ClaimsOnce p.items) ∧
      ((∃ plan, Plan.ofSplits
          (Text.ofString "export * from \"/a\"; f(import.meta?.[import.meta.url])") splits =
          .ok plan) ↔ ClaimsOnce p.items) := by
  have hscan :
      (read (Text.ofString "export * from \"/a\"; f(import.meta?.[import.meta.url])") >>= fun p =>
      scanFrom false 0 p.items) = .ok [⟨.staticImport, 14, 18⟩, ⟨.metaUrl, 22, 52⟩] := by
    decide +kernel
  obtain ⟨p, hread, hsplits⟩ := exists_read_splits hscan (by decide)
  exact ⟨p, _, hread, hsplits, rfl, splits_spliceable hread hsplits⟩

/-- the word `import` that a specifier is exported as claims it again, so no plan is made of the
splits -/
theorem splits_reclaimed :
    ∃ p, read (Text.ofString "export * as import from \"./x\"") = .ok p ∧
      p.splits = .ok [⟨.staticImport, 24, 29⟩, ⟨.staticImport, 24, 29⟩] ∧
      Plan.ofSplits (Text.ofString "export * as import from \"./x\"")
          [⟨.staticImport, 24, 29⟩, ⟨.staticImport, 24, 29⟩] =
        .error (.inconsistent (.misplacedSplit ⟨.staticImport, 24, 29⟩)) := by
  have hscan :
      (read (Text.ofString "export * as import from \"./x\"") >>= fun p =>
      scanFrom false 0 p.items) = .ok [⟨.staticImport, 24, 29⟩, ⟨.staticImport, 24, 29⟩] := by
    decide +kernel
  obtain ⟨p, hread, hsplits⟩ := exists_read_splits hscan (by decide)
  refine ⟨p, hread, hsplits, ?_⟩
  have hvalue :
      Substitution.ofSplit (Text.ofString "export * as import from \"./x\"")
        ⟨.staticImport, 24, 29⟩ = .ok (.staticImport (some (Text.ofString "./x"))) := by
    decide +kernel
  rw [Plan.ofSplits, List.mergeSort_of_pairwise (by decide), Plan.cutAll,
    if_pos (by decide +kernel), hvalue]
  show Plan.cutAll _ 24 _ _ = _
  rw [Plan.cutAll, if_neg (by decide)]

end Program

end Relocation
