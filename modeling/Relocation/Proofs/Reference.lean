import Relocation.Url
import Relocation.Proofs.Outcome
import Relocation.Proofs.Units
import Mathlib.Data.List.TakeDrop
import Mathlib.Tactic.Common

/-!
# References and their UTF-16 code units

Resolving a reference looks at characters up to U+FFFF only, surrogates left out, so it makes no
difference whether a character beyond is written as itself or as its two halves: `resolve_halves`,
and with it `resolve_congr`.
-/

namespace Relocation.Url

open Text
open CodePoint hiding halves

theorem toOption_bind {ε α β : Type} (m : Except ε α) (f : α → Except ε β) :
    (m >>= f).toOption = m.toOption.bind fun a => (f a).toOption := by
  cases m <;> rfl

/-! ## fixed texts -/

theorem contains_map_halves {l : List Text} (hl : ∀ s ∈ l, s.all isBasic = true) (t : Text) :
    l.contains (halves t) = l.contains t := by
  rw [Bool.eq_iff_iff, List.contains_iff_mem, List.contains_iff_mem]
  constructor
  · intro h
    rwa [(halves_eq_iff (hl _ h)).1 rfl]
  · intro h
    rwa [halves_eq_self (hl _ h)]

theorem isPrefixOf_slashes_halves (t : Text) :
    (ofString "//").isPrefixOf (halves t) = (ofString "//").isPrefixOf t := by
  have hs : ofString "//" = [.char '/', .char '/'] := by decide
  rw [Bool.eq_iff_iff, List.isPrefixOf_iff_prefix, List.isPrefixOf_iff_prefix, hs]
  constructor
  · rintro ⟨r₂, h⟩
    obtain ⟨r₁, rfl, h'⟩ := (halves_eq_cons (x := .char '/') rfl).1 h.symm
    obtain ⟨r, rfl, -⟩ := (halves_eq_cons (x := .char '/') rfl).1 h'.symm
    exact ⟨r, rfl⟩
  · rintro ⟨r, rfl⟩
    exact ⟨halves r, by simp [halves_cons_basic (c := .char '/') rfl]⟩

/-! ## addresses -/

namespace Address

theorem uniform_isDigit : Uniform isDigit := uniform_range (by decide)

theorem uniform_isHex : Uniform CodePoint.isHex :=
  ((uniform_range (by decide)).or (uniform_range (by decide))).or (uniform_range (by decide))

theorem all_isBasic_of_all {p : CodePoint → Bool} (hp : ∀ c, c.isBasic = false → p c = false)
    {t : Text} (h : t.all p = true) : t.all isBasic = true := by
  rw [List.all_eq_true] at h ⊢
  intro c hc
  by_contra hb
  have := hp c (by simpa using hb)
  rw [h c hc] at this
  exact Bool.noConfusion this

theorem isDigit_of_not_basic (c : CodePoint) (h : c.isBasic = false) : isDigit c = false := by
  have := value_of_isBasic_eq_false h
  simp only [isDigit, Bool.and_eq_false_iff, decide_eq_false_iff_not]
  omega

theorem isHex_of_not_basic (c : CodePoint) (h : c.isBasic = false) : c.isHex = false := by
  have := value_of_isBasic_eq_false h
  simp only [CodePoint.isHex, Bool.or_eq_false_iff, Bool.and_eq_false_iff, decide_eq_false_iff_not]
  omega

theorem isOctet_halves (t : Text) : isOctet (halves t) = isOctet t := by
  cases h : t.all isDigit with
  | true => rw [halves_eq_self (all_isBasic_of_all isDigit_of_not_basic h)]
  | false => simp only [isOctet, all_halves uniform_isDigit, h, Bool.false_and]

theorem isGroup_halves (t : Text) : isGroup (halves t) = isGroup t := by
  cases h : t.all CodePoint.isHex with
  | true => rw [halves_eq_self (all_isBasic_of_all isHex_of_not_basic h)]
  | false => simp only [isGroup, all_halves uniform_isHex, h, Bool.false_and]

theorem isVersion4_halves (t : Text) : isVersion4 (halves t) = isVersion4 t := by
  simp only [isVersion4, splitOn_halves (x := .char '.') rfl, List.length_map, List.all_map]
  congr 2
  exact funext isOctet_halves

theorem getLast?_map_halves (l : List Text) :
    ((l.map halves).getLast?).getD [] = halves (l.getLast?.getD []) := by
  rw [List.getLast?_map]
  cases l.getLast? <;> rfl

theorem groupCount?_halves (atEnd : Bool) (t : Text) :
    groupCount? atEnd (halves t) = groupCount? atEnd t := by
  have hg : isGroup ∘ halves = isGroup := funext isGroup_halves
  simp only [groupCount?, splitOn_halves (x := .char ':') rfl, halves_eq_nil, List.length_map,
    List.all_map, ← List.map_dropLast, getLast?_map_halves, isVersion4_halves, hg]

theorem cutGap_halves (t : Text) :
    cutGap (halves t) = (halves (cutGap t).1, (cutGap t).2.map halves) := by
  have skip (l t : Text) (h : ∀ d ∈ l, d ≠ .char ':') :
      cutGap (l ++ t) = (l ++ (cutGap t).1, (cutGap t).2) := by
    induction l with
    | nil => rfl
    | cons d l ih =>
      rw [List.cons_append, cutGap.eq_3 _ _ fun _ hd => absurd hd (h d (by simp)), ih fun d hd =>
        h d (by simp [hd])]
      rfl
  induction t using cutGap.induct with
  | case1 => rfl
  | case2 r => rfl
  | case3 c r hc ih =>
    rw [cutGap.eq_3 _ _ hc]
    by_cases hx : c = .char ':'
    · subst hx
      have hr : ∀ r', CodePoint.char ':' = .char ':' → halves r = .char ':' :: r' → False := by
        intro r' _ h
        obtain ⟨r₁, rfl, -⟩ := (halves_eq_cons (x := .char ':') rfl).1 h
        exact hc _ rfl rfl
      rw [halves_cons_basic rfl, cutGap.eq_3 _ _ hr, ih]
      rfl
    · rw [halves_cons_eq, skip _ _ fun d hd => ne_of_mem_halves rfl hx hd, ih]
      rfl

theorem isZone_halves (z : Option Text) : isZone (z.map halves) = isZone z := by
  cases z with
  | none => rfl
  | some z =>
    simp only [Option.map_some, isZone, ne_eq, halves_eq_nil, contains_halves (x := .char '%') rfl]

theorem isVersion6_halves (t : Text) : isVersion6 (halves t) = isVersion6 t := by
  simp only [isVersion6, cut_halves (x := .char '%') rfl, isZone_halves, cutGap_halves]
  rcases cutGap (Text.cut (.char '%') t).1 with ⟨l, _ | r⟩ <;>
    simp only [Option.map_none, Option.map_some, groupCount?_halves]

theorem isFuture_halves (t : Text) : isFuture (halves t) = isFuture t := by
  simp only [isFuture, cut_halves (x := .char '.') rfl]
  rcases Text.cut (.char '.') t with ⟨v, _ | a⟩ <;>
    simp only [Option.map_none, Option.map_some, ne_eq, halves_eq_nil, all_halves uniform_isHex]

end Address

/-! ## parts -/

theorem isSchemePart_of_not_basic (c : CodePoint) (h : c.isBasic = false) :
    isSchemePart c = false := by
  have := value_of_isBasic_eq_false h
  have hne : ∀ d : Char, d.toNat < 0x80 → c ≠ .char d := by
    rintro d hd rfl
    simp only [CodePoint.value] at this
    omega
  simp only [isSchemePart, isAsciiLetter, Bool.or_eq_false_iff, Bool.and_eq_false_iff,
    decide_eq_false_iff_not]
  have := hne '+' (by decide)
  have := hne '-' (by decide)
  have := hne '.' (by decide)
  refine ⟨⟨⟨⟨⟨?_, ?_⟩, ?_⟩, ?_⟩, ?_⟩, ?_⟩ <;> first | assumption | omega

theorem isBasic_lowerAscii {c : CodePoint} (h : isSchemePart c = true) :
    (lowerAscii c).isBasic = true := by
  have hb : c.value < 0x80 := by
    simp only [isSchemePart, isAsciiLetter, Bool.or_eq_true, Bool.and_eq_true, decide_eq_true_eq]
      at h
    rcases h with ((((h | h) | h) | h) | h) | h
    all_goals first | omega | (subst h; decide)
  cases c with
  | surrogate n => simp only [CodePoint.value] at hb; omega
  | char c =>
    obtain ⟨n, hn, rfl⟩ : ∃ n < 0x80, c = Char.ofNat n := ⟨c.toNat, hb, by simp⟩
    revert n
    decide

theorem cleaned_halves (t : Text) : cleaned (halves t) = halves (cleaned t) := by
  have hblank : Uniform fun c => decide (c.value ≤ 0x20) :=
    ⟨false,
      fun c hc => by have := value_of_isBasic_eq_false hc; simp only [decide_eq_false_iff_not]; omega⟩
  have hends : Uniform fun c => c != .char '\t' && c != .char '\r' && c != .char '\n' :=
    ((uniform_eq (d := .char '\t') rfl).not.and (uniform_eq (d := .char '\r') rfl).not).and
      (uniform_eq (d := .char '\n') rfl).not
  simp only [cleaned, dropWhile_halves hblank, filter_halves hends]

theorem splitScheme_halves (o t : Text) :
    splitScheme (halves o)
      (halves t) = (halves (splitScheme o t).1, halves (splitScheme o t).2) := by
  unfold splitScheme
  rw [cut_halves (x := .char ':') rfl]
  rcases Text.cut (.char ':') t with ⟨_ | ⟨c, s⟩, _ | rest⟩
  · rfl
  · rfl
  · rcases halves_cons c s with h | ⟨-, m, n, h⟩ <;> simp [h]
  · rcases halves_cons c s with h | ⟨hc, m, n, h⟩
    · simp only [h, Option.map_some, all_halves (p := isSchemePart)
        ⟨false, isSchemePart_of_not_basic⟩]
      split_ifs with hs
      · have hall : (c :: s).all isSchemePart = true := by
          rw [Bool.and_eq_true] at hs
          simp [isSchemePart, hs.1, hs.2]
        have hb := Address.all_isBasic_of_all isSchemePart_of_not_basic hall
        have hl : ((c :: s).map lowerAscii).all isBasic = true := by
          rw [List.all_map, List.all_eq_true]
          rw [List.all_eq_true] at hall
          exact fun d hd => isBasic_lowerAscii (hall d hd)
        rw [← h, halves_eq_self hb, halves_eq_self hl]
      · rfl
    · have hletter : isAsciiLetter c = false := by
        have := isSchemePart_of_not_basic c hc
        simp only [isSchemePart, Bool.or_eq_false_iff] at this
        exact this.1.1.1.1
      have hm : isAsciiLetter (.surrogate m) = false := by
        have := isSchemePart_of_not_basic (.surrogate m) rfl
        simp only [isSchemePart, Bool.or_eq_false_iff] at this
        exact this.1.1.1.1
      simp [h, hletter, hm]

theorem splitAuthority_halves (t : Text) :
    splitAuthority (halves t) = (halves (splitAuthority t).1, halves (splitAuthority t).2) := by
  have heven : Uniform fun c => c != .char '/' && c != .char '?' && c != .char '#' :=
    ((uniform_eq (d := .char '/') rfl).not.and (uniform_eq (d := .char '?') rfl).not).and
      (uniform_eq (d := .char '#') rfl).not
  by_cases h : ∃ r, t = .char '/' :: .char '/' :: r
  · obtain ⟨r, rfl⟩ := h
    rw [halves_cons_basic rfl, halves_cons_basic rfl]
    simp only [splitAuthority, List.span_eq_takeWhile_dropWhile, takeWhile_halves heven,
      dropWhile_halves heven]
  · have h' : ∀ r', halves t = .char '/' :: .char '/' :: r' → False := by
      intro r' ht
      obtain ⟨r₁, rfl, ht'⟩ := (halves_eq_cons (x := .char '/') rfl).1 ht
      obtain ⟨r, rfl, -⟩ := (halves_eq_cons (x := .char '/') rfl).1 ht'.symm
      exact h ⟨r, rfl⟩
    rw [splitAuthority.eq_2 _ h', splitAuthority.eq_2 _ fun r ht => h ⟨r, ht⟩]
    rfl

theorem hostAndPort_halves (a : Text) : hostAndPort (halves a) = halves (hostAndPort a) := by
  rw [hostAndPort, splitOn_halves (x := .char '@') rfl, Address.getLast?_map_halves, hostAndPort]

theorem host_halves (a : Text) : (host (halves a)).toOption = (host a).toOption.map halves := by
  unfold host
  rw [hostAndPort_halves, cut_halves (x := .char '[') rfl]
  rcases Text.cut (.char '[') (hostAndPort a) with ⟨before, _ | bracketed⟩
  · simp [cut_halves (x := .char ':') rfl, Except.toOption]
  · simp only [Option.map_some, cut_halves (x := .char ']') rfl]
    rcases Text.cut (.char ']') bracketed with ⟨inner, after⟩
    have hafter : (after.map halves).getD [] = halves (after.getD []) := by cases after <;> rfl
    simp only [hafter]
    cases before with
    | cons c before =>
      obtain ⟨d, l, hl⟩ :=
        List.exists_cons_of_ne_nil (mt halves_eq_nil.1 (List.cons_ne_nil c before))
      rw [hl]
      rfl
    | nil =>
      generalize after.getD [] = r
      cases r with
      | nil => rfl
      | cons c r =>
        by_cases hc : c = .char ':'
        · subst hc
          rw [halves_cons_basic rfl]
          rfl
        · obtain ⟨d, l, hl⟩ := List.exists_cons_of_ne_nil (halves_ne_nil c)
          have hd : d ≠ .char ':' := ne_of_mem_halves rfl hc (by simp [hl])
          rw [halves_cons_eq, hl]
          simp [hc, hd, Except.toOption]

theorem checkHost_halves (h : Text) : (checkHost (halves h)).toOption = (checkHost h).toOption := by
  by_cases hv : ∃ r, h = .char 'v' :: r
  · obtain ⟨r, rfl⟩ := hv
    rw [halves_cons_basic rfl]
    simp only [checkHost, Address.isFuture_halves]
  · have hv' : ∀ r', halves h = .char 'v' :: r' → False := by
      intro r' hr
      obtain ⟨r, rfl, -⟩ := (halves_eq_cons (x := .char 'v') rfl).1 hr
      exact hv ⟨r, rfl⟩
    rw [checkHost.eq_2 _ hv', checkHost.eq_2 _ fun r hr => hv ⟨r, hr⟩]
    simp only [Address.isVersion4_halves, Address.isVersion6_halves]
    split_ifs <;> rfl

theorem checkAuthority_halves (a : Text) :
    (checkAuthority (halves a)).toOption = (checkAuthority a).toOption := by
  have hrange : Uniform (·.inRanges unstableRanges) := uniform_inRanges (by decide)
  simp only [checkAuthority, contains_halves (x := .char '[') rfl,
    contains_halves (x := .char ']') rfl, any_halves hrange]
  have hhost (k k' : Except ValueFault Unit) (hk : k.toOption = k'.toOption) :
      (host (halves a) >>= fun h => checkHost h >>= fun _ => k).toOption =
        (host a >>= fun h => checkHost h >>= fun _ => k').toOption := by
    simp only [toOption_bind, host_halves, Option.bind_map, Function.comp_def, checkHost_halves, hk]
  split_ifs
  · rfl
  · rfl
  · rfl
  · rfl
  · exact hhost _ _ rfl
  · exact hhost _ _ rfl
  · rfl
  · rfl

theorem splitParams_halves (p : Text) :
    splitParams (halves p) = (halves (splitParams p).1, halves (splitParams p).2) := by
  simp only [splitParams, splitOn_halves (x := .char '/') rfl, Address.getLast?_map_halves,
    cut_halves (x := .char ';') rfl]
  rcases Text.cut (.char ';') ((Text.splitOn (.char '/') p).getLast?.getD []) with
    ⟨last, _ | params⟩
  · rfl
  · simp only [Option.map_some, ← List.map_dropLast]
    rw [← join_halves rfl, List.map_append]
    rfl

namespace Parts

/-- every part as its UTF-16 code units -/
def halves (p : Parts) : Parts :=
  ⟨p.scheme.halves, p.authority.halves, p.path.halves, p.params.halves, p.query.halves,
    p.fragment.halves⟩

end Parts

theorem schemes_basic :
    (∀ s ∈ paramSchemes, s.all isBasic = true) ∧ (∀ s ∈ relativeSchemes, s.all isBasic = true) ∧
    ∀ s ∈ authoritySchemes, s.all isBasic = true := by
  decide

theorem getD_map_halves (t : Option Text) : (t.map halves).getD [] = halves (t.getD []) := by
  cases t <;> rfl

theorem split_halves (o t : Text) :
    (split (halves o) (halves t)).toOption = (split o t).toOption.map Parts.halves := by
  simp only [split, cleaned_halves, splitScheme_halves, splitAuthority_halves, toOption_bind,
    checkAuthority_halves, cut_halves (x := .char '#') rfl, cut_halves (x := .char '?') rfl,
    contains_map_halves schemes_basic.1, getD_map_halves]
  generalize splitScheme o (cleaned t) = s
  cases (checkAuthority (splitAuthority s.2).1).toOption with
  | none => rfl
  | some _ =>
    simp only [Option.bind_some]
    split_ifs
    · rw [splitParams_halves]
      rfl
    · rfl

theorem marked_halves {mark : Char} (h : (CodePoint.char mark).isBasic = true) (t : Text) :
    marked mark (halves t) = halves (marked mark t) := by
  simp only [marked, halves_eq_nil]
  split_ifs
  · rfl
  · rw [halves_cons_basic h]

theorem text_halves (p : Parts) : p.halves.text = halves p.text := by
  have hslashes : halves (ofString "//") = ofString "//" := halves_eq_self (by decide)
  have hcolon (t : Text) : halves (.char ':' :: t) = .char ':' :: halves t :=
    halves_cons_basic rfl t
  have hslash (t : Text) : halves (.char '/' :: t) = .char '/' :: halves t :=
    halves_cons_basic rfl t
  have hpath :
      p.path.halves ++ marked ';' p.params.halves = (p.path ++ marked ';' p.params).halves := by
    rw [marked_halves rfl, halves_append]
  simp only [Parts.text, Parts.halves, hpath, @marked_halves '?' rfl, @marked_halves '#' rfl,
    halves_eq_nil, ne_eq, contains_map_halves schemes_basic.2.2, isPrefixOf_slashes_halves,
    head?_halves (x := .char '/') rfl]
  generalize p.path ++ marked ';' p.params = path
  split_ifs <;> simp only [halves_append, hslashes, hcolon, hslash]

theorem keepEnds_halves (l : List Text) : keepEnds (l.map halves) = (keepEnds l).map halves := by
  match l with
  | [] => rfl
  | [s] => rfl
  | s :: t :: r =>
    have hne : (fun s : Text => s != []) ∘ halves = fun s => s != [] := by
      funext s
      rw [Function.comp_apply, Bool.eq_iff_iff]
      simp
    show s.halves :: (((t :: r).map halves).dropLast.filter (· != []) ++
      [((t :: r).map halves).getLast (by simp)]) = _
    rw [List.getLast_map, ← List.map_dropLast, List.filter_map, hne]
    simp [keepEnds]

theorem removeDots_halves (done l : List Text) :
    removeDots (done.map halves) (l.map halves) = (removeDots done l).map halves := by
  have dot (s : Text) : halves s = ofString "." ↔ s = ofString "." := halves_eq_iff (by decide)
  have dots (s : Text) : halves s = ofString ".." ↔ s = ofString ".." := halves_eq_iff (by decide)
  induction l generalizing done with
  | nil => simp [removeDots]
  | cons s r ih =>
    simp only [List.map_cons, removeDots, dot, dots]
    split_ifs
    · rw [← List.map_tail, ih]
    · rw [ih]
    · rw [← List.map_cons, ih]

theorem resolvePath_halves (b p : Text) :
    resolvePath (halves b) (halves p) = halves (resolvePath b p) := by
  have dot (s : Text) : halves s = ofString "." ↔ s = ofString "." := halves_eq_iff (by decide)
  have dots (s : Text) : halves s = ofString ".." ↔ s = ofString ".." := halves_eq_iff (by decide)
  have hlast (l : List Text) : (l.map halves).getLast? = some [] ↔ l.getLast? = some [] := by
    rw [List.getLast?_map]
    cases l.getLast? <;> simp
  simp only [resolvePath, splitOn_halves (x := .char '/') rfl, hlast, ← List.map_dropLast,
    head?_halves (x := .char '/') rfl]
  have habove :
      (if (splitOn (.char '/') b).getLast? = some [] then (splitOn (.char '/') b).map halves
      else (splitOn (.char '/') b).dropLast.map halves) =
      (if (splitOn (.char '/') b).getLast? = some [] then splitOn (.char '/') b
        else (splitOn (.char '/') b).dropLast).map halves := by
    split_ifs <;> rfl
  simp only [habove]
  generalize (if (splitOn (.char '/') b).getLast? = some [] then splitOn (.char '/') b
    else (splitOn (.char '/') b).dropLast) = above
  have hsegments : (if p.head? = some (.char '/') then (splitOn (.char '/') p).map halves
      else keepEnds (above.map halves ++ (splitOn (.char '/') p).map halves)) =
      (if p.head? = some (.char '/') then splitOn (.char '/') p
        else keepEnds (above ++ splitOn (.char '/') p)).map halves := by
    split_ifs
    · rfl
    · rw [← List.map_append, keepEnds_halves]
  simp only [hsegments]
  generalize (if p.head? = some (.char '/') then splitOn (.char '/') p
    else keepEnds (above ++ splitOn (.char '/') p)) = segments
  have hend :
      (if halves (segments.getLast?.getD []) = ofString "." ∨
        halves (segments.getLast?.getD []) = ofString ".." then [[]] else []) =
      (if segments.getLast?.getD [] = ofString "." ∨
        segments.getLast?.getD [] = ofString ".." then [[]] else []).map halves := by
    simp only [dot, dots]
    split_ifs <;> rfl
  have hdots : removeDots [] (segments.map halves) = (removeDots [] segments).map halves :=
    removeDots_halves [] segments
  simp only [Address.getLast?_map_halves, hend, hdots, ← List.map_append,
    join_halves (x := .char '/') rfl, halves_eq_nil]
  generalize join [CodePoint.char '/'] _ = text
  by_cases ht : text = []
  · rw [if_pos ht, if_pos ht]
    rfl
  · rw [if_neg ht, if_neg ht]

/-- a scheme is spelled in basic characters -/
theorem splitScheme_basic {o t : Text} (ho : o.all isBasic = true) :
    (splitScheme o t).1.all isBasic = true := by
  unfold splitScheme
  split
  · split_ifs with hs
    · rename_i c s _ _
      have hall : (c :: s).all isSchemePart = true := by
        rw [Bool.and_eq_true] at hs
        simp [isSchemePart, hs.1, hs.2]
      rw [List.all_map, List.all_eq_true]
      rw [List.all_eq_true] at hall
      exact fun d hd => isBasic_lowerAscii (hall d hd)
    · exact ho
  · exact ho

theorem split_scheme_basic {o t : Text} {p : Parts} (ho : o.all isBasic = true)
    (h : split o t = .ok p) : p.scheme.all isBasic = true := by
  unfold split at h
  obtain ⟨_, -, h⟩ := Except.bind_eq_ok.1 h
  obtain rfl := Except.ok.inj h
  exact splitScheme_basic ho

theorem resolve_halves (b r : Text) :
    (resolve (halves b) (halves r)).toOption = (resolve b r).toOption.map halves := by
  simp only [resolve, halves_eq_nil]
  split_ifs with hb hr
  · rfl
  · rfl
  · have hbase : (split [] (halves b)).toOption = (split [] b).toOption.map Parts.halves :=
      split_halves [] b
    simp only [toOption_bind, hbase]
    cases hp : split [] b with
    | error e => rfl
    | ok p =>
      have href :
          (split p.halves.scheme (halves r)).toOption =
            (split p.scheme r).toOption.map Parts.halves :=
        split_halves p.scheme r
      have hscheme (q : Parts) : q.halves.scheme = p.halves.scheme ↔ q.scheme = p.scheme := by
        show halves q.scheme = halves p.scheme ↔ _
        have hbasic := split_scheme_basic rfl hp
        rw [halves_eq_self hbasic, halves_eq_iff hbasic]
      have hpath (q : Parts) :
          resolvePath p.halves.path q.halves.path = halves (resolvePath p.path q.path) :=
        resolvePath_halves p.path q.path
      simp only [Except.toOption, Option.map_some, Option.bind_some] at href ⊢
      rw [href]
      cases (split p.scheme r) with
      | error e => rfl
      | ok q =>
        have hrelative :
            relativeSchemes.contains q.halves.scheme = relativeSchemes.contains q.scheme :=
          contains_map_halves schemes_basic.2.1 q.scheme
        have hq : (if q.halves.query = [] then p.halves.query else q.halves.query) =
            halves (if q.query = [] then p.query else q.query) := by
          show (if halves q.query = [] then halves p.query else halves q.query) = _
          simp only [halves_eq_nil]
          split_ifs <;> rfl
        have hnil :
            (q.halves.authority = [] ↔ q.authority = []) ∧ (q.halves.path = [] ↔ q.path = []) ∧
            (q.halves.params = [] ↔ q.params = []) := ⟨halves_eq_nil, halves_eq_nil, halves_eq_nil⟩
        simp only [Option.map_some, Option.bind_some, ne_eq, hscheme, hpath, hrelative, hq, hnil]
        generalize (if q.query = [] then p.query else q.query) = query
        split_ifs
        · rfl
        · exact congrArg some (text_halves ⟨p.scheme, p.authority, p.path, p.params, query,
            q.fragment⟩)
        · exact congrArg some (text_halves ⟨q.scheme, p.authority, _, q.params, q.query,
            q.fragment⟩)
        · exact congrArg some (text_halves q)

/-- references with the same units resolve to texts with the same units -/
theorem resolve_congr {b r r' u : Text} (h : halves r = halves r') (hr : resolve b r = .ok u) :
    ∃ u', resolve b r' = .ok u' ∧ halves u' = halves u := by
  have h1 := resolve_halves b r
  rw [h, resolve_halves b r', hr] at h1
  cases hr' : resolve b r' with
  | error e => rw [hr'] at h1; cases h1
  | ok u' =>
    rw [hr'] at h1
    exact ⟨u', rfl, Option.some.inj h1⟩

end Relocation.Url
