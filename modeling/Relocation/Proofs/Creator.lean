import Relocation.Plan
import Relocation.Split.Scan
import Relocation.Proofs.Outcome
import Relocation.Proofs.Quotation
import Mathlib.Data.List.TakeDrop
import Mathlib.Data.List.TakeWhile
import Mathlib.Tactic.Common

/-!
# Specifiers in a module with a hierarchical address

A local specifier takes the scheme of the module that creates it, so what it becomes depends on that
scheme alone: an absolute address if relative references resolve with the scheme, else the specifier
as it was.  In both cases the hosts that take part must be stable (`valueAt_hierarchical`).
-/

namespace Relocation

namespace Url

/-- a letter, and behind it letters, digits and the marks that a scheme may have -/
def IsScheme (t : Text) : Prop :=
  ∃ c r, t = c :: r ∧ isAsciiLetter c = true ∧ ∀ d ∈ r, isSchemePart d = true

/-- a text that may stand between the double slash of an address and its path, without an address in
brackets -/
def IsAuthority (t : Text) : Prop :=
  ∀ c ∈ t, c ∉ [.char '/', .char '?', .char '#', .char '[', .char ']']

/-- an address of the form `scheme://authority/path`, where a query and a fragment count as part of
the path -/
structure Hierarchical where
  scheme : Text
  authority : Text
  path : Text
  isScheme : IsScheme scheme
  isAuthority : IsAuthority authority

def Hierarchical.text (u : Hierarchical) : Text :=
  u.scheme ++ .char ':' :: .char '/' :: .char '/' :: (u.authority ++ .char '/' :: u.path)

/-- no character of the text would become a delimiter by normalization -/
def Stable (t : Text) : Prop := ∀ c ∈ t, c.inRanges unstableRanges = false

instance (t : Text) : Decidable (Stable t) := inferInstanceAs (Decidable (∀ c ∈ t, _))

/-- the authority that a reference names itself -/
def ownAuthority (reference : Text) : Text := (splitAuthority (cleaned reference)).1

/-- a text without tabs and line ends -/
def tidied (t : Text) : Text :=
  t.filter fun c => c != .char '\t' && c != .char '\r' && c != .char '\n'

variable {t scheme authority path reference : Text}

/-! ## schemes -/

theorem isSchemePart_of_isAsciiLetter {c : CodePoint} (h : isAsciiLetter c = true) :
    isSchemePart c = true := by
  simp [isSchemePart, h]

theorem IsScheme.all (h : IsScheme t) : ∀ c ∈ t, isSchemePart c = true := by
  obtain ⟨c, r, rfl, hc, hr⟩ := h
  exact List.forall_mem_cons.2 ⟨isSchemePart_of_isAsciiLetter hc, hr⟩

theorem ne_of_isSchemePart {c : CodePoint} (h : isSchemePart c = true) :
    c ≠ .char ':' ∧ 0x20 < c.value ∧ c ≠ .char '\t' ∧ c ≠ .char '\r' ∧ c ≠ .char '\n' := by
  have hvalue : c.value ≠ 0x3A ∧ 0x20 < c.value := by
    simp only [isSchemePart, isAsciiLetter, Bool.or_eq_true, Bool.and_eq_true, decide_eq_true_eq]
      at h
    rcases h with (((h | h) | rfl) | rfl) | rfl
    · omega
    · omega
    all_goals decide
  refine ⟨?_, hvalue.2, ?_, ?_, ?_⟩ <;> rintro rfl <;> revert hvalue <;> decide

theorem cut_append {sep : CodePoint} {s : Text} (h : ∀ c ∈ s, c ≠ sep) (r : Text) :
    Text.cut sep (s ++ sep :: r) = (s, some r) := by
  induction s with
  | nil => simp [Text.cut]
  | cons c s ih =>
    obtain ⟨hc, hs⟩ := List.forall_mem_cons.1 h
    rw [List.cons_append, Text.cut, if_neg hc, ih hs]

theorem splitScheme_of_isScheme (h : IsScheme scheme) (otherwise rest : Text) :
    splitScheme otherwise (scheme ++ .char ':' :: rest) = (scheme.map lowerAscii, rest) := by
  have hcut := cut_append (fun c hc => (ne_of_isSchemePart (h.all c hc)).1) rest
  obtain ⟨c, r, rfl, hc, hr⟩ := h
  rw [splitScheme, hcut]
  simp only [hc, List.all_eq_true.2 hr, Bool.and_self, if_true]

/-- what begins with no letter has no scheme of its own -/
theorem splitScheme_of_not_letter {c : CodePoint} (hc : isAsciiLetter c = false)
    (otherwise r : Text) : splitScheme otherwise (c :: r) = (otherwise, c :: r) := by
  unfold splitScheme
  split
  · rename_i d s rest hcut
    have hd : d = c := by
      rw [Text.cut] at hcut
      split_ifs at hcut
      · simp at hcut
      · simp only [Prod.mk.injEq, List.cons.injEq] at hcut
        exact hcut.1.1.symm
    rw [hd, hc]
    simp
  · rfl

/-! ## authorities -/

theorem IsAuthority.no_brackets (h : IsAuthority authority) :
    ∀ c ∈ authority, c ≠ .char '[' ∧ c ≠ .char ']' := by
  intro c hc
  constructor <;> rintro rfl <;> exact h _ hc (by decide)

theorem splitAuthority_of_isAuthority (h : IsAuthority authority) (r : Text) :
    splitAuthority (.char '/' :: .char '/' :: (authority ++ .char '/' :: r)) =
      (authority, .char '/' :: r) := by
  have hplain : ∀ c ∈ authority, (c != .char '/' && c != .char '?' && c != .char '#') = true := by
    intro c hc
    have := h c hc
    simp only [List.mem_cons, not_or] at this
    simp [this.1, this.2.1, this.2.2.1]
  rw [splitAuthority, List.span_eq_takeWhile_dropWhile, List.takeWhile_append_of_pos hplain,
    List.dropWhile_append_of_pos hplain]
  simp

theorem checkAuthority_of_no_brackets (h : ∀ c ∈ authority, c ≠ .char '[' ∧ c ≠ .char ']') :
    checkAuthority authority =
    if Stable authority then .ok () else .error (.unstableHost authority) := by
  have hopen : authority.contains (.char '[') = false := by
    rw [Bool.eq_false_iff, Ne, List.contains_iff_mem]
    exact fun hc => (h _ hc).1 rfl
  have hclose : authority.contains (.char ']') = false := by
    rw [Bool.eq_false_iff, Ne, List.contains_iff_mem]
    exact fun hc => (h _ hc).2 rfl
  have hstable : (authority.any (·.inRanges unstableRanges) = true) ↔ ¬ Stable authority := by
    simp [Stable]
  simp only [checkAuthority, hopen, hclose]
  by_cases hs : Stable authority
  · rw [if_pos hs, if_neg (fun h => hstable.1 h hs)]
    rfl
  · rw [if_neg hs, if_pos (hstable.2 hs)]
    rfl

theorem stable_tidied : Stable (tidied t) ↔ Stable t := by
  refine ⟨fun h c hc => ?_, fun h c hc => h c (List.mem_filter.1 hc).1⟩
  by_cases hkept : (c != .char '\t' && c != .char '\r' && c != .char '\n') = true
  · exact h c (List.mem_filter.2 ⟨hc, hkept⟩)
  · simp only [Bool.and_eq_true, bne_iff_ne, not_and_or, not_not] at hkept
    rcases hkept with (rfl | rfl) | rfl <;> decide

/-! ## parts -/

/-- what decides how a text is split into its parts, and whether it is -/
theorem split_eq {otherwise rest rest' : Text}
    (hscheme : splitScheme otherwise (cleaned t) = (scheme, rest))
    (hauthority : splitAuthority rest = (authority, rest'))
    (h : ∀ c ∈ authority, c ≠ .char '[' ∧ c ≠ .char ']') :
    (Stable authority → ∃ p, split otherwise t = .ok p ∧ p.scheme = scheme) ∧
      (¬ Stable authority → split otherwise t = .error (.unstableHost authority)) := by
  have hcheck := checkAuthority_of_no_brackets h
  simp only [split, hscheme, hauthority, hcheck]
  constructor
  · intro hs
    rw [if_pos hs]
    exact ⟨_, rfl, rfl⟩
  · intro hs
    rw [if_neg hs]
    rfl

/-- a text with a scheme begins with it -/
theorem Parts.exists_text_eq {p : Parts} (h : p.scheme ≠ []) :
    ∃ r, p.text = p.scheme ++ .char ':' :: r := by
  simp only [Parts.text, if_neg h, List.append_assoc, List.cons_append]
  exact ⟨_, rfl⟩

/-! ## addresses and specifiers -/

/-- an address without tabs and line ends has the form of the address -/
theorem Hierarchical.cleaned_text (u : Hierarchical) : cleaned u.text =
    u.scheme ++ .char ':' :: .char '/' :: .char '/' ::
    (tidied u.authority ++ .char '/' :: tidied u.path) := by
  have hscheme : tidied u.scheme = u.scheme := by
    refine List.filter_eq_self.2 fun c hc => ?_
    obtain ⟨-, -, ht, hr, hn⟩ := ne_of_isSchemePart (u.isScheme.all c hc)
    simp [ht, hr, hn]
  have hkept : u.text.dropWhile (·.value ≤ 0x20) = u.text := by
    obtain ⟨c, r, hc, hletter, -⟩ := u.isScheme
    have hvalue := (ne_of_isSchemePart (isSchemePart_of_isAsciiLetter hletter)).2.1
    rw [Hierarchical.text, hc, List.cons_append, List.dropWhile_cons_of_neg (by simpa using hvalue)]
  show tidied (u.text.dropWhile _) = _
  rw [hkept, Hierarchical.text, tidied, List.filter_append]
  conv_lhs => rw [← tidied, hscheme]
  simp [tidied]

theorem Hierarchical.split_text (u : Hierarchical) :
    (Stable u.authority → ∃ p, split [] u.text = .ok p ∧ p.scheme = u.scheme.map lowerAscii) ∧
      (¬ Stable u.authority → ∃ a, split [] u.text = .error (.unstableHost a)) := by
  have hplain : IsAuthority (tidied u.authority) :=
    fun c hc => u.isAuthority c (List.mem_filter.1 hc).1
  have hscheme : splitScheme [] (cleaned u.text) = (u.scheme.map lowerAscii,
      .char '/' :: .char '/' :: (tidied u.authority ++ .char '/' :: tidied u.path)) := by
    rw [u.cleaned_text]
    exact splitScheme_of_isScheme u.isScheme [] _
  have h :=
    split_eq hscheme (splitAuthority_of_isAuthority hplain (tidied u.path)) hplain.no_brackets
  rw [stable_tidied] at h
  exact ⟨h.1, fun hs => ⟨_, h.2 hs⟩⟩

/-- a local specifier begins with a slash or a point -/
theorem exists_of_isLocalPath (h : isLocalPath reference = true) :
    ∃ c r, reference = c :: r ∧ (c = .char '/' ∨ c = .char '.') := by
  simp only [isLocalPath, List.any_map, List.any_eq_true, Function.comp, List.isPrefixOf_iff_prefix]
    at h
  obtain ⟨s, hs, r, rfl⟩ := h
  simp only [List.mem_cons, List.not_mem_nil, or_false] at hs
  rcases hs with rfl | rfl | rfl
  · exact ⟨_, _, rfl, .inl rfl⟩
  · exact ⟨_, _, rfl, .inr rfl⟩
  · exact ⟨_, _, rfl, .inr rfl⟩

theorem splitAuthority_subset (t : Text) : (splitAuthority t).1 ⊆ t := by
  unfold splitAuthority
  split
  · rename_i r
    rw [List.span_eq_takeWhile_dropWhile]
    exact fun c hc => List.mem_cons_of_mem _ (List.mem_cons_of_mem _ ((List.takeWhile_subset _) hc))
  · exact List.nil_subset _

theorem ownAuthority_subset (t : Text) : ownAuthority t ⊆ t :=
  List.Subset.trans (splitAuthority_subset _)
    (List.filter_sublist.trans (List.dropWhile_sublist _)).subset

/-- a local specifier has no scheme of its own -/
theorem split_local (hlocal : isLocalPath reference = true)
    (hb : ∀ c ∈ reference, c ≠ .char '[' ∧ c ≠ .char ']') (otherwise : Text) :
    (Stable (ownAuthority reference) → ∃ p, split otherwise reference = .ok p ∧
      p.scheme = otherwise) ∧
      (¬ Stable (ownAuthority reference) →
      split otherwise reference = .error (.unstableHost (ownAuthority reference))) := by
  have hscheme : splitScheme otherwise (cleaned reference) = (otherwise, cleaned reference) := by
    obtain ⟨c, r, rfl, hc⟩ := exists_of_isLocalPath hlocal
    have hcleaned : cleaned (c :: r) = c :: tidied r := by rcases hc with rfl | rfl <;> rfl
    rw [hcleaned]
    exact splitScheme_of_not_letter (by rcases hc with rfl | rfl <;> decide) otherwise (tidied r)
  exact split_eq hscheme rfl fun c hc => hb c (ownAuthority_subset reference hc)

variable (u : Hierarchical)

theorem Hierarchical.text_ne_nil : u.text ≠ [] := by simp [Hierarchical.text]

theorem Hierarchical.exists_letter : ∃ c r, u.scheme.map lowerAscii = c :: r ∧ c ≠ .char '/' ∧
    c ≠ .char '.' := by
  obtain ⟨c, r, h, hletter, -⟩ := u.isScheme
  refine ⟨lowerAscii c, r.map lowerAscii, by rw [h, List.map_cons], ?_⟩
  have hsmall : ∀ n < 0x7B, isAsciiLetter (.char (Char.ofNat n)) = true →
      lowerAscii (.char (Char.ofNat n)) ≠ .char '/' ∧
      lowerAscii (.char (Char.ofNat n)) ≠ .char '.' := by decide
  have hvalue : c.value < 0x7B := by
    simp only [isAsciiLetter, Bool.or_eq_true, Bool.and_eq_true, decide_eq_true_eq] at hletter
    omega
  obtain ⟨n, hn, rfl⟩ := Literal.eq_char_of_value_lt hvalue (by decide)
  exact hsmall n hn hletter

section Local

variable (hlocal : isLocalPath reference = true)
  (hb : ∀ c ∈ reference, c ≠ .char '[' ∧ c ≠ .char ']')
include hlocal hb

theorem resolve_of_unstable (h : ¬ (Stable u.authority ∧ Stable (ownAuthority reference))) :
    ∃ a, resolve u.text reference = .error (.unstableHost a) := by
  obtain ⟨c, r, hc, -⟩ := exists_of_isLocalPath hlocal
  simp only [resolve, if_neg u.text_ne_nil, if_neg (show reference ≠ [] by simp [hc])]
  by_cases hs : Stable u.authority
  · obtain ⟨b, hbase, -⟩ := u.split_text.1 hs
    have hreference := (split_local hlocal hb b.scheme).2 fun ho => h ⟨hs, ho⟩
    rw [hbase]
    simp only [bind, Except.bind, hreference]
    exact ⟨_, rfl⟩
  · obtain ⟨a, ha⟩ := u.split_text.2 hs
    rw [ha]
    exact ⟨a, rfl⟩

/-- with stable hosts, a local specifier takes the scheme of the address if relative references
resolve with it -/
theorem resolve_of_stable (h : Stable u.authority ∧ Stable (ownAuthority reference)) :
    (relativeSchemes.contains (u.scheme.map lowerAscii) = true →
      ∃ p : Parts, resolve u.text reference = .ok p.text ∧ p.scheme = u.scheme.map lowerAscii) ∧
    (relativeSchemes.contains (u.scheme.map lowerAscii) = false →
      resolve u.text reference = .ok reference) := by
  obtain ⟨c, r, hc, -⟩ := exists_of_isLocalPath hlocal
  obtain ⟨b, hbase, hbscheme⟩ := u.split_text.1 h.1
  obtain ⟨r, hreference, hrscheme⟩ := (split_local hlocal hb b.scheme).1 h.2
  rw [resolve, if_neg u.text_ne_nil, if_neg (show reference ≠ [] by simp [hc]), hbase, ← hbscheme]
  simp only [bind, Except.bind, hreference, hrscheme]
  constructor
  · intro hrelative
    rw [if_neg (by rw [hrelative]; simp)]
    -- whatever else the reference lacks, its scheme is the one that it was given
    by_cases hnamed : r.authority ≠ []
    · rw [if_pos hnamed]
      exact ⟨r, rfl, hrscheme⟩
    rw [if_neg hnamed]
    by_cases hempty : r.path = [] ∧ r.params = []
    · rw [if_pos hempty]
      exact ⟨_, rfl, rfl⟩
    · rw [if_neg hempty]
      exact ⟨_, rfl, rfl⟩
  · intro hrelative
    rw [if_pos (by rw [hrelative]; simp)]
    rfl

end Local

end Url

namespace Substitution

open Url

/-- **Local specifiers of a module with a hierarchical address.** If the hosts are stable, the
specifier becomes an absolute address with the scheme of the module where relative references
resolve with that scheme, and stays what it is elsewhere. -/
theorem valueAt_hierarchical (u : Hierarchical) {specifier : Text}
    (hlocal : isLocalPath specifier = true) (hb : ∀ c ∈ specifier, c ≠ .char '[' ∧ c ≠ .char ']') :
    (Stable u.authority ∧ Stable (ownAuthority specifier) →
      (relativeSchemes.contains (u.scheme.map lowerAscii) = true →
        ∃ url r, (staticImport (some specifier)).valueAt u.text = .ok (Json.literal url) ∧
          url = u.scheme.map lowerAscii ++ .char ':' :: r ∧ isLocalPath url = false) ∧
      (relativeSchemes.contains (u.scheme.map lowerAscii) = false →
        (staticImport (some specifier)).valueAt u.text = .ok (Json.literal specifier))) ∧
    (¬ (Stable u.authority ∧ Stable (ownAuthority specifier)) →
      ∃ a, (staticImport (some specifier)).valueAt u.text = .error (.value (.unstableHost a))) := by
  refine ⟨fun hs => ⟨fun hrelative => ?_, fun hrelative => ?_⟩, fun hs => ?_⟩
  · obtain ⟨p, hp, hscheme⟩ := (resolve_of_stable u hlocal hb hs).1 hrelative
    obtain ⟨c, s, hletter, hslash, hpoint⟩ := u.exists_letter
    obtain ⟨r, hr⟩ := p.exists_text_eq (by rw [hscheme, hletter]; simp)
    rw [hscheme] at hr
    refine ⟨p.text, r, by rw [valueAt, hp], hr, ?_⟩
    rw [Bool.eq_false_iff]
    intro hstill
    obtain ⟨d, t, ht, hd⟩ := exists_of_isLocalPath hstill
    rw [hr, hletter] at ht
    obtain rfl := (List.cons.inj ht).1
    rcases hd with hd | hd
    · exact hslash hd
    · exact hpoint hd
  · rw [valueAt, (resolve_of_stable u hlocal hb hs).2 hrelative]
  · obtain ⟨a, ha⟩ := resolve_of_unstable u hlocal hb hs
    exact ⟨a, by rw [valueAt, ha]⟩

/-- an address with capitals in its scheme, parameters and dots -/
def service : Hierarchical where
  scheme := "HTTPS"
  authority := "a.example:8443"
  path := "x/y;v=1/main.js"
  isScheme := ⟨.char 'H', Text.ofString "TTPS", rfl, by decide, by decide⟩
  isAuthority := by unfold IsAuthority; decide

theorem valueAt_hierarchical_service : isLocalPath (Text.ofString "../../../z.js") = true ∧
    (∀ c ∈ Text.ofString "../../../z.js", c ≠ .char '[' ∧ c ≠ .char ']') ∧
    ∃ url r, (staticImport (some (Text.ofString "../../../z.js"))).valueAt service.text =
        .ok (Json.literal url) ∧
      url = Text.ofString "https" ++ .char ':' :: r ∧ isLocalPath url = false := by
  have hlocal : isLocalPath (Text.ofString "../../../z.js") = true := by decide
  have hb : ∀ c ∈ Text.ofString "../../../z.js", c ≠ .char '[' ∧ c ≠ .char ']' := by decide
  exact ⟨hlocal, hb, ((valueAt_hierarchical service hlocal hb).1 (by decide)).1 (by decide)⟩

/-- an address in a scheme of its own -/
def extension : Hierarchical where
  scheme := "chrome-extension"
  authority := "abc"
  path := "dir/main.js"
  isScheme := ⟨.char 'c', Text.ofString "hrome-extension", rfl, by decide, by decide⟩
  isAuthority := by unfold IsAuthority; decide

/-- The specifier is left as it is, so it means another file in the body than in the module. -/
theorem valueAt_left : isLocalPath (Text.ofString "./x.js") = true ∧
    (staticImport (some (Text.ofString "./x.js"))).valueAt extension.text =
      .ok (Json.literal (Text.ofString "./x.js")) ∧
    ¬ ∃ url r, (staticImport (some (Text.ofString "./x.js"))).valueAt extension.text =
        .ok (Json.literal url) ∧
      url = extension.scheme.map lowerAscii ++ .char ':' :: r := by
  have hany : ((staticImport (some (Text.ofString "./x.js"))).valueAt extension.text).toOption.any
      (· = Json.literal (Text.ofString "./x.js")) = true := by decide +kernel
  obtain ⟨v, hv, htext⟩ := Except.exists_of_any hany
  obtain rfl := of_decide_eq_true htext
  refine ⟨by decide, hv, ?_⟩
  rintro ⟨url, r, hurl, rfl⟩
  rw [hv] at hurl
  -- the texts differ in the first character behind the quote
  have hfirst : (Json.literal (Text.ofString "./x.js")).tail.head? = some (.char 'c') :=
    congrArg (fun t => t.tail.head?) (Except.ok.inj hurl)
  exact absurd hfirst (by decide)

end Substitution

end Relocation
