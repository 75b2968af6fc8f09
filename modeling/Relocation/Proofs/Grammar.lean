import Relocation.Proofs.Inside

/-!
# The grammar of tokens

Which sequences of tokens are well nested can be told from their kinds: every opening bracket is
closed by its own closer, and the chunks of a template stand directly inside of it.
`TokenStream.items_eq_ok`: items are made of exactly the streams that are well nested and complete.
`TokenStream.items_eq_error`: of any other stream the first fault is reported, in the order of its
tokens.
-/

namespace Relocation

namespace Token

/-- does a token of the kind stand by itself? -/
def Kind.isAtom : Kind → Bool
  | .name | .number | .string | .regex | .punct | .template => true
  | _ => false

mutual
/-- the kinds are those of one item -/
inductive IsItem : List Kind → Prop
  | atom {kind : Kind} : kind.isAtom = true → IsItem [kind]
  | group (b : Bracket) {inner : List Kind} :
    AreItems inner → IsItem (b.openKind :: (inner ++ [b.closeKind]))
  | block {inner : List Kind} :
    AreItems inner → IsItem (.module :: .openBrace :: (inner ++ [.closeBrace]))
  | template {rest : List Kind} : AreSubstitutions rest → IsItem (.templateHead :: rest)

/-- the kinds are those of a sequence of items -/
inductive AreItems : List Kind → Prop
  | nil : AreItems []
  | cons {first rest : List Kind} : IsItem first → AreItems rest → AreItems (first ++ rest)

/-- the kinds are those of a template's substitutions, each with the chunk behind it -/
inductive AreSubstitutions : List Kind → Prop
  | last {inner : List Kind} : AreItems inner → AreSubstitutions (inner ++ [.templateTail])
  | next {inner rest : List Kind} : AreItems inner → AreSubstitutions rest →
      AreSubstitutions (inner ++ .templateMiddle :: rest)
end

/-- something can come behind the kinds so that they are those of a sequence of items -/
def Viable (kinds : List Kind) : Prop := ∃ more, AreItems (kinds ++ more)

/-- the kinds of tokens -/
def kindsOf (ts : List (Token × Bool)) : List Kind := ts.map (·.1.kind)

@[simp] theorem kindsOf_nil : kindsOf [] = [] := rfl

@[simp] theorem kindsOf_cons (t : Token) (newline : Bool) (ts : List (Token × Bool)) :
    kindsOf ((t, newline) :: ts) = t.kind :: kindsOf ts := rfl

@[simp] theorem kindsOf_append (a b : List (Token × Bool)) :
    kindsOf (a ++ b) = kindsOf a ++ kindsOf b := List.map_append

theorem kindsOf_eq_cons {kind : Kind} {kinds : List Kind} {ts : List (Token × Bool)}
    (h : kindsOf ts = kind :: kinds) : ∃ t newline more, ts = (t, newline) :: more ∧ t.kind = kind ∧
    kindsOf more = kinds := by
  obtain ⟨⟨t, newline⟩, more, rfl, hk, hm⟩ := List.map_eq_cons_iff.1 h
  exact ⟨t, newline, more, rfl, hk, hm⟩

theorem kindsOf_eq_append {a b : List Kind} {ts : List (Token × Bool)} (h : kindsOf ts = a ++ b) :
    ∃ front back, ts = front ++ back ∧ kindsOf front = a ∧ kindsOf back = b :=
  List.map_eq_append_iff.1 h

theorem kindsOf_eq_nil {ts : List (Token × Bool)} (h : kindsOf ts = []) : ts = [] :=
  List.map_eq_nil_iff.1 h

theorem AreItems.append {a b : List Kind} (ha : AreItems a) (hb : AreItems b) :
    AreItems (a ++ b) := by
  match ha with
  | .nil => exact hb
  | .cons hi hr =>
    rw [List.append_assoc]
    exact .cons hi (hr.append hb)

theorem AreItems.singleton {a : List Kind} (h : IsItem a) : AreItems a := by
  simpa using AreItems.cons h .nil

theorem Viable.of_append {a b : List Kind} (h : Viable (a ++ b)) : Viable a := by
  obtain ⟨more, h⟩ := h
  exact ⟨b ++ more, by rwa [← List.append_assoc]⟩

end Token

open Token

/-! ## items have the kinds of the grammar, and the grammar allows no others -/

namespace Item

theorem isAtom_of_leafKind? {kind : Token.Kind} {k : Piece.Kind}
    (h : Nest.leafKind? kind = some k) : kind.isAtom = true := by
  cases kind <;> first | rfl | cases h

theorem eq_or_leafKind?_of_isAtom {kind : Token.Kind} (h : kind.isAtom = true) :
    kind = .template ∨ ∃ k, Nest.leafKind? kind = some k := by
  cases kind <;> first | exact .inl rfl | exact .inr ⟨_, rfl⟩ | cases h

mutual
theorem isItem_of_spans : ∀ {i : Item} {ts : List (Token × Bool)}, Spans i ts → IsItem (kindsOf ts)
  | .leaf _ _ _, _, h => by
    obtain ⟨token, newline, hk, -, -, rfl⟩ := h
    exact .atom (isAtom_of_leafKind? hk)
  | .group b _ _ _, _, h => by
    obtain ⟨first, newline, inner, last, hfirst, hlast, -, hinner, rfl⟩ := h
    simpa [hfirst, hlast] using IsItem.group b (areItems_of_spansAll hinner)
  | .template _ [] _, _, h => by
    obtain ⟨token, newline, hk, -, -, rfl⟩ := h
    exact .atom (congrArg Kind.isAtom hk)
  | .template _ (_ :: _) _, _, h => by
    obtain ⟨first, newline, inner, last, hk, -, -, hrest, rfl⟩ := h
    simpa [hk] using IsItem.template (areSubstitutions_of_spansRest hrest)
  | .block _ _ _, _, h => by
    obtain ⟨first, newline, brace, braceNewline, inner, last, hfirst, hbrace, hlast, -,
      hinner, rfl⟩ := h
    simpa [hfirst, hbrace, hlast] using IsItem.block (areItems_of_spansAll hinner)

theorem areItems_of_spansAll : ∀ {items : List Item} {ts : List (Token × Bool)}, SpansAll items ts →
    AreItems (kindsOf ts)
  | [], _, h => by
    obtain rfl := h
    exact .nil
  | _ :: _, _, h => by
    obtain ⟨a, b, ha, hb, rfl⟩ := h
    rw [kindsOf_append]
    exact .cons (isItem_of_spans ha) (areItems_of_spansAll hb)

theorem areSubstitutions_of_spansRest :
    ∀ {rest : List (List Item × Text)} {ts : List (Token × Bool)} {last : Token},
    SpansRest rest ts last → AreSubstitutions (kindsOf ts)
  | [], _, _, h => h.elim
  | [(_, _)], _, last, h => by
    obtain ⟨inner, newline, hinner, hk, -, rfl⟩ := h
    simpa [hk] using AreSubstitutions.last (areItems_of_spansAll hinner)
  | (_, _) :: _ :: _, _, _, h => by
    obtain ⟨inner, chunk, newline, more, hinner, hk, -, hmore, rfl⟩ := h
    simpa [hk] using AreSubstitutions.next (areItems_of_spansAll hinner)
      (areSubstitutions_of_spansRest hmore)
end

mutual
theorem exists_spans : ∀ {kinds : List Kind}, IsItem kinds → ∀ ts : List (Token × Bool),
    kindsOf ts = kinds → ∃ i, Spans i ts
  | _, @IsItem.atom kind hatom => by
    intro ts h
    obtain ⟨t, newline, more, rfl, hk, hm⟩ := kindsOf_eq_cons h
    obtain rfl := kindsOf_eq_nil hm
    rcases eq_or_leafKind?_of_isAtom hatom with rfl | ⟨k, hleaf⟩
    · exact ⟨.template _ [] _, t, newline, hk, rfl, rfl, rfl⟩
    · exact ⟨.leaf k _ _, t, newline, by rw [hk, hleaf], rfl, rfl, rfl⟩
  | _, .group b hinner => by
    intro ts h
    obtain ⟨first, newline, ts, rfl, hfirst, h⟩ := kindsOf_eq_cons h
    obtain ⟨inner, lasts, rfl, hin, h⟩ := kindsOf_eq_append h
    obtain ⟨last, closeNewline, more, rfl, hlast, h⟩ := kindsOf_eq_cons h
    obtain rfl := kindsOf_eq_nil h
    obtain ⟨items, hitems⟩ := exists_spansAll hinner inner hin
    exact ⟨.group b items _ closeNewline, first, newline, inner, last, hfirst, hlast, rfl,
      hitems, rfl⟩
  | _, .block hinner => by
    intro ts h
    obtain ⟨first, newline, ts, rfl, hfirst, h⟩ := kindsOf_eq_cons h
    obtain ⟨brace, braceNewline, ts, rfl, hbrace, h⟩ := kindsOf_eq_cons h
    obtain ⟨inner, lasts, rfl, hin, h⟩ := kindsOf_eq_append h
    obtain ⟨last, closeNewline, more, rfl, hlast, h⟩ := kindsOf_eq_cons h
    obtain rfl := kindsOf_eq_nil h
    obtain ⟨items, hitems⟩ := exists_spansAll hinner inner hin
    exact ⟨.block items _ closeNewline, first, newline, brace, braceNewline, inner, last, hfirst,
      hbrace, hlast, rfl, hitems, rfl⟩
  | _, .template hrest => by
    intro ts h
    obtain ⟨first, newline, ts, rfl, hfirst, h⟩ := kindsOf_eq_cons h
    obtain ⟨part, rest, last, hspans⟩ := exists_spansRest hrest ts h
    exact ⟨.template _ (part :: rest) _, first, newline, ts, last, hfirst, rfl, rfl, hspans, rfl⟩

theorem exists_spansAll : ∀ {kinds : List Kind}, AreItems kinds → ∀ ts : List (Token × Bool),
    kindsOf ts = kinds → ∃ items, SpansAll items ts
  | _, .nil => fun _ h => ⟨[], kindsOf_eq_nil h⟩
  | _, .cons hfirst hrest => by
    intro ts h
    obtain ⟨a, b, rfl, ha, hb⟩ := kindsOf_eq_append h
    obtain ⟨i, hi⟩ := exists_spans hfirst a ha
    obtain ⟨items, hitems⟩ := exists_spansAll hrest b hb
    exact ⟨i :: items, a, b, hi, hitems, rfl⟩

theorem exists_spansRest : ∀ {kinds : List Kind}, AreSubstitutions kinds →
    ∀ ts : List (Token × Bool), kindsOf ts = kinds →
      ∃ part rest last, SpansRest (part :: rest) ts last
  | _, .last hinner => by
    intro ts h
    obtain ⟨inner, lasts, rfl, hin, h⟩ := kindsOf_eq_append h
    obtain ⟨last, newline, more, rfl, hlast, h⟩ := kindsOf_eq_cons h
    obtain rfl := kindsOf_eq_nil h
    obtain ⟨items, hitems⟩ := exists_spansAll hinner inner hin
    exact ⟨(items, _), [], last, inner, newline, hitems, hlast, rfl, rfl⟩
  | _, .next hinner hrest => by
    intro ts h
    obtain ⟨inner, more, rfl, hin, h⟩ := kindsOf_eq_append h
    obtain ⟨chunk, newline, more, rfl, hchunk, h⟩ := kindsOf_eq_cons h
    obtain ⟨items, hitems⟩ := exists_spansAll hinner inner hin
    obtain ⟨part, rest, last, hspans⟩ := exists_spansRest hrest more h
    exact ⟨(items, _), part :: rest, last, inner, chunk, newline, more, hitems, hchunk, rfl,
      hspans, rfl⟩
end

end Item

/-! ## what has been taken can be completed -/

namespace Nest

variable {n : Nest} {ts a b : List (Token × Bool)}

/-- substitutions that are finished may come before others -/
theorem areSubstitutions_of_doneSpans {done : List (List Item × Text)} :
    ∀ {ts : List (Token × Bool)}, DoneSpans done ts → ∀ {rest : List Kind}, AreSubstitutions rest →
    AreSubstitutions (kindsOf ts ++ rest) := by
  induction done with
  | nil =>
    intro ts h rest hrest
    obtain rfl := h
    exact hrest
  | cons part done ih =>
    intro ts h rest hrest
    obtain ⟨inner, chunk, newline, more, hinner, hk, -, hmore, rfl⟩ := h
    simpa [hk] using AreSubstitutions.next (Item.areItems_of_spansAll hinner) (ih hmore hrest)

/-- an unfinished construct with a sequence inside can be closed -/
theorem exists_isItem {opener : Opener} {start : Nat} {newline : Bool}
    (h : OpenerSpans opener start newline ts) (hk : opener ≠ .keyword) {inner : List Kind}
    (hinner : AreItems inner) : ∃ closing, IsItem (kindsOf ts ++ (inner ++ closing)) := by
  cases opener with
  | group b =>
    obtain ⟨first, hfirst, -, rfl⟩ := h
    exact ⟨[b.closeKind], by simpa [hfirst] using IsItem.group b hinner⟩
  | keyword => exact absurd rfl hk
  | block =>
    obtain ⟨first, brace, braceNewline, hfirst, hbrace, -, rfl⟩ := h
    exact ⟨[.closeBrace], by simpa [hfirst, hbrace] using IsItem.block hinner⟩
  | template q done =>
    obtain ⟨first, parts, hfirst, -, -, hdone, rfl⟩ := h
    exact ⟨[.templateTail], by
      simpa [hfirst] using IsItem.template (areSubstitutions_of_doneSpans hdone (.last hinner))⟩

/-- unfinished constructs can be closed one after the other, whatever else comes before -/
theorem exists_areItems {frames : List Frame} : ∀ {items : List Item} {ts : List (Token × Bool)},
    FramesSpan frames items ts → (⟨frames, items⟩ : Nest).awaitsBrace = false →
    ∀ {more : List Kind}, AreItems more →
    ∃ closing, AreItems (kindsOf ts ++ (more ++ closing)) := by
  induction frames with
  | nil =>
    intro items ts h _ more hmore
    exact ⟨[], by simpa using (Item.areItems_of_spansAll h).append hmore⟩
  | cons f fs ih =>
    intro items ts h hn more hmore
    obtain ⟨opener, start, newline, before⟩ := f
    obtain ⟨a, b, c, ha, hbefore, ho, hc, rfl⟩ := h
    have hk : opener ≠ .keyword := by
      rintro rfl
      cases hn
    obtain ⟨closing, hitem⟩ := exists_isItem ho hk ((Item.areItems_of_spansAll hc).append hmore)
    obtain ⟨rest, hrest⟩ := ih ha hbefore (.singleton hitem)
    exact ⟨closing ++ rest, by simpa using hrest⟩

/-- tokens that have been taken can be completed -/
theorem viable_of_spans (h : n.Spans ts) : Viable (kindsOf ts) := by
  obtain ⟨frames, items⟩ := n
  cases hn : (⟨frames, items⟩ : Nest).awaitsBrace with
  | false =>
    obtain ⟨closing, hall⟩ := exists_areItems h.1 hn .nil
    exact ⟨_, hall⟩
  | true =>
    -- the brace of the block is still to come
    obtain rfl : items = [] := h.2 hn
    unfold awaitsBrace at hn
    split at hn
    · rename_i start newline before fs hf
      obtain rfl : frames = ⟨.keyword, start, newline, before⟩ :: fs := hf
      obtain ⟨a, b, c, ha, hbefore, ⟨first, hfirst, -, rfl⟩, rfl, rfl⟩ := h.1
      have hblock : IsItem [.module, .openBrace, .closeBrace] := .block .nil
      obtain ⟨closing, hall⟩ := exists_areItems ha hbefore (.singleton hblock)
      exact ⟨.openBrace :: .closeBrace :: closing, by simpa [hfirst] using hall⟩
    · cases hn

theorem pushAll_append (n : Nest) (a b : List (Token × Bool)) :
    n.pushAll (a ++ b) = n.pushAll a >>= fun n' => n'.pushAll b := by
  induction a generalizing n with
  | nil => rfl
  | cons t a ih =>
    obtain ⟨t, newline⟩ := t
    rw [List.cons_append, pushAll, pushAll]
    cases n.push t newline with
    | none => rfl
    | some n' => exact ih n'

theorem spans_nil : ({} : Nest).Spans [] := ⟨rfl, fun h => by cases h⟩

/-- what can be completed is taken -/
theorem exists_pushAll_of_viable (h : Viable (kindsOf ts)) : ∃ n, pushAll {} ts = .ok n := by
  obtain ⟨more, h⟩ := h
  -- any tokens of the kinds will do to complete the sequence
  have hmore : kindsOf (more.map fun kind => (⟨kind, [], .start, .start⟩, false)) = more := by
    simp [kindsOf, Function.comp_def]
  obtain ⟨items, hitems⟩ :=
    Item.exists_spansAll h (ts ++ more.map fun kind => (⟨kind, [], .start, .start⟩, false))
      (by rw [kindsOf_append, hmore])
  have hall := pushAll_of_spansAll hitems {} rfl []
  rw [List.append_nil, pushAll_append] at hall
  obtain ⟨n, hn, -⟩ := Except.bind_eq_ok.1 hall
  exact ⟨n, hn⟩

/-- a token is refused if nothing behind it completes the sequence, and no token before it is one of
these -/
theorem pushAll_eq_error {e : Failure} (h : pushAll {} ts = .error e) :
    ∃ a t newline b, ts = a ++ (t, newline) :: b ∧ Viable (kindsOf a) ∧
    ¬ Viable (kindsOf (a ++ [(t, newline)])) ∧
      e = .sourceAt t.start (.unbalanced t.text) := by
  have hfrom : ∀ (b a : List (Token × Bool)) (n : Nest), pushAll {} a = .ok n →
      n.pushAll b = .error e → ∃ c t newline d, a ++ b = c ++ (t, newline) :: d ∧
      Viable (kindsOf c) ∧ ¬ Viable (kindsOf (c ++ [(t, newline)])) ∧
        e = .sourceAt t.start (.unbalanced t.text) := by
    intro b
    induction b with
    | nil =>
      intro a n _ h
      cases h
    | cons t b ih =>
      intro a n ha h
      obtain ⟨t, newline⟩ := t
      have hone : n.pushAll [(t, newline)] = pushAll {} (a ++ [(t, newline)]) := by
        rw [pushAll_append, ha]
        rfl
      rw [pushAll] at h
      cases hp : n.push t newline with
      | none =>
        rw [hp] at h
        refine ⟨a, t, newline, b, rfl, viable_of_spans (spans_of_pushAll spans_nil ha),
          fun hv => ?_, (Except.error.inj h).symm⟩
        obtain ⟨n', hn'⟩ := exists_pushAll_of_viable hv
        rw [← hone, pushAll, hp] at hn'
        cases hn'
      | some n' =>
        rw [hp] at h
        rw [pushAll, hp] at hone
        obtain ⟨c, t', newline', d, hcd, hrest⟩ := ih (a ++ [(t, newline)]) n' hone.symm h
        exact ⟨c, t', newline', d, by simpa using hcd, hrest⟩
  exact hfrom ts [] {} rfl h

end Nest

/-! ## streams -/

namespace TokenStream

variable {s : TokenStream} {items : List Item} {e : Failure}

/-- the kinds of a stream's tokens -/
def kinds (s : TokenStream) : List Kind := s.tokens.map (·.kind)

theorem map_kind_map_fst (ts : List (Token × Bool)) : (ts.map (·.1)).map (·.kind) = kindsOf ts :=
  List.map_map

theorem kindsOf_withBreaks (last : Option Nat) (ts : List Token) :
    kindsOf (withBreaks last ts) = ts.map (·.kind) := by
  rw [← map_kind_map_fst, Lexeme.map_fst_withBreaks]

theorem items_eq_ok :
    s.items = .ok items ↔ s.failure = none ∧ Item.SpansAll items (withBreaks none s.tokens) := by
  constructor
  · intro h
    obtain ⟨n, hpush, h⟩ := Except.bind_eq_ok.1 h
    have hspans := Nest.spans_of_pushAll Nest.spans_nil hpush
    cases hfailure : s.failure with
    | some failure =>
      rw [hfailure] at h
      cases h
    | none =>
      rw [hfailure] at h
      obtain ⟨frames, items'⟩ := n
      cases frames with
      | cons f fs => cases h
      | nil =>
        obtain rfl := Except.ok.inj h
        exact ⟨rfl, hspans.1⟩
  · rintro ⟨hfailure, hspans⟩
    have hpush := Nest.pushAll_of_spansAll hspans {} rfl []
    rw [List.append_nil, List.append_nil] at hpush
    simp [TokenStream.items, hpush, hfailure, Nest.pushAll, Nest.finish, bind, Except.bind]

theorem exists_items_iff : (∃ items, s.items = .ok items) ↔ s.failure = none ∧
    AreItems s.kinds := by
  constructor
  · rintro ⟨items, h⟩
    obtain ⟨hfailure, hspans⟩ := items_eq_ok.1 h
    have := Item.areItems_of_spansAll hspans
    exact ⟨hfailure, by rwa [kindsOf_withBreaks] at this⟩
  · rintro ⟨hfailure, hitems⟩
    obtain ⟨items, hspans⟩ := Item.exists_spansAll hitems _ (kindsOf_withBreaks none s.tokens)
    exact ⟨items, items_eq_ok.2 ⟨hfailure, hspans⟩⟩

/-- the fault that comes first: a token behind which nothing completes the sequence, else the lexeme
that ended the stream, else the end of a sequence that is not complete -/
inductive FirstFault (s : TokenStream) : Failure → Prop
  | token {before after : List Token} {t : Token} (htokens : s.tokens = before ++ t :: after)
    (hbefore : Viable (before.map (·.kind))) (ht : ¬ Viable ((before ++ [t]).map (·.kind))) :
    FirstFault s (.sourceAt t.start (.unbalanced t.text))
  | lexeme {e : Failure} (hviable : Viable s.kinds) (hfailure : s.failure = some e) : FirstFault s e
  | ending (hviable : Viable s.kinds) (hfailure : s.failure = none) (hopen : ¬ AreItems s.kinds) :
    FirstFault s (.sourceAt ((s.tokens.getLast?.map (·.start)).getD .start) .unclosed)

theorem items_eq_error (h : s.items = .error e) : s.FirstFault e := by
  have herror := h
  rcases Except.bind_eq_error.1 h with h | ⟨n, hpush, h⟩
  · obtain ⟨a, t, newline, b, hts, hviable, hstop, rfl⟩ := Nest.pushAll_eq_error h
    have htokens := Lexeme.map_fst_withBreaks none s.tokens
    rw [hts, List.map_append, List.map_cons] at htokens
    refine .token htokens.symm ?_ ?_
    · rwa [map_kind_map_fst]
    · rw [kindsOf_append] at hstop
      rwa [List.map_append, map_kind_map_fst]
  · have hviable := Nest.viable_of_spans (Nest.spans_of_pushAll Nest.spans_nil hpush)
    rw [List.nil_append, kindsOf_withBreaks] at hviable
    cases hfailure : s.failure with
    | some failure =>
      rw [hfailure] at h
      obtain rfl := Except.error.inj h
      exact .lexeme hviable hfailure
    | none =>
      rw [hfailure] at h
      obtain ⟨frames, items'⟩ := n
      cases frames with
      | nil => cases h
      | cons f fs =>
        obtain rfl := Except.error.inj h
        refine .ending hviable hfailure fun hitems => ?_
        obtain ⟨items, hok⟩ := exists_items_iff.2 ⟨hfailure, hitems⟩
        rw [herror] at hok
        cases hok

end TokenStream

end Relocation
