import Relocation.Proofs.Clear
import Relocation.Proofs.Escaped
import Relocation.Proofs.Patching
import Relocation.Proofs.Scalar

/-!
# What a plan gives

Rendering a plan for a module's place changes the text at its splits only, and there each time by
one string literal: `Program.read_spliced` says so of the tokens.  The text that comes out can be
read, and no member of `import.meta` is left in it.
-/

namespace Relocation

namespace Split

/-- what a split of a text stands for in a module at `metaUrl` -/
def Means (text metaUrl : Text) (s : Split) (value : Text) : Prop :=
  match s.kind with
  | .metaUrl => value = metaUrl
  | .staticImport =>
    ∃ specifier, Literal.value (s.slice text) = .ok specifier ∧
      Url.resolve metaUrl specifier = .ok value
  | .other _ => False

/-- the tokens in kind and text, with one string literal in the place of those of each split, whose
value the split means -/
inductive Spliced (means : Split → Text → Prop) : List Split → List Token →
    List (Token.Kind × Text) → Prop
  | nil : Spliced means [] [] []
  | keep (t : Token) {splits : List Split} {ts : List Token} {out : List (Token.Kind × Text)} :
    Spliced means splits ts out → Spliced means splits (t :: ts) ((t.kind, t.text) :: out)
  | splice {s : Split} {first : Token} {more : List Token} {value literal : Text}
    {splits : List Split} {ts : List Token} {out : List (Token.Kind × Text)} :
    s.start = first.start.offset →
    s.stop = ((first :: more).getLast (List.cons_ne_nil first more)).stop.offset →
    means s value → Literal.value literal = .ok value → Spliced means splits ts out →
    Spliced means (s :: splits) (first :: more ++ ts) ((.string, literal) :: out)

/-- what a plan fills in for a split -/
def filled (text metaUrl : Text) (s : Split) : Text :=
  (Substitution.ofSplit text s >>= (·.valueAt metaUrl)).toOption.getD []

variable {text metaUrl : Text} {s : Split} {frozen : Split → Text} {known splits : List Split}

/-- for a split that means something, the JSON literal of that is filled in -/
theorem exists_filled (hmeta : metaUrl.Scalar)
    (h : s.kind = .metaUrl ∨
      s.kind = .staticImport ∧ ∃ specifier, Literal.value (s.slice text) = .ok specifier ∧
      specifier.Scalar ∧ ∃ url, Url.resolve metaUrl specifier = .ok url) :
    ∃ substitution value, Substitution.ofSplit text s = .ok substitution ∧
      substitution.valueAt metaUrl = .ok (filled text metaUrl s) ∧
      filled text metaUrl s = Json.literal value ∧ Means text metaUrl s value ∧
      Literal.value (filled text metaUrl s) = .ok value := by
  have hvalue :
      ∀ (substitution : Substitution) {value : Text},
      Substitution.ofSplit text s = .ok substitution →
      substitution.valueAt metaUrl = .ok (Json.literal value) → value.Scalar →
      Means text metaUrl s value →
      ∃ substitution value, Substitution.ofSplit text s = .ok substitution ∧
        substitution.valueAt metaUrl = .ok (filled text metaUrl s) ∧
        filled text metaUrl s = Json.literal value ∧ Means text metaUrl s value ∧
        Literal.value (filled text metaUrl s) = .ok value := by
    intro substitution value hsubstitution hvalue hscalar hmeans
    have hfilled : filled text metaUrl s = Json.literal value := by
      rw [filled, hsubstitution]
      show ((substitution.valueAt metaUrl).toOption).getD [] = _
      rw [hvalue]
      rfl
    refine ⟨substitution, value, hsubstitution, hvalue.trans (by rw [hfilled]), hfilled, hmeans, ?_⟩
    rw [hfilled, Literal.value_literal, Literal.requoted_of_scalar (List.all_eq_true.2 hscalar)]
  rcases h with hk | ⟨hk, specifier, hspecifier, hscalar, url, hurl⟩
  · exact hvalue .metaUrl (by rw [Substitution.ofSplit, hk]) rfl hmeta (by rw [Means, hk])
  · refine hvalue (.staticImport (some specifier)) ?_ ?_ (Url.scalar_resolve hmeta hscalar hurl) ?_
    · rw [slice] at hspecifier
      rw [Substitution.ofSplit, hk]
      simp only [hspecifier]
      rfl
    · rw [Substitution.valueAt, hurl]
    · rw [Means, hk]
      exact ⟨specifier, hspecifier, hurl⟩

theorem isString_literal (t : Text) : Lexeme.IsString (Json.literal t) := by
  refine ⟨Literal.quotedBody t ++ [.char '"'], rfl, fun rest => ?_⟩
  rw [List.append_assoc, List.singleton_append, Lexical.stringLength?_quotedBody,
    List.length_append]
  rfl

/-- the words with strings in the place of splits, as tokens -/
theorem Freezes.spliced (means : Split → Text → Prop) {ts : List (Token × Bool)} {ws : List Word}
    (h : Freezes frozen known splits ts ws)
    (hmeans : ∀ s ∈ known, ∃ value, means s value ∧ Literal.value (frozen s) = .ok value) :
    Spliced means splits (ts.map (·.1)) (ws.map fun w => (w.kind, w.text)) := by
  induction h with
  | nil => exact .nil
  | keep t _ ih => exact .keep t.1 ih
  | @fill s t newline more splits ts ws hs hfills _ ih =>
    obtain ⟨value, hvalue, hliteral⟩ := hmeans s hs
    obtain ⟨_, _, _, heq, hstart, -⟩ := hfills.first
    obtain ⟨rfl, -⟩ := Prod.mk.inj (List.cons.inj heq).1
    obtain ⟨final, hfinal, hstop⟩ := hfills.last
    have hlast : (t :: more.map (·.1)).getLast (List.cons_ne_nil _ _) = final.1 := by
      have : (((t, newline) :: more).map (·.1)).getLast? = some final.1 := by
        rw [List.getLast?_map, hfinal]; rfl
      exact Option.some.inj ((List.getLast?_eq_getLast_of_ne_nil _).symm.trans this)
    rw [List.map_append, List.map_cons]
    exact .splice hstart (by rw [hlast, hstop]) hvalue hliteral ih

end Split

/-! ## texts -/

namespace Lexeme

open Token.Context (openings)

/-- a string literal begins with a quote -/
theorem opening_of_cuts {ctx : Token.Context} {ls : List Lexeme} {rest : Text}
    (h : Cuts ctx ls rest) : ∀ l ∈ ls, l.front = .token .string → ∃ c t, l.text = c :: t ∧
    c ∈ openings := by
  induction ls generalizing ctx with
  | nil => exact fun l hl => by cases hl
  | cons l ls ih =>
    obtain ⟨⟨c, t, ht, hread⟩, hls⟩ := h
    refine List.forall_mem_cons.2 ⟨fun hfront => ⟨c, t, ht, ?_⟩, ih hls⟩
    rw [hfront] at hread
    rcases hread.of_string.1 with rfl | rfl <;> decide

end Lexeme

namespace Program

open Split Lexeme

variable {text metaUrl : Text} {p : Program} {splits : List Split}

/-- the name of a member of `import.meta`, where it is the last token of a split, is none of the
words behind which a regular expression or the head of a statement can begin -/
def EndsPlainly (text : Text) (splits : List Split) : Prop :=
  ∀ t ∈ (TokenStream.ofText text).tokens, t.kind = .name → ∀ s ∈ splits, s.kind = .metaUrl →
    s.stop = t.stop.offset → Token.operatorWords.contains t.text = false ∧
    Token.headWords.contains t.text = false

theorem tokens_of_cut {all : List Lexeme} (hcut : cut text = (all, none)) :
    (TokenStream.ofText text).failure = none ∧
    (TokenStream.ofText text).tokens = (marked all).map (·.1) := by
  simp only [TokenStream.ofText, hcut, marked, map_fst_withBreaks]
  exact ⟨rfl, trivial⟩

theorem ready_of_cut {line ls : List Lexeme} (hcut : cut text = (line ++ ls, none))
    (hline : ∀ l ∈ line, l.front = .gap) (hcuts : Cuts {} ls [])
    (hplain : EndsPlainly text splits) : ∀ t ∈ marked (line ++ ls), Ready splits t := by
  intro t ht
  have hword : Word.ofToken t ∈ words none ls := by
    rw [← words_gaps hline, ← map_marked]
    exact List.mem_map_of_mem ht
  refine ⟨shaped_of_mem_words (shaped_of_cuts hcuts) _ hword, fun hk => ?_, fun hk => ?_⟩
  · obtain ⟨l, hl, hfront, htext⟩ := exists_of_mem_words hword
    obtain ⟨c, r, hc, hopening⟩ := opening_of_cuts hcuts l hl (hfront.trans (by rw [← hk]; rfl))
    exact ⟨c, r, htext.symm.trans hc, hopening⟩
  · refine hplain t.1 ?_ hk
    rw [(tokens_of_cut hcut).2]
    exact List.mem_map_of_mem ht

/-- what was read lies in the text -/
theorem placedAll_of_read (hread : read text = .ok p) : Item.PlacedAll 0 text.length p.items := by
  obtain ⟨-, line, ls, -, htext, hline, hcuts, hspans⟩ := cuts_of_read hread
  have hrun := run_withBreaks (text_ne_nil_of_cuts hcuts) (Lexeme.stop .start line) none
  rw [← tokens_gaps hline, ← marked, ← stop_append] at hrun
  have hstop : (Lexeme.stop .start (line ++ ls)).offset = text.length := by
    rw [offset_stop, textOf_append, htext]
    exact Nat.zero_add _
  exact Item.placedAll_of_spansAll hspans 0 text.length (hrun.mono (Nat.zero_le _) hstop.le)

/-- the splits of a text that was read are those that scanning finds, in the order of their
starts -/
theorem splits_of_read (hread : read text = .ok p) (hsplits : p.splits = .ok splits) :
    ∃ found, scanFrom false 0 p.items = .ok found ∧ splits = sorted found := by
  rw [Program.splits, (cuts_of_read hread).1] at hsplits
  obtain ⟨found, hfound, hsplits⟩ := Except.bind_eq_ok.1 hsplits
  exact ⟨found, hfound, (Except.ok.inj hsplits).symm⟩

/-- the splits of a text that was read lie in it, and are of the kinds that scanning finds -/
theorem within_splits (hread : read text = .ok p) (hsplits : p.splits = .ok splits) :
    ∀ s ∈ splits, s.Within 0 text.length := by
  obtain ⟨found, hfound, rfl⟩ := splits_of_read hread hsplits
  exact fun s hs => within_scanFrom 0 (placedAll_of_read hread) false found hfound s
    (mem_sorted.1 hs)

/-- string literals take the place of the splits of a program's text: how that text is cut, and what
is read from it -/
theorem exists_body (frozen : Split → Text) (hread : read text = .ok p)
    (hsplits : p.splits = .ok splits) (hapart : splits.Pairwise Apart)
    (hplain : EndsPlainly text splits) (hstring : ∀ s ∈ splits, IsString (frozen s)) :
    ∃ ts ws body all items, ts.map (·.1) = (TokenStream.ofText text).tokens ∧
    Freezes frozen splits splits ts ws ∧
      Ascending splits ∧ Patched frozen 0 splits text body ∧ cut body = (all, none) ∧
      words none all = ws ∧ read body = .ok ⟨items, some body⟩ ∧ Item.ClearAll false items := by
  obtain ⟨-, _, _, hcut, -, -, -, hspans⟩ := cuts_of_read hread
  obtain ⟨ls, hall, htext, hcuts⟩ := cuts_behind_hashbang hcut
  have hline := hashbang_gap text
  rw [hall] at hcut hspans
  obtain ⟨found, hfound, rfl⟩ := splits_of_read hread hsplits
  have hready := ready_of_cut hcut hline hcuts hplain
  have hrun := run_withBreaks (text_ne_nil_of_cuts hcuts) (Lexeme.stop .start (hashbang text)) none
  rw [← tokens_gaps hline, ← marked] at hrun
  have hrun := hrun.mono (Nat.zero_le _) (Nat.le_refl _)
  obtain ⟨ws, hfreezes, hspells⟩ := exists_freezes_sorted frozen hspans hrun hfound hready hapart
  have hmarked :
      Token.withBreaks none (tokens (Lexeme.stop .start (hashbang text)) ls) =
        marked (hashbang text ++ ls) := by
    rw [← tokens_gaps hline]
    rfl
  obtain ⟨ls', hrefilled, hwords, hpatched⟩ :=
    hfreezes.exists_refilled hstring (fun line h => by cases h) hmarked
  rw [offset_stop] at hpatched
  have hpatched :
      Patched frozen 0 (sorted found) (textOf (hashbang text) ++ textOf ls)
        (textOf (hashbang text) ++ textOf ls') :=
    hpatched.prepend
  rw [htext] at hpatched
  have hcut' := hrefilled.cut htext hcuts
  have hwords' : words none (hashbang text ++ ls') = ws := by rw [words_gaps hline, ← hwords]; rfl
  rw [← hwords', ← map_marked] at hspells
  obtain ⟨items, hitems, hun⟩ := Item.spansAll_of_spellsAll hspells
  refine ⟨_, ws, _, _, items, (tokens_of_cut hcut).2.symm, hfreezes, (hfreezes.ascending hrun).1,
    hpatched, hcut', hwords', read_of_cut hcut' hitems, ?_⟩
  rw [← Item.clearAll_unplacedAll, hun, Item.clearAll_unplacedAll]
  exact clearAll_freezeFrom 0 false (fun h => absurd h (lt_irrefl 0)) found hfound

/-- Rendering the plan of a text replaces the tokens of each of its splits by one string literal,
and keeps all the others.  So the text that comes out can be read, and no member of `import.meta` is
found in it. -/
theorem read_spliced (hread : read text = .ok p) (hsplits : p.splits = .ok splits)
    (hapart : splits.Pairwise Apart) (hplain : EndsPlainly text splits) (hmeta : metaUrl.Scalar)
    (hspecifiers : ∀ s ∈ splits, s.kind = .staticImport →
      ∃ specifier, Literal.value (s.slice text) = .ok specifier ∧
        specifier.Scalar ∧ ∃ url, Url.resolve metaUrl specifier = .ok url) :
    ∃ plan body p', Plan.ofSplits text splits = .ok plan ∧ plan.textAt metaUrl = .ok body ∧
      (TokenStream.ofText body).failure = none ∧
      Spliced (Means text metaUrl) splits (TokenStream.ofText text).tokens
        ((TokenStream.ofText body).tokens.map fun t => (t.kind, t.text)) ∧
      read body = .ok p' ∧ (∀ found, p'.splits = .ok found → ∀ s ∈ found, s.kind ≠ .metaUrl) ∧
      ∀ e, p'.splits = .error e → e.IsEscape := by
  have hfilled :
      ∀ s ∈ splits, ∃ substitution value, Substitution.ofSplit text s = .ok substitution ∧
      substitution.valueAt metaUrl = .ok (filled text metaUrl s) ∧
      filled text metaUrl s = Json.literal value ∧ Means text metaUrl s value ∧
      Literal.value (filled text metaUrl s) = .ok value := by
    intro s hs
    refine exists_filled hmeta ?_
    cases hk : s.kind with
    | metaUrl => exact .inl rfl
    | staticImport => exact .inr ⟨rfl, hspecifiers s hs hk⟩
    | other label => exact absurd hk ((within_splits hread hsplits s hs).kind label)
  obtain ⟨ts, ws, body, all, items, hts, hfreezes, hascending, hpatched, hcut, hwords,
    hread', hclear⟩ :=
    exists_body (filled text metaUrl) hread hsplits hapart hplain fun s hs => by
      obtain ⟨_, value, -, -, hliteral, -⟩ := hfilled s hs
      rw [hliteral]
      exact isString_literal value
  obtain ⟨plan, hplan, hfill⟩ :=
    Plan.fill_of_patched (·.valueAt metaUrl) hpatched hascending fun s hs => by
    obtain ⟨substitution, _, hsubstitution, hvalue, -⟩ := hfilled s hs
    exact ⟨substitution, hsubstitution, hvalue⟩
  have hspliced := hfreezes.spliced (Means text metaUrl) fun s hs => by
    obtain ⟨_, value, -, -, -, hmeans, hliteral⟩ := hfilled s hs
    exact ⟨value, hmeans, hliteral⟩
  obtain ⟨hfailure, htokens⟩ := tokens_of_cut hcut
  refine ⟨plan, body, ⟨items, some body⟩, hplan, hfill, hfailure, ?_, hread', fun found h => ?_,
    fun e h => ?_⟩
  · rw [hts, ← hwords, ← map_marked] at hspliced
    rw [htokens]
    simpa [Function.comp_def, Word.ofToken] using hspliced
  · obtain ⟨found, hfound, h⟩ := Except.bind_eq_ok.1 h
    obtain rfl := Except.ok.inj h
    intro s hs
    rw [kind_of_scanFrom hclear found hfound s (mem_sorted.1 hs)]
    simp
  · rcases Except.bind_eq_error.1 h with h | ⟨_, -, h⟩
    · exact isEscape_scanFrom (Item.outerBlocksAll_of_clearAll hclear) false 0 e h
    · cases h

theorem read_spliced_import :
    ∃ plan body p', Plan.ofSplits (Text.ofString "import \"./a\"; f(import.meta.url)")
        [⟨.staticImport, 7, 12⟩, ⟨.metaUrl, 16, 31⟩] = .ok plan ∧
      plan.textAt (Text.ofString "https://e/m.js") = .ok body ∧
      (TokenStream.ofText body).failure = none ∧
      Spliced
        (Means (Text.ofString "import \"./a\"; f(import.meta.url)") (Text.ofString "https://e/m.js"))
        [⟨.staticImport, 7, 12⟩, ⟨.metaUrl, 16, 31⟩]
        (TokenStream.ofText (Text.ofString "import \"./a\"; f(import.meta.url)")).tokens
        ((TokenStream.ofText body).tokens.map fun t => (t.kind, t.text)) ∧
      read body = .ok p' ∧ (∀ found, p'.splits = .ok found → ∀ s ∈ found, s.kind ≠ .metaUrl) ∧
      ∀ e, p'.splits = .error e → e.IsEscape := by
  have hscan :
      (read (Text.ofString "import \"./a\"; f(import.meta.url)") >>= fun p =>
      scanFrom false 0 p.items) = .ok [⟨.staticImport, 7, 12⟩, ⟨.metaUrl, 16, 31⟩] := by
    decide +kernel
  obtain ⟨p, hread, hsplits⟩ := exists_read_splits hscan (by decide)
  refine read_spliced hread hsplits ?_ ?_ (Text.scalar_ofString _) ?_
  · exact List.pairwise_pair.2 (.inl (by decide))
  · unfold EndsPlainly
    decide +kernel
  · intro s hs hk
    rcases List.mem_cons.1 hs with rfl | hs
    · exact ⟨Text.ofString "./a", by decide +kernel, Text.scalar_ofString _,
        Text.ofString "https://e/a", by decide +kernel⟩
    · rw [List.mem_singleton.1 hs] at hk
      cases hk

end Program

end Relocation
