import Relocation.Proofs.Disjoint
import Relocation.Proofs.Splicing

/-!
# Declarations with a specifier

`Split.Declares` lists the forms of import and re-export declarations.  The specifier of each of
them is claimed by the keyword in front (`Split.specifier?_of_declares`), unless the declaration
binds the name `from`, which is then taken for the clause.  So every local path that a program
declares is among its splits (`Program.exists_split_of_declares`).
-/

namespace Relocation

open Item (Encloses)

namespace Split

variable {i s : Item} {r bound clause items : List Item}

/-! ## the forms of declarations -/

/-- a name that is not the keyword of another declaration -/
def IsBinding (i : Item) : Prop :=
  i.isAnyName = true ∧ i.isName "import" = false ∧ i.isName "export" = false

/-- what stands between `import` and `from`, with the names that are bound -/
inductive ImportClause : (bound clause : List Item) → Prop
  | name {b : Item} : IsBinding b → ImportClause [b] [b]
  | braces {names : Item} : names.isGroup .brace = true → ImportClause [] [names]
  | star {star as b : Item} : star.isPunct "*" = true → as.isName "as" = true → IsBinding b →
      ImportClause [b] [star, as, b]
  | nameBraces {b comma names : Item} : IsBinding b → comma.isPunct "," = true →
      names.isGroup .brace = true →
    ImportClause [b] [b, comma, names]
  | nameStar {b comma star as b' : Item} : IsBinding b → comma.isPunct "," = true →
      star.isPunct "*" = true →
    as.isName "as" = true → IsBinding b' → ImportClause [b, b'] [b, comma, star, as, b']

/-- what stands between `export` and `from` -/
inductive ExportClause : List Item → Prop
  | star {star : Item} : star.isPunct "*" = true → ExportClause [star]
  | starAs {star as name : Item} : star.isPunct "*" = true → as.isName "as" = true →
    name.isAnyName = true ∨ name.isString = true → ExportClause [star, as, name]
  | braces {names : Item} : names.isGroup .brace = true → ExportClause [names]

/-- the items begin with a declaration that takes something from the specifier `s`, and binds these
names -/
inductive Declares (s : Item) : (bound items : List Item) → Prop
  | bare {head : Item} {after : List Item} : head.isName "import" = true →
      Declares s [] (head :: s :: after)
  | imports {head word : Item} {bound clause after : List Item} : head.isName "import" = true →
    ImportClause bound clause → word.isName "from" = true →
    Declares s bound (head :: (clause ++ word :: s :: after))
  | reexports {head word : Item} {clause after : List Item} : head.isName "export" = true →
    ExportClause clause →
    word.isName "from" = true → Declares s [] (head :: (clause ++ word :: s :: after))

/-! ## what the keyword claims -/

/-- the search for `from` goes on behind the item -/
def IsPassed (i : Item) : Prop :=
  i.isPunct ";" = false ∧ i.isName "import" = false ∧ i.isName "export" = false ∧
    i.isName "from" = false

theorem isPassed_of_isBinding (h : IsBinding i) (hfrom : i.isName "from" = false) : IsPassed i := by
  obtain ⟨hname, himport, hexport⟩ := h
  obtain ⟨t, m, rfl⟩ := Item.exists_of_isAnyName hname
  exact ⟨rfl, himport, hexport, hfrom⟩

theorem isPassed_of_isGroup {b : Bracket} (h : i.isGroup b = true) : IsPassed i := by
  obtain ⟨items, m, c, rfl⟩ := Item.exists_of_isGroup h
  exact ⟨rfl, rfl, rfl, rfl⟩

theorem isPassed_of_isPunct {t : Text} (h : i.isPunct t = true) (ht : t ≠ ";") : IsPassed i := by
  obtain ⟨m, rfl⟩ := Item.exists_of_isPunct h
  exact ⟨decide_eq_false ht, rfl, rfl, rfl⟩

theorem isPassed_as (h : i.isName "as" = true) : IsPassed i := by
  obtain ⟨m, rfl⟩ := Item.exists_of_isName h
  exact ⟨rfl, rfl, rfl, rfl⟩

theorem ImportClause.isPassed (h : ImportClause bound clause)
    (hfrom : ∀ b ∈ bound, b.isName "from" = false) : ∀ i ∈ clause, IsPassed i := by
  have hbound : ∀ b ∈ bound, IsBinding b → IsPassed b :=
    fun b hb hbinding => isPassed_of_isBinding hbinding (hfrom b hb)
  have hstar {star : Item} (h : star.isPunct "*" = true) : IsPassed star :=
    isPassed_of_isPunct h (by decide)
  have hcomma {comma : Item} (h : comma.isPunct "," = true) : IsPassed comma :=
    isPassed_of_isPunct h (by decide)
  cases h with
  | name hb => simpa using hbound _ (by simp) hb
  | braces hnames => simpa using isPassed_of_isGroup hnames
  | star h has hb => simpa using ⟨hstar h, isPassed_as has, hbound _ (by simp) hb⟩
  | nameBraces hb h hnames =>
    simpa using ⟨hbound _ (by simp) hb, hcomma h, isPassed_of_isGroup hnames⟩
  | nameStar hb h h' has hb' =>
    simpa using ⟨hbound _ (by simp) hb, hcomma h, hstar h', isPassed_as has, hbound _ (by simp) hb'⟩

theorem fromClause?_of_isPassed (h : ∀ i ∈ clause, IsPassed i) :
    fromClause? (clause ++ r) = fromClause? r := by
  induction clause with
  | nil => rfl
  | cons i clause ih =>
    obtain ⟨⟨hpunct, himport, hexport, hfrom⟩, h⟩ := List.forall_mem_cons.1 h
    rw [List.cons_append, fromClause?]
    simp only [hpunct, himport, hexport, hfrom, Bool.or_self, Bool.false_eq_true, if_false]
    exact ih h

/-- the item begins neither a member nor a call, and is no string -/
def Opens (i : Item) : Prop := i.isPunct "." = false ∧ i.isGroup .paren = false ∧ i.isString = false

theorem opens_of_isAnyName (h : i.isAnyName = true) : Opens i := by
  obtain ⟨t, m, rfl⟩ := Item.exists_of_isAnyName h
  exact ⟨rfl, rfl, rfl⟩

theorem opens_of_isBrace (h : i.isGroup .brace = true) : Opens i := by
  obtain ⟨items, m, c, rfl⟩ := Item.exists_of_isGroup h
  exact ⟨rfl, rfl, rfl⟩

theorem opens_star (h : i.isPunct "*" = true) : Opens i := by
  obtain ⟨m, rfl⟩ := Item.exists_of_isPunct h
  exact ⟨rfl, rfl, rfl⟩

theorem ImportClause.exists_opens (h : ImportClause bound clause) : ∃ i r, clause = i :: r ∧
    Opens i := by
  cases h with
  | name hb => exact ⟨_, _, rfl, opens_of_isAnyName hb.1⟩
  | braces hnames => exact ⟨_, _, rfl, opens_of_isBrace hnames⟩
  | star hstar => exact ⟨_, _, rfl, opens_star hstar⟩
  | nameBraces hb => exact ⟨_, _, rfl, opens_of_isAnyName hb.1⟩
  | nameStar hb => exact ⟨_, _, rfl, opens_of_isAnyName hb.1⟩

theorem importedFrom?_of_opens (h : Opens i) : importedFrom? (i :: r) = fromClause? (i :: r) := by
  obtain ⟨hpoint, hparen, hstring⟩ := h
  simp only [importedFrom?, hpoint, hparen, hstring, Bool.or_self, Bool.false_eq_true, if_false]

theorem importedFrom?_of_isString (hs : s.isString = true) : importedFrom? (s :: r) = some s := by
  obtain ⟨t, m, rfl⟩ := Item.exists_of_isString hs
  rfl

theorem reexportedFrom?_of_exportClause (h : ExportClause clause) {word : Item}
    (hword : word.isName "from" = true) (hs : s.isString = true) :
    reexportedFrom? (clause ++ word :: s :: r) = some s := by
  have hfrom : leadingFrom? (word :: s :: r) = some s := leadingFrom?_from hword hs
  obtain ⟨m, rfl⟩ := Item.exists_of_isName hword
  cases h with
  | star hstar =>
    obtain ⟨_, rfl⟩ := Item.exists_of_isPunct hstar
    exact hfrom
  | starAs hstar has hname =>
    obtain ⟨_, rfl⟩ := Item.exists_of_isPunct hstar
    obtain ⟨_, rfl⟩ := Item.exists_of_isName has
    exact hfrom
  | braces hnames =>
    obtain ⟨names, _, _, rfl⟩ := Item.exists_of_isGroup hnames
    exact hfrom

/-- the keyword of a declaration claims its specifier, where no bound name is `from` -/
theorem specifier?_of_declares (h : Declares s bound (i :: r)) (hs : s.isString = true)
    (hfrom : ∀ b ∈ bound, b.isName "from" = false) : specifier? i r = some s := by
  cases h with
  | bare hhead => rw [specifier?, if_pos hhead, importedFrom?_of_isString hs]
  | imports hhead hclause hword =>
    obtain ⟨first, more, rfl, hopens⟩ := hclause.exists_opens
    rw [specifier?, if_pos hhead, List.cons_append,
      importedFrom?_of_opens hopens, ← List.cons_append,
      fromClause?_of_isPassed (hclause.isPassed hfrom), fromClause?_from hword hs]
  | reexports hhead hclause hword =>
    obtain ⟨m, rfl⟩ := Item.exists_of_isName hhead
    exact reexportedFrom?_of_exportClause hclause hword hs

theorem Declares.isKeyword (h : Declares s bound (i :: r)) : i.isName "import" = true ∨
    i.isName "export" = true := by
  cases h with
  | bare hhead => exact .inl hhead
  | imports hhead => exact .inl hhead
  | reexports hhead => exact .inr hhead

/-- a declaration begins no member of `import.meta` -/
theorem Declares.metaAt? (h : Declares s bound (i :: r)) (hs : s.isString = true) :
    Split.metaAt? false i r = none := by
  cases h with
  | bare =>
    obtain ⟨t, m, rfl⟩ := Item.exists_of_isString hs
    exact metaAt?_of_not_dot rfl
  | imports _ hclause =>
    obtain ⟨first, more, rfl, hopens⟩ := hclause.exists_opens
    exact metaAt?_of_not_dot hopens.1
  | reexports hhead =>
    obtain ⟨m, rfl⟩ := Item.exists_of_isName hhead
    exact metaAt?_of_not_import rfl

end Split

namespace Program

open Split

variable {source : Text} {p : Program}

/-- Finding the splits of a text without blocks can only fail at a literal without a value.  If it
does not fail, then for every declaration with a local path, wherever it stands outside of the
brackets of members of `import.meta`, the specifier is among the splits, unless the declaration
binds the name `from`. -/
theorem exists_split_of_declares (hread : read source = .ok p)
    (hblocks : Item.outerBlocksAll p.items = []) :
    (∀ e, p.splits = .error e → e.IsEscape) ∧
    ∀ splits, p.splits = .ok splits →
    ∀ before items bound s, Encloses IsBracketMember p.items (before ++ items) →
      before.getLast?.any (·.isMemberDot) = false → Declares s bound items →
      s.isLocalString = true → (∀ b ∈ bound, b.isName "from" = false) →
      ∃ range, s.range? = some range ∧ ⟨.staticImport, range.start, range.stop⟩ ∈ splits := by
  constructor
  · intro e h
    rw [Program.splits, (cuts_of_read hread).1] at h
    rcases Except.bind_eq_error.1 h with h | ⟨_, -, h⟩
    · exact isEscape_scanFrom hblocks false 0 e h
    · cases h
  · intro splits hsplits before items bound s hseq hdot hdeclares hlocal hfrom
    obtain ⟨found, hfound, rfl⟩ := splits_of_read hread hsplits
    obtain ⟨i, r, rfl⟩ : ∃ i r, items = i :: r := by cases hdeclares <;> exact ⟨_, _, rfl⟩
    have hstring := isString_of_isLocalString hlocal
    have hspec := specifier?_of_declares hdeclares hstring hfrom
    obtain ⟨behind, hbehind, hsub⟩ :=
      exists_scanFrom_of_keyword hseq hdeclares.isKeyword hdot hfound
    obtain ⟨_, -, hown⟩ := sublist_of_specifier? hbehind (hdeclares.metaAt? hstring) hspec hlocal
    obtain ⟨-, pre, post, rfl, -⟩ := specifier?_eq_some hspec
    obtain ⟨_, _, hplaced⟩ := hseq.placed (placedAll_of_read hread)
    rw [show before ++ i :: (pre ++ s :: post) = (before ++ i :: pre) ++ s :: post by simp]
      at hplaced
    obtain ⟨start, stop, -, hs, -⟩ := Item.exists_placed_of_middle hplaced
    obtain ⟨range, hrange, -⟩ := Item.range_of_placed hs
    refine ⟨range, hrange, mem_sorted.2 (hsub.subset (hown.subset (List.mem_append_left _ ?_)))⟩
    exact mem_between.2 ⟨range, range, hrange, hrange, rfl⟩

/-- `import of, * as as from "../x"`, as it is read behind a brace -/
def starred : List Item :=
  [.leaf .name "import" ⟨some ⟨1, 7⟩, false⟩, .leaf .name "of" ⟨some ⟨8, 10⟩, false⟩,
    .leaf .punct "," ⟨some ⟨10, 11⟩, false⟩, .leaf .punct "*" ⟨some ⟨12, 13⟩, false⟩,
    .leaf .name "as" ⟨some ⟨14, 16⟩, false⟩, .leaf .name "as" ⟨some ⟨17, 19⟩, false⟩,
    .leaf .name "from" ⟨some ⟨20, 24⟩, false⟩, .leaf .string "\"../x\"" ⟨some ⟨25, 31⟩, false⟩]

theorem exists_split_of_declares_star :
    ∃ p splits s bound, read (Text.ofString "\x7bimport of, * as as from \"../x\"\x7d") = .ok p ∧
      Item.outerBlocksAll p.items = [] ∧ (∀ e, p.splits = .error e → e.IsEscape) ∧
      p.splits = .ok splits ∧ Encloses IsBracketMember p.items starred ∧ Declares s bound starred ∧
      s.isLocalString = true ∧ (∀ b ∈ bound, b.isName "from" = false) ∧
      ∃ range, s.range? = some range ∧ ⟨.staticImport, range.start, range.stop⟩ ∈ splits := by
  have hread : read (Text.ofString "\x7bimport of, * as as from \"../x\"\x7d") =
      .ok ⟨[.group .brace starred ⟨some ⟨0, 32⟩, false⟩ false],
        some (Text.ofString "\x7bimport of, * as as from \"../x\"\x7d")⟩ := by rfl
  have hscan :
      scanFrom false 0 [.group .brace starred ⟨some ⟨0, 32⟩, false⟩ false] =
        .ok [⟨.staticImport, 25, 31⟩] := by
    decide +kernel
  have hsplits :
      Program.splits ⟨[.group .brace starred ⟨some ⟨0, 32⟩, false⟩ false],
        some (Text.ofString "\x7bimport of, * as as from \"../x\"\x7d")⟩ =
      .ok [⟨.staticImport, 25, 31⟩] := by
    rw [Program.splits, hscan]
    exact congrArg Except.ok (List.mergeSort_of_pairwise (by decide))
  have hseq :
      Encloses IsBracketMember [.group .brace starred ⟨some ⟨0, 32⟩, false⟩ false] ([] ++ starred) :=
    .head (fun h => by cases h.1) (List.mem_singleton_self _) (.self _)
  have hdeclares : Declares (.leaf .string "\"../x\"" ⟨some ⟨25, 31⟩, false⟩)
      [.leaf .name "of" ⟨some ⟨8, 10⟩, false⟩, .leaf .name "as" ⟨some ⟨17, 19⟩, false⟩] starred :=
    @Declares.imports _ _ _ _ _ [] rfl (.nameStar ⟨rfl, rfl, rfl⟩ rfl rfl rfl ⟨rfl, rfl, rfl⟩) rfl
  have hlocal : Item.isLocalString (.leaf .string "\"../x\"" ⟨some ⟨25, 31⟩, false⟩) = true := by
    decide +kernel
  have hfrom :
      ∀ b ∈ [Item.leaf .name "of" ⟨some ⟨8, 10⟩, false⟩, .leaf .name "as" ⟨some ⟨17, 19⟩, false⟩],
      b.isName "from" = false := by
    simp only [List.forall_mem_cons, List.not_mem_nil, false_imp_iff, implies_true, and_true]
    exact ⟨rfl, rfl⟩
  obtain ⟨herror, hfound⟩ := exists_split_of_declares hread rfl
  exact ⟨_, _, _, _, hread, rfl, herror, hsplits, hseq, hdeclares, hlocal, hfrom,
    hfound _ hsplits [] starred _ _ hseq rfl hdeclares hlocal hfrom⟩

/-- a declaration that binds the name `from` is not found -/
theorem splits_binding_from :
    ∃ p bound s, read (Text.ofString "import from from \"./x\"") = .ok p ∧
      Item.outerBlocksAll p.items = [] ∧ Declares s bound p.items ∧ s.isLocalString = true ∧
      p.splits = .ok [] := by
  have hread : read (Text.ofString "import from from \"./x\"") =
      .ok ⟨[.leaf .name "import" ⟨some ⟨0, 6⟩, false⟩, .leaf .name "from" ⟨some ⟨7, 11⟩, false⟩,
        .leaf .name "from" ⟨some ⟨12, 16⟩, false⟩, .leaf .string "\"./x\"" ⟨some ⟨17, 22⟩, false⟩],
        some (Text.ofString "import from from \"./x\"")⟩ := by rfl
  have hscan :
      scanFrom false 0 [.leaf .name "import" ⟨some ⟨0, 6⟩, false⟩,
        .leaf .name "from" ⟨some ⟨7, 11⟩, false⟩, .leaf .name "from" ⟨some ⟨12, 16⟩, false⟩,
      .leaf .string "\"./x\"" ⟨some ⟨17, 22⟩, false⟩] = .ok [] := by
    decide +kernel
  refine ⟨_, _, _, hread, rfl, @Declares.imports _ _ _ _ _ [] rfl (.name ⟨rfl, rfl, rfl⟩)
    rfl, by decide +kernel, ?_⟩
  rw [Program.splits, hscan]
  exact congrArg Except.ok (List.mergeSort_of_pairwise .nil)

end Program

end Relocation
