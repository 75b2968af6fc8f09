import Relocation.Proofs.Delivery
import Relocation.Proofs.Flattening

/-!
# Compiled text without surrogates

Compiled code is made of the characters of the source, of what the compiler makes up, and of the
values of specifiers.  A surrogate in the output comes from such a value: none in the plans of the
blocks means none in the output, and one in the plan of an outermost block can be seen there
(`Compile.scalar_of_specifiers`).
-/

namespace Relocation

namespace Item

mutual
/-- the characters that are written in an item, its brackets apart -/
def written : Item → Text
  | .leaf _ t _ => t
  | .group _ items _ _ => writtenAll items
  | .template q rest _ => q ++ writtenRest rest
  | .block items _ _ => writtenAll items

def writtenAll : List Item → Text
  | [] => []
  | i :: r => written i ++ writtenAll r

def writtenRest : List (List Item × Text) → Text
  | [] => []
  | (items, q) :: r => writtenAll items ++ (q ++ writtenRest r)
end

theorem writtenAll_append (a b : List Item) :
    writtenAll (a ++ b) = writtenAll a ++ writtenAll b := by
  induction a with
  | nil => rfl
  | cons i a ih => rw [List.cons_append, writtenAll, writtenAll, ih, List.append_assoc]

theorem written_onNewLine (i : Item) : i.onNewLine.written = i.written := by cases i <;> rfl

mutual
/-- an outermost block is part of what it stands in -/
theorem subset_of_mem_outerBlocks : ∀ {i : Item}, ∀ block ∈ outerBlocks i,
    written block ⊆ written i ∧ nodes block ⊆ nodes i
  | .leaf _ _ _ => List.forall_mem_nil _
  | .group _ _ _ _ => fun block hb =>
    let ⟨hwritten, hnodes⟩ := subset_of_mem_outerBlocksAll block hb
    ⟨hwritten, List.subset_cons_of_subset _ hnodes⟩
  | .template _ _ _ => fun block hb =>
    let ⟨hwritten, hnodes⟩ := subset_of_mem_outerBlocksRest block hb
    ⟨List.subset_append_of_subset_right _ hwritten, List.subset_cons_of_subset _ hnodes⟩
  | .block _ _ _ => List.forall_mem_singleton.2 ⟨List.Subset.refl _, List.Subset.refl _⟩

theorem subset_of_mem_outerBlocksAll : ∀ {items : List Item}, ∀ block ∈ outerBlocksAll items,
    written block ⊆ writtenAll items ∧ nodes block ⊆ nodesAll items
  | [] => List.forall_mem_nil _
  | _ :: _ => List.forall_mem_append.2
    ⟨fun block hb =>
      let ⟨hwritten, hnodes⟩ := subset_of_mem_outerBlocks block hb
      ⟨List.subset_append_of_subset_left _ hwritten, List.subset_append_of_subset_left _ hnodes⟩,
    fun block hb =>
      let ⟨hwritten, hnodes⟩ := subset_of_mem_outerBlocksAll block hb
      ⟨List.subset_append_of_subset_right _ hwritten, List.subset_append_of_subset_right _ hnodes⟩⟩

theorem subset_of_mem_outerBlocksRest : ∀ {rest : List (List Item × Text)},
    ∀ block ∈ outerBlocksRest rest, written block ⊆ writtenRest rest ∧ nodes block ⊆ nodesRest rest
  | [] => List.forall_mem_nil _
  | (_, _) :: _ => List.forall_mem_append.2
    ⟨fun block hb =>
      let ⟨hwritten, hnodes⟩ := subset_of_mem_outerBlocksAll block hb
      ⟨List.subset_append_of_subset_left _ hwritten, List.subset_append_of_subset_left _ hnodes⟩,
    fun block hb =>
      let ⟨hwritten, hnodes⟩ := subset_of_mem_outerBlocksRest block hb
      ⟨List.subset_append_of_subset_right _ (List.subset_append_of_subset_right _ hwritten),
        List.subset_append_of_subset_right _ hnodes⟩⟩
end

/-! ## what is read of a text -/

/-- the characters of tokens -/
def spelled (ts : List (Token × Bool)) : Text := ts.flatMap (·.1.text)

theorem spelled_append (a b : List (Token × Bool)) : spelled (a ++ b) = spelled a ++ spelled b :=
  List.flatMap_append

theorem subset_spelled {t : Token × Bool} {ts : List (Token × Bool)} (h : t ∈ ts) :
    t.1.text ⊆ spelled ts :=
  fun _ hc => List.mem_flatMap.2 ⟨t, h, hc⟩

theorem spelled_subset {a b : List (Token × Bool)} (h : a ⊆ b) : spelled a ⊆ spelled b :=
  fun _ hc => let ⟨t, ht, hc⟩ := List.mem_flatMap.1 hc; List.mem_flatMap.2 ⟨t, h ht, hc⟩

theorem inner_subset (t : Text) : t.tail.dropLast ⊆ t :=
  List.Subset.trans (List.dropLast_subset _) (List.tail_subset _)

mutual
/-- an item has the characters of the tokens that it spans -/
theorem written_subset_of_spans : ∀ {i : Item} {ts : List (Token × Bool)}, Spans i ts →
    written i ⊆ spelled ts
  | .leaf k t m, ts, ⟨token, newline, _, ht, _, hts⟩ => by
    subst hts ht
    exact subset_spelled (List.mem_singleton_self (token, newline))
  | .group b items m c, ts, ⟨first, newline, inner, last, _, _, _, hinner, hts⟩ => by
    subst hts
    refine List.Subset.trans (writtenAll_subset_of_spans hinner) (spelled_subset ?_)
    exact List.subset_cons_of_subset _ (List.subset_append_left _ _)
  | .template q [] m, ts, ⟨token, newline, _, hq, _, hts⟩ => by
    subst hts hq
    rw [written, writtenRest, List.append_nil]
    exact List.Subset.trans (inner_subset _)
      (subset_spelled (List.mem_singleton_self (token, newline)))
  | .template q (part :: rest) m, ts, ⟨first, newline, inner, last, _, hq, _, hinner, hts⟩ => by
    subst hts hq
    refine List.append_subset.2 ⟨?_, ?_⟩
    · exact List.Subset.trans (List.dropLast_subset _)
        (List.Subset.trans (inner_subset _) (subset_spelled (t := (first, newline))
          List.mem_cons_self))
    · exact List.Subset.trans (writtenRest_subset_of_spans hinner)
        (spelled_subset (List.subset_cons_self _ _))
  | .block items m c, ts, ⟨first, newline, brace, braceNewline, inner, last, _, _, _, _,
      hinner, hts⟩ => by
    subst hts
    refine List.Subset.trans (writtenAll_subset_of_spans hinner) (spelled_subset ?_)
    exact List.subset_cons_of_subset _ (List.subset_cons_of_subset _ (List.subset_append_left _ _))

theorem writtenAll_subset_of_spans : ∀ {items : List Item} {ts : List (Token × Bool)},
    SpansAll items ts → writtenAll items ⊆ spelled ts
  | [], _, _ => List.nil_subset _
  | i :: r, ts, ⟨a, b, hi, hr, hts⟩ => by
    subst hts
    rw [writtenAll, spelled_append]
    exact List.append_subset.2 ⟨List.subset_append_of_subset_left _ (written_subset_of_spans hi),
      List.subset_append_of_subset_right _ (writtenAll_subset_of_spans hr)⟩

theorem writtenRest_subset_of_spans :
    ∀ {rest : List (List Item × Text)} {ts : List (Token × Bool)} {last : Token},
    SpansRest rest ts last → writtenRest rest ⊆ spelled ts
  | [], _, _, _ => List.nil_subset _
  | [(items, q)], ts, last, ⟨inner, newline, hinner, _, hq, hts⟩ => by
    subst hts hq
    rw [writtenRest, writtenRest, List.append_nil, spelled_append]
    refine List.append_subset.2 ⟨List.subset_append_of_subset_left _
      (writtenAll_subset_of_spans hinner), ?_⟩
    exact List.subset_append_of_subset_right _
      (List.Subset.trans (inner_subset _)
        (subset_spelled (List.mem_singleton_self (last, newline))))
  | (items, q) :: part :: r, ts, last, ⟨inner, chunk, newline, more, hinner, _, hq,
      hmore, hts⟩ => by
    subst hts hq
    rw [writtenRest, spelled_append]
    refine List.append_subset.2 ⟨List.subset_append_of_subset_left _
      (writtenAll_subset_of_spans hinner),
      List.subset_append_of_subset_right _ (List.append_subset.2 ⟨?_, ?_⟩)⟩
    · exact List.Subset.trans (List.dropLast_subset _)
        (List.Subset.trans (inner_subset _) (subset_spelled (t := (chunk, newline))
          List.mem_cons_self))
    · exact List.Subset.trans (writtenRest_subset_of_spans hmore)
        (spelled_subset (List.subset_cons_self _ _))
end

end Item

namespace Lexeme

theorem text_subset_of_mem_tokens {ls : List Lexeme} {p : Position} :
    ∀ k ∈ tokens p ls, k.text ⊆ textOf ls := by
  induction ls generalizing p with
  | nil => intro k hk; cases hk
  | cons l ls ih =>
    intro k hk
    rw [tokens] at hk
    rw [textOf_cons]
    cases hl : l.front with
    | gap =>
      rw [hl] at hk
      exact List.subset_append_of_subset_right _ (ih k hk)
    | token kind =>
      rw [hl] at hk
      rcases List.mem_cons.1 hk with rfl | hk
      · exact List.subset_append_left _ _
      · exact List.subset_append_of_subset_right _ (ih k hk)

end Lexeme

/-- what is read of a text is made of its characters -/
theorem Program.writtenAll_subset_of_read {source : Text} {p : Program} (h : read source = .ok p) :
    Item.writtenAll p.items ⊆ source := by
  obtain ⟨-, line, ls, -, htext, -, -, hspans⟩ := cuts_of_read h
  refine List.Subset.trans (Item.writtenAll_subset_of_spans hspans) fun c hc => ?_
  obtain ⟨t, ht, hc⟩ := List.mem_flatMap.1 hc
  have hmem : t.1 ∈ Lexeme.tokens .start (line ++ ls) := by
    rw [← Lexeme.map_fst_withBreaks none (Lexeme.tokens .start (line ++ ls))]
    exact List.mem_map_of_mem ht
  rw [← htext, ← Lexeme.textOf_append]
  exact Lexeme.text_subset_of_mem_tokens t.1 hmem hc

/-! ## what is printed -/

namespace Piece

theorem scalar_separator (p q : Piece) : (p.separator q).Scalar := by
  unfold separator
  split_ifs
  · exact Text.scalar_cons.2 ⟨rfl, fun c hc => by rw [List.eq_of_mem_replicate hc]; rfl⟩
  · exact Text.scalar_singleton rfl
  · exact Text.scalar_nil

theorem scalar_render {ps : List Piece} : (render ps).Scalar ↔ ∀ p ∈ ps, p.text.Scalar := by
  induction ps with
  | nil => exact ⟨fun _ => List.forall_mem_nil _, fun _ => Text.scalar_nil⟩
  | cons p ps ih =>
    cases ps with
    | nil => rw [List.forall_mem_singleton]; rfl
    | cons q ps =>
      refine Iff.trans ?_ List.forall_mem_cons.symm
      rw [render_cons_cons, Text.scalar_append, Text.scalar_append, ih]
      exact and_congr_right fun _ => and_iff_right (scalar_separator p q)

end Piece

namespace Item

theorem scalar_opener (b : Bracket) : b.opener.Scalar := by cases b <;> exact Text.scalar_ofString _

theorem scalar_closer (b : Bracket) : b.closer.Scalar := by cases b <;> exact Text.scalar_ofString _

/-- only the middle of a quasi counts -/
theorem scalar_quoted {q : Text} (a b : String) :
    (Text.ofString a ++ q ++ Text.ofString b).Scalar ↔ q.Scalar := by
  rw [Text.scalar_append, Text.scalar_append]
  exact ⟨fun h => h.1.2, fun h => ⟨⟨Text.scalar_ofString a, h⟩, Text.scalar_ofString b⟩⟩

theorem scalar_of_isPunct {i : Item} {p : String} (h : i.isPunct (Text.ofString p) = true) :
    i.written.Scalar := by
  unfold isPunct at h
  split at h
  · rw [written, of_decide_eq_true h]
    exact Text.scalar_ofString p
  · cases h

mutual
theorem scalar_pieces : ∀ {depth : Nat} {i : Item}, (∀ p ∈ pieces depth i, p.text.Scalar) ↔
    (written i).Scalar
  | depth, .leaf k t m => List.forall_mem_singleton
  | depth, .group b items m c => by
    rw [pieces, List.cons_append, List.forall_mem_cons, List.forall_mem_append,
      scalar_piecesFrom, written]
    exact ⟨fun h => h.2.1, fun h =>
      ⟨scalar_opener b, h, List.forall_mem_singleton.2 (scalar_closer b)⟩⟩
  | depth, .block items m c => by
    rw [pieces, List.cons_append, List.cons_append, List.forall_mem_cons, List.forall_mem_cons,
      List.forall_mem_append, scalar_piecesFrom, written]
    exact ⟨fun h => h.2.2.1, fun h => ⟨Text.scalar_ofString _, Text.scalar_ofString _, h,
      List.forall_mem_singleton.2 (Text.scalar_ofString _)⟩⟩
  | depth, .template q [] m => by
    have hpieces : pieces depth (.template q [] m) =
        [⟨.template, Text.ofString "\x60" ++ q ++ Text.ofString "\x60", m.newline, depth⟩] := rfl
    rw [hpieces, List.forall_mem_singleton, written, writtenRest, List.append_nil]
    exact scalar_quoted _ _
  | depth, .template q (part :: rest) m => by
    have hpieces : pieces depth (.template q (part :: rest) m) =
        ⟨.templateOpen, Text.ofString "\x60" ++ q ++ Text.ofString "$\x7b", m.newline, depth⟩ ::
          restPieces depth (part :: rest) := rfl
    rw [hpieces, List.forall_mem_cons, scalar_restPieces, scalar_quoted, written,
      Text.scalar_append]

theorem scalar_piecesFrom : ∀ {depth questions : Nat} {items : List Item},
    (∀ p ∈ piecesFrom depth questions items, p.text.Scalar) ↔ (writtenAll items).Scalar
  | depth, questions, [] => ⟨fun _ => Text.scalar_nil, fun _ => List.forall_mem_nil _⟩
  | depth, questions, i :: r => by
    rw [piecesFrom, writtenAll, Text.scalar_append]
    split_ifs with hquestion hcolon
    · rw [List.forall_mem_append, scalar_pieces, scalar_piecesFrom]
    · -- the colon of a conditional is printed anew, and the item has no other character
      rw [Bool.and_eq_true] at hcolon
      rw [List.forall_mem_cons, scalar_piecesFrom]
      exact and_congr_left fun _ =>
        iff_of_true (Text.scalar_ofString _) (scalar_of_isPunct hcolon.1)
    · rw [List.forall_mem_append, scalar_pieces, scalar_piecesFrom]

theorem scalar_restPieces : ∀ {depth : Nat} {rest : List (List Item × Text)},
    (∀ p ∈ restPieces depth rest, p.text.Scalar) ↔ (writtenRest rest).Scalar
  | depth, [] => ⟨fun _ => Text.scalar_nil, fun _ => List.forall_mem_nil _⟩
  | depth, (items, q) :: r => by
    rw [restPieces, List.forall_mem_append, List.forall_mem_cons, scalar_piecesFrom,
      scalar_restPieces, writtenRest, Text.scalar_append, Text.scalar_append]
    refine and_congr_right fun _ => and_congr_left fun _ => ?_
    split_ifs
    · exact scalar_quoted _ _
    · exact scalar_quoted _ _
end

theorem scalar_print {items : List Item} : (print items).Scalar ↔ (writtenAll items).Scalar :=
  Piece.scalar_render.trans scalar_piecesFrom

end Item

/-! ## what guarding makes up -/

namespace ImportCall

open Item

variable {items out : List Item}

theorem scalar_guardGroup? {i j : Item} (h : guardGroup? {} i = .ok (some j)) : (written j).Scalar ↔
    (written i).Scalar := by
  obtain ⟨items, out, m, closeNewline, rfl, rfl, hguarded⟩ := guardGroup?_eq_some h
  obtain ⟨argument, hargument, hout⟩ := guardArguments_eq_some hguarded
  have hitems : (writtenAll items).Scalar ↔ (writtenAll argument).Scalar := by
    rcases eq_of_argumentsOf_singleton hargument with rfl | ⟨comma, hcomma, rfl⟩
    · rfl
    · rw [writtenAll_append, Text.scalar_append]
      exact and_iff_left (Text.scalar_append.2 ⟨scalar_of_isPunct hcomma, Text.scalar_nil⟩)
  rw [written, written, hitems]
  rcases hout with ⟨t, m, rfl, rfl⟩ | rfl
  · have hwritten : writtenAll (located (.leaf .string t m)) =
        Text.ofString "newURL" ++ t ++ Text.ofString ",import.meta.url" := by
      simp [located, writtenAll, written, name, punct, grouped, Substitution.metaUrlItems,
        Text.ofString]
    have hliteral : writtenAll [.leaf .string t m] = t := List.append_nil t
    rw [hwritten, hliteral]
    exact scalar_quoted _ _
  · have hwritten : writtenAll (fixedUp {} argument) =
        Text.ofString "ModuleBlock.fixup" ++ writtenAll argument ++ Text.ofString "" := by
      simp [fixedUp, writtenAll, written, name, punct, grouped, Text.ofString, Options.classCode]
    rw [hwritten]
    exact scalar_quoted _ _

theorem scalar_guardCalls (h : (guardCalls {} items).result = .ok out) :
    (writtenAll out).Scalar ↔ (writtenAll items).Scalar := by
  have hpairs := guardCalls_eq_ok h
  clear h
  induction hpairs with
  | nil => rfl
  | cons hj _ ih =>
    rw [writtenAll, writtenAll, Text.scalar_append, Text.scalar_append]
    refine and_congr ?_ ih
    rcases hj with rfl | hguarded
    · rfl
    · exact scalar_guardGroup? hguarded

end ImportCall

/-! ## plans and artifacts -/

theorem Text.scalar_iff_all {t : Text} : t.Scalar ↔ t.all CodePoint.isScalar = true :=
  List.all_eq_true.symm

theorem CodePoint.isScalar_of_isBasic {c : CodePoint} (h : c.isBasic = true) : c.isScalar = true :=
  (Bool.and_eq_true _ _ ▸ h : _ ∧ _).1

/-- what stands for a character in a literal is half of a pair only if the character is -/
theorem Json.scalar_escaped (c : CodePoint) : ((Json.escaped c).getD [c]).Scalar ↔
    c.isScalar = true := by
  cases he : Json.escaped c with
  | none => exact List.forall_mem_singleton
  | some e =>
    refine iff_of_true (fun d hd => ?_) ?_
    · exact CodePoint.isScalar_of_isBasic (List.all_eq_true.1 (Literal.escaped_basic he) d hd)
    · cases hb : c.isBasic with
      | true => exact CodePoint.isScalar_of_isBasic hb
      | false => rw [Literal.escaped_of_not_basic hb] at he; cases he

theorem Json.scalar_literal {t : Text} : (Json.literal t).Scalar ↔ t.Scalar := by
  have hbody : (Literal.quotedBody t).Scalar ↔ t.Scalar := by
    induction t with
    | nil => rfl
    | cons c t ih =>
      rw [Literal.quotedBody, List.flatMap_cons, Text.scalar_append, Text.scalar_cons]
      exact and_congr (scalar_escaped c) ih
  rw [Literal.literal_eq, Text.scalar_append, Text.scalar_cons, hbody]
  exact ⟨fun h => h.1.2, fun h => ⟨⟨rfl, h⟩, Text.scalar_singleton rfl⟩⟩

theorem scalar_escapeRaw {t : Text} : (escapeRaw t).Scalar ↔ t.Scalar := by
  fun_induction escapeRaw t with
  | case1 => rfl
  | case2 r ih => simp only [Text.scalar_cons, ih]; simp [CodePoint.isScalar]
  | case3 c r _ _ ih => simp only [Text.scalar_cons, ih]; simp [CodePoint.isScalar]
  | case4 r _ _ ih => simp only [Text.scalar_cons, ih]; simp [CodePoint.isScalar]
  | case5 c r _ _ _ ih => simp only [Text.scalar_cons, ih]

namespace Substitution

open Item

theorem scalar_code {s : Substitution} {items : List Item} (h : s.code = .ok items) :
    (writtenAll items).Scalar ↔ s.IsScalar := by
  match s, h with
  | .metaUrl, h =>
    obtain rfl := Except.ok.inj h
    exact iff_of_true (Text.scalar_ofString "JSON.stringifyimport.meta.url") trivial
  | .staticImport none, h =>
    obtain rfl := Except.ok.inj h
    exact iff_of_true (Text.scalar_ofString "JSON.stringifynewURLnull,import.meta.url") trivial
  | .staticImport (some t), h =>
    obtain rfl := Except.ok.inj h
    have hwritten : writtenAll (stringified [.name "new", .name "URL",
        .grouped .paren (.leaf .string (Json.literal t) {} :: .punct "," :: metaUrlItems)]) =
        Text.ofString "JSON.stringifynewURL" ++ Json.literal t ++
          Text.ofString ",import.meta.url" := by
      simp [stringified, writtenAll, written, name, punct, grouped, metaUrlItems, Text.ofString]
    rw [hwritten, scalar_quoted, Json.scalar_literal, Text.scalar_iff_all, IsScalar]

end Substitution

namespace Plan

open Item

/-- no segment and no specifier holds a surrogate -/
def Pure (p : Plan) : Prop := p.first.Scalar ∧ ∀ s ∈ p.rest, s.2.Scalar ∧ s.1.IsScalar

theorem scalar_templateRest {rest : List (Substitution × Text)} {out : List (List Item × Text)}
    (h : templateRest rest = .ok out) : (writtenRest out).Scalar ↔ ∀ s ∈ rest, s.2.Scalar ∧
    s.1.IsScalar := by
  induction rest generalizing out with
  | nil =>
    obtain rfl := Except.ok.inj h
    exact ⟨fun _ => List.forall_mem_nil _, fun _ => Text.scalar_nil⟩
  | cons s rest ih =>
    obtain ⟨s, literal⟩ := s
    obtain ⟨items, more, hitems, hmore, rfl⟩ := templateRest_cons_eq_ok.1 h
    rw [writtenRest, Text.scalar_append, Text.scalar_append, Substitution.scalar_code hitems,
      scalar_escapeRaw, ih hmore, List.forall_mem_cons, and_left_comm, and_assoc]

theorem scalar_creation {p : Plan} {rest : List (List Item × Text)}
    (hrest : templateRest p.rest = .ok rest) (m : Mark) :
    (writtenAll [.leaf .name "new" m, .name ({} : Options).classCode,
      .grouped .paren [.template (escapeRaw p.first) rest {}]]).Scalar ↔ p.Pure := by
  have hwritten : writtenAll [.leaf .name "new" m, .name ({} : Options).classCode,
      .grouped .paren [.template (escapeRaw p.first) rest {}]] =
      Text.ofString "newModuleBlock" ++ (escapeRaw p.first ++ writtenRest rest) := by
    simp [writtenAll, written, name, grouped, Options.classCode, Text.ofString]
  rw [hwritten, Text.scalar_append, and_iff_right (Text.scalar_ofString _), Text.scalar_append,
    scalar_escapeRaw, scalar_templateRest hrest]
  rfl

/-- the segments of a plan are parts of the text -/
theorem subset_cutAll {source : Text} {splits : List Split} :
    ∀ {limit : Nat} {done : List (Substitution × Text)}
    {p : Plan}, (∀ s ∈ done, s.2 ⊆ source) → cutAll source limit done splits = .ok p →
    p.first ⊆ source ∧ ∀ s ∈ p.rest, s.2 ⊆ source := by
  induction splits with
  | nil =>
    intro limit done p hd h
    obtain rfl := Except.ok.inj h
    exact ⟨List.take_subset _ _, hd⟩
  | cons s splits ih =>
    intro limit done p hd h
    rw [cutAll] at h
    split_ifs at h with hrange
    obtain ⟨sub, -, h⟩ := Except.bind_eq_ok.1 h
    refine ih (List.forall_mem_cons.2 ⟨?_, hd⟩) h
    exact List.Subset.trans (List.drop_subset _ _) (List.take_subset _ _)

theorem pure_of_planOf {t : Text} {p : Plan} (ht : t.Scalar) (h : Compile.planOf t = .ok p)
    (hp : p.IsScalar) : p.Pure := by
  obtain ⟨_, -, h⟩ := Except.bind_eq_ok.1 h
  obtain ⟨_, -, h⟩ := Except.bind_eq_ok.1 h
  obtain ⟨hfirst, hrest⟩ := subset_cutAll (List.forall_mem_nil _) h
  exact ⟨ht.of_subset hfirst, fun s hs => ⟨ht.of_subset (hrest s hs), hp s hs⟩⟩

end Plan

/-! ## lowering -/

namespace Compile

open Item

variable {items out : List Item} {plan : Plan} {plans : List Plan} {t : Text}

theorem scalar_printed (h : printed {} items = .ok t) : t.Scalar ↔ (writtenAll items).Scalar := by
  rw [printed_eq, items_eq_supportItems] at h
  obtain ⟨present, -, h⟩ := Except.bind_eq_ok.1 h
  cases present with
  | true =>
    obtain rfl := Except.ok.inj h
    exact scalar_print
  | false =>
    obtain rfl := Except.ok.inj h
    have hsupport : (writtenAll supportItems).Scalar := by
      simp only [supportItems, writtenAll, written, Item.name, Item.punct, Item.grouped,
        Text.scalar_append, Json.scalar_literal, Text.scalar_ofString, Text.scalar_nil, and_self]
    refine scalar_print.trans ?_
    rw [writtenAll_append, Text.scalar_append, and_iff_right hsupport]
    cases items with
    | nil => rfl
    | cons i r =>
      show (writtenAll (i.onNewLine :: r)).Scalar ↔ _
      rw [writtenAll, written_onNewLine, writtenAll]

/-- the plan of a body without surrogates has none either, if its specifiers have none -/
theorem pure_of_bodyPlan (hitems : (writtenAll items).Scalar)
    (h : (bodyPlan {} items).result = .ok plan) (hplan : plan.IsScalar) : plan.Pure := by
  rw [result_bodyPlan] at h
  obtain ⟨t, ht, h⟩ := Except.bind_eq_ok.1 h
  exact Plan.pure_of_planOf ((scalar_printed ht).2 hitems) h hplan

mutual
/-- lowering an item without surrogates gives none, just where the plans of its outermost blocks
hold none -/
theorem scalar_lowerItem : ∀ {i : Item} {out : List Item} {plans : List Plan}, (written i).Scalar →
    (lowerItem {} i).result = .ok (out, plans) →
    ((writtenAll out).Scalar ↔ ∀ plan ∈ plans, plan.Pure)
  | .leaf k t m, out, plans, hi, h => by
    obtain ⟨rfl, rfl⟩ := Prod.mk.inj (Except.ok.inj h)
    exact iff_of_true (Text.scalar_append.2 ⟨hi, Text.scalar_nil⟩) (List.forall_mem_nil _)
  | .group b items m closeNewline, out, plans, hi, h => by
    obtain ⟨items', hitems, rfl⟩ := lowerItem_group_eq_ok.1 h
    obtain ⟨lowered, hlowered, hguard⟩ := guardCallsAfter_eq_ok.1 hitems
    rw [writtenAll, writtenAll, List.append_nil, written, ImportCall.scalar_guardCalls hguard]
    exact scalar_lowerAll hi hlowered
  | .template q rest m, out, plans, hi, h => by
    obtain ⟨rest', hrest, rfl⟩ := lowerItem_template_eq_ok.1 h
    obtain ⟨hq, hi⟩ := Text.scalar_append.1 hi
    rw [writtenAll, writtenAll, List.append_nil, written, Text.scalar_append, and_iff_right hq]
    exact scalar_lowerRest hi hrest
  | .block items m closeNewline, out, plans, hi, h => by
    obtain ⟨plan, rest, rfl, hrest, rfl⟩ := eq_of_lowerItem_block h
    exact (Plan.scalar_creation hrest _).trans List.forall_mem_singleton.symm

theorem scalar_lowerAll : ∀ {items out : List Item} {plans : List Plan}, (writtenAll items).Scalar →
    (lowerAll {} items).result = .ok (out, plans) →
    ((writtenAll out).Scalar ↔ ∀ plan ∈ plans, plan.Pure)
  | [], out, plans, _, h => by
    obtain ⟨rfl, rfl⟩ := Prod.mk.inj (Except.ok.inj h)
    exact iff_of_true Text.scalar_nil (List.forall_mem_nil _)
  | i :: r, out, plans, hi, h => by
    obtain ⟨first, firstPlans, rest, restPlans, hfirst, hrest, rfl, rfl⟩ := lowerAll_cons_eq_ok.1 h
    obtain ⟨hi, hr⟩ := Text.scalar_append.1 hi
    rw [writtenAll_append, Text.scalar_append, List.forall_mem_append]
    exact and_congr (scalar_lowerItem hi hfirst) (scalar_lowerAll hr hrest)

theorem scalar_lowerRest : ∀ {rest out : List (List Item × Text)} {plans : List Plan},
    (writtenRest rest).Scalar → (lowerRest {} rest).result = .ok (out, plans) →
    ((writtenRest out).Scalar ↔ ∀ plan ∈ plans, plan.Pure)
  | [], out, plans, _, h => by
    obtain ⟨rfl, rfl⟩ := Prod.mk.inj (Except.ok.inj h)
    exact iff_of_true Text.scalar_nil (List.forall_mem_nil _)
  | (items, q) :: r, out, plans, hi, h => by
    obtain ⟨first, firstPlans, rest, restPlans, hfirst, hrest, rfl, rfl⟩ := lowerRest_cons_eq_ok.1 h
    obtain ⟨lowered, hlowered, hguard⟩ := guardCallsAfter_eq_ok.1 hfirst
    obtain ⟨hitems, hr⟩ := Text.scalar_append.1 hi
    obtain ⟨hq, hr⟩ := Text.scalar_append.1 hr
    rw [writtenRest, Text.scalar_append, Text.scalar_append, and_iff_right hq,
      ImportCall.scalar_guardCalls hguard, List.forall_mem_append]
    exact and_congr (scalar_lowerAll hitems hlowered) (scalar_lowerRest hr hrest)
end

mutual
/-- no plan holds a surrogate if no specifier does, at any depth: what lowers a block is lowered
first -/
theorem pure_of_lowerItem : ∀ {i : Item} {out : List Item} {plans : List Plan}, (written i).Scalar →
    (∀ block ∈ nodes i, ∀ plan, LowersTo {} block plan → plan.IsScalar) →
    (lowerItem {} i).result = .ok (out, plans) → ∀ plan ∈ plans, plan.Pure
  | .leaf k t m, out, plans, _, _, h => by
    obtain ⟨rfl, rfl⟩ := Prod.mk.inj (Except.ok.inj h)
    exact List.forall_mem_nil _
  | .group b items m closeNewline, out, plans, hi, hplans, h => by
    obtain ⟨items', hitems, rfl⟩ := lowerItem_group_eq_ok.1 h
    obtain ⟨lowered, hlowered, -⟩ := guardCallsAfter_eq_ok.1 hitems
    exact pure_of_lowerAll hi (fun block hb => hplans block (List.mem_cons_of_mem _ hb)) hlowered
  | .template q rest m, out, plans, hi, hplans, h => by
    obtain ⟨rest', hrest, rfl⟩ := lowerItem_template_eq_ok.1 h
    exact pure_of_lowerRest (Text.scalar_append.1 hi).2 (fun block hb =>
      hplans block (List.mem_cons_of_mem _ hb)) hrest
  | .block items m closeNewline, out, plans, hi, hplans, h => by
    obtain ⟨body, inner, plan, artifact, hlower, hplan, -, rfl, -⟩ := lowerItem_block_eq_ok.1 h
    obtain ⟨lowered, hlowered, hguard⟩ := guardCallsAfter_eq_ok.1 hlower
    -- what stands for the blocks in the body comes from pure plans, so the text that is planned
    -- holds no surrogate
    have hinner :=
      pure_of_lowerAll hi (fun block hb => hplans block (List.mem_cons_of_mem _ hb)) hlowered
    have hbody := (ImportCall.scalar_guardCalls hguard).2 ((scalar_lowerAll hi hlowered).2 hinner)
    have hspecifiers := hplans _ List.mem_cons_self plan ⟨items, m, closeNewline, out, rfl, h⟩
    exact List.forall_mem_singleton.2 (pure_of_bodyPlan hbody hplan hspecifiers)

theorem pure_of_lowerAll : ∀ {items out : List Item} {plans : List Plan},
    (writtenAll items).Scalar →
    (∀ block ∈ nodesAll items, ∀ plan, LowersTo {} block plan → plan.IsScalar) →
    (lowerAll {} items).result = .ok (out, plans) → ∀ plan ∈ plans, plan.Pure
  | [], out, plans, _, _, h => by
    obtain ⟨rfl, rfl⟩ := Prod.mk.inj (Except.ok.inj h)
    exact List.forall_mem_nil _
  | i :: r, out, plans, hi, hplans, h => by
    obtain ⟨first, firstPlans, rest, restPlans, hfirst, hrest, rfl, rfl⟩ := lowerAll_cons_eq_ok.1 h
    obtain ⟨hi, hr⟩ := Text.scalar_append.1 hi
    exact List.forall_mem_append.2
      ⟨pure_of_lowerItem hi (fun block hb => hplans block (List.mem_append_left _ hb)) hfirst,
        pure_of_lowerAll hr (fun block hb => hplans block (List.mem_append_right _ hb)) hrest⟩

theorem pure_of_lowerRest : ∀ {rest out : List (List Item × Text)} {plans : List Plan},
    (writtenRest rest).Scalar →
    (∀ block ∈ nodesRest rest, ∀ plan, LowersTo {} block plan → plan.IsScalar) →
    (lowerRest {} rest).result = .ok (out, plans) → ∀ plan ∈ plans, plan.Pure
  | [], out, plans, _, _, h => by
    obtain ⟨rfl, rfl⟩ := Prod.mk.inj (Except.ok.inj h)
    exact List.forall_mem_nil _
  | (items, q) :: r, out, plans, hi, hplans, h => by
    obtain ⟨first, firstPlans, rest, restPlans, hfirst, hrest, rfl, rfl⟩ := lowerRest_cons_eq_ok.1 h
    obtain ⟨lowered, hlowered, -⟩ := guardCallsAfter_eq_ok.1 hfirst
    obtain ⟨hitems, hr⟩ := Text.scalar_append.1 hi
    exact List.forall_mem_append.2
      ⟨pure_of_lowerAll hitems (fun block hb => hplans block (List.mem_append_left _ hb)) hlowered,
        pure_of_lowerRest (Text.scalar_append.1 hr).2 (fun block hb =>
        hplans block (List.mem_append_right _ hb)) hrest⟩
end

end Compile

/-! ## compiled text -/

theorem Substitution.scalar_valueAt {s : Substitution} {metaUrl w : Text} (hs : s.IsScalar)
    (hurl : metaUrl.Scalar) (h : s.valueAt metaUrl = .ok w) : w.Scalar := by
  match s, hs, h with
  | .metaUrl, _, h =>
    obtain rfl := Except.ok.inj h
    exact Json.scalar_literal.2 hurl
  | .staticImport none, _, h =>
    obtain rfl := Except.ok.inj h
    split
    · exact Text.scalar_ofString _
    · exact Json.scalar_literal.2 hurl
  | .staticImport (some t), hs, h =>
    rw [valueAt] at h
    split at h
    · rename_i url hresolve
      obtain rfl := Except.ok.inj h
      exact Json.scalar_literal.2 (Url.scalar_resolve hurl (Text.scalar_iff_all.2 hs) hresolve)
    · cases h

namespace Plan

theorem scalar_fillRest {metaUrl : Text} (hurl : metaUrl.Scalar) {rest : List (Substitution × Text)}
    {w : Text} (hrest : ∀ s ∈ rest, s.2.Scalar ∧ s.1.IsScalar)
    (h : fillRest (·.valueAt metaUrl) rest = .ok w) : w.Scalar := by
  induction rest generalizing w with
  | nil =>
    obtain rfl := Except.ok.inj h
    exact Text.scalar_nil
  | cons s rest ih =>
    obtain ⟨s, literal⟩ := s
    obtain ⟨⟨hliteral, hs⟩, hrest⟩ := List.forall_mem_cons.1 hrest
    obtain ⟨filled, hfilled, h⟩ := Except.bind_eq_ok.1 h
    obtain ⟨more, hmore, h⟩ := Except.bind_eq_ok.1 h
    obtain rfl := Except.ok.inj h
    exact Text.scalar_append.2 ⟨Text.scalar_append.2 ⟨Substitution.scalar_valueAt hs hurl hfilled,
      hliteral⟩, ih hrest hmore⟩

theorem scalar_textAt {p : Plan} {metaUrl body : Text} (hp : p.Pure) (hurl : metaUrl.Scalar)
    (h : p.textAt metaUrl = .ok body) : body.Scalar := by
  obtain ⟨w, hw, h⟩ := Except.bind_eq_ok.1 h
  obtain rfl := Except.ok.inj h
  exact Text.scalar_append.2 ⟨hp.1, scalar_fillRest hurl hp.2 hw⟩

end Plan

namespace Compile

variable {source metaUrl output : Text} {p : Program}

theorem LowersTo.unique {block : Item} {plan plan' : Plan} (h : LowersTo {} block plan)
    (h' : LowersTo {} block plan') : plan = plan' := by
  obtain ⟨_, _, _, _, rfl, h⟩ := h
  obtain ⟨_, _, _, _, -, h'⟩ := h'
  rw [h] at h'
  exact List.singleton_inj.1 (Prod.mk.inj (Except.ok.inj h')).2

theorem exists_of_forall₂ {α β : Type} {R : α → β → Prop} {l : List α} {l' : List β}
    (h : List.Forall₂ R l l') : ∀ b ∈ l', ∃ a ∈ l, R a b := by
  induction h with
  | nil => exact List.forall_mem_nil _
  | cons hab _ ih =>
    refine List.forall_mem_cons.2 ⟨⟨_, List.mem_cons_self, hab⟩, fun b hb => ?_⟩
    obtain ⟨a, ha, hab⟩ := ih b hb
    exact ⟨a, List.mem_cons_of_mem _ ha, hab⟩

/-- the plans of the outermost blocks hold no surrogate -/
def PurePlans (items : List Item) : Prop :=
  ∀ block ∈ Item.outerBlocksAll items, ∀ plan, LowersTo {} block plan → plan.Pure

theorem purePlans_iff {items : List Item} {plans : List Plan}
    (h : List.Forall₂ (LowersTo {}) (Item.outerBlocksAll items) plans) : PurePlans items ↔
    ∀ plan ∈ plans, plan.Pure := by
  constructor
  · intro hpure plan hplan
    obtain ⟨block, hblock, hlowers⟩ := exists_of_forall₂ h plan hplan
    exact hpure block hblock plan hlowers
  · intro hpure block hblock plan hlowers
    obtain ⟨plan', hplan', hlowers'⟩ := exists_of_forall₂ h.flip block hblock
    exact hlowers.unique hlowers' ▸ hpure plan' hplan'

/-- **Surrogates in compiled text come from specifiers.** -/
theorem scalar_of_specifiers (hsource : source.Scalar) (hurl : metaUrl.Scalar)
    (hread : Program.read source = .ok p) :
    (∀ output, (text {} source).result = .ok output → (output.Scalar ↔ PurePlans p.items)) ∧
    (∀ bodies, (Compile.bodies {} source metaUrl).result = .ok bodies → PurePlans p.items →
      ∀ body ∈ bodies, body.Scalar) ∧
    ((∀ block ∈ Item.nodesAll p.items, ∀ plan, LowersTo {} block plan → plan.IsScalar) →
      PurePlans p.items) := by
  have hitems : (Item.writtenAll p.items).Scalar :=
    hsource.of_subset (Program.writtenAll_subset_of_read hread)
  refine ⟨fun output h => ?_, fun bodies h hpure body hbody => ?_, fun hplans => ?_⟩
  · rw [result_text] at h
    obtain ⟨p', hread', h⟩ := Except.bind_eq_ok.1 h
    obtain rfl := Except.ok.inj (hread.symm.trans hread')
    obtain ⟨⟨out, plans⟩, hlower, hprinted⟩ := Except.bind_eq_ok.1 h
    obtain ⟨lowered, hlowered, hguard⟩ := guardCallsAfter_eq_ok.1 hlower
    rw [scalar_printed hprinted, ImportCall.scalar_guardCalls hguard,
      scalar_lowerAll hitems hlowered, purePlans_iff (lower_eq_ok hlower).2]
  · obtain ⟨p', -, -, hread', -, hbodies⟩ := bodies_eq_ok h
    obtain rfl := Except.ok.inj (hread.symm.trans hread')
    obtain ⟨block, hblock, plan, hplan, hfilled⟩ := exists_of_forall₂ hbodies body hbody
    exact Plan.scalar_textAt (hpure block hblock plan hplan) hurl hfilled
  · rintro block hblock plan ⟨inner, m, closeNewline, out, rfl, hlower⟩
    obtain ⟨hwritten, hnodes⟩ := Item.subset_of_mem_outerBlocksAll _ hblock
    have hpure :=
      pure_of_lowerItem (hitems.of_subset hwritten) (fun node hn => hplans node (hnodes hn)) hlower
    exact List.forall_mem_singleton.1 hpure

/-- halves that make up a pair are of no harm in a literal, and a half on its own is none in a
specifier -/
theorem scalar_of_specifiers_halved :
    (∃ p bodies,
      Program.read (Text.ofString "f(module \x7b \x7d, module \x7b '\\ud83d\\ude00' \x7d)") =
        .ok p ∧
      PurePlans p.items ∧
      (Compile.bodies {} (Text.ofString "f(module \x7b \x7d, module \x7b '\\ud83d\\ude00' \x7d)")
        "https://h/m.js").result = .ok bodies ∧
      bodies.length = 2 ∧ ∀ body ∈ bodies, body.Scalar) ∧
    ∃ p, Program.read (Text.ofString "module \x7b import './\\ud800' \x7d") = .ok p ∧
      ¬ PurePlans p.items ∧
      ∃ block ∈ Item.nodesAll p.items, ∃ plan, LowersTo {} block plan ∧ ¬ plan.IsScalar := by
  refine ⟨?_, ?_⟩
  · have htext :
        (text {}
        (Text.ofString "f(module \x7b \x7d, module \x7b '\\ud83d\\ude00' \x7d)")).result.toOption.any
          (·.all CodePoint.isScalar) = true := by
      rw [Text.ofString_ofList]
      decide +kernel
    have hbodies :
        (Compile.bodies {} (Text.ofString "f(module \x7b \x7d, module \x7b '\\ud83d\\ude00' \x7d)")
          "https://h/m.js").result.toOption.any (fun bodies =>
        decide (bodies.length = 2)) = true := by
      rw [Text.ofString_ofList, Text.ofString_ofList]
      decide +kernel
    obtain ⟨output, htext, houtput⟩ := Except.exists_of_any htext
    obtain ⟨bodies, hbodies, hlength⟩ := Except.exists_of_any hbodies
    obtain ⟨p, -, -, hread, -, -⟩ := bodies_eq_ok hbodies
    have h :=
      scalar_of_specifiers (Text.scalar_ofString _) (Text.scalar_ofString "https://h/m.js") hread
    have hpure := (h.1 output htext).1 (Text.scalar_iff_all.2 houtput)
    exact ⟨p, bodies, hread, hpure, hbodies, of_decide_eq_true hlength, h.2.1 bodies hbodies hpure⟩
  · obtain ⟨p, hread, -⟩ := Except.bind_eq_ok.1 ((result_text ..).symm.trans text_halved)
    have h := scalar_of_specifiers (Text.scalar_ofString _) Text.scalar_nil hread
    have hpure : ¬ PurePlans p.items := by
      rw [← h.1 halvedModule text_halved, Text.scalar_iff_all]
      decide +kernel
    refine ⟨p, hread, hpure, ?_⟩
    by_contra hnone
    refine hpure (h.2.2 fun block hblock plan hplan => ?_)
    by_contra hhalf
    exact hnone ⟨block, hblock, plan, hplan, hhalf⟩

/-- a specifier with half of a surrogate pair is written into compiled text, which has no bytes -/
theorem text_surrogate : (Text.ofString "module \x7b import './\\ud800' \x7d").Scalar ∧ ∃ output,
    (text {} (Text.ofString "module \x7b import './\\ud800' \x7d")).result = .ok output ∧
      .surrogate 0 ∈ output ∧ ¬ output.Scalar ∧ output.utf8? = none := by
  have hhalf : CodePoint.surrogate 0 ∈ halvedModule := by decide +kernel
  refine ⟨Text.scalar_ofString _, halvedModule, text_halved, hhalf, fun h => ?_, by decide +kernel⟩
  cases h _ hhalf

end Compile

end Relocation
