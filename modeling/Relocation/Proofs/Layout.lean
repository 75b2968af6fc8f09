import Mathlib.Data.List.Forall2
import Relocation.Proofs.Joints
import Relocation.Proofs.Rendering

/-!
# The canonical layout can be read back

`Piece.cuts_render`: pieces that print words which may stand one after the other are cut into these
words again, each with its line break.  `Item.cuts_print` says the same of a tree whose sequences
are free of clashes (`Item.tidyAll`).
-/

namespace Relocation

open Token (Left)
open Token.Context Lexical

/-! ## the gaps -/

namespace Lexeme

variable {ctx : Token.Context} {gs ls : List Lexeme} {rest : Text} {broken : Option Bool}

theorem contextAfter_gaps (h : ∀ g ∈ gs, g.front = .gap) : contextAfter ctx gs = ctx := by
  induction gs with
  | nil => rfl
  | cons g gs ih =>
    have hg : g.context ctx = ctx := by rw [context, h g (by simp)]
    rw [contextAfter, hg, ih fun g' hg' => h g' (by simp [hg'])]

theorem words_append_gaps (h : ∀ g ∈ gs, g.front = .gap) :
    words broken (gs ++ ls) = words (broken.map (· || Position.endsLine (textOf gs))) ls := by
  induction gs generalizing broken with
  | nil => cases broken <;> simp [Position.endsLine]
  | cons g gs ih =>
    rw [List.cons_append, words, h g (by simp), textOf_cons]
    simp only
    rw [ih fun g' hg' => h g' (by simp [hg'])]
    cases broken <;> simp [Position.endsLine, Bool.or_assoc]

/-- blanks before something else are one gap, or none -/
theorem cuts_blanks (ctx : Token.Context) (k : Nat) (hr : Stops isWhitespace rest) :
    ∃ gs, textOf gs = List.replicate k (.char ' ') ∧ (∀ g ∈ gs, g.front = .gap) ∧
    Cuts ctx gs rest := by
  cases k with
  | zero => exact ⟨[], rfl, by simp, trivial⟩
  | succ k =>
    refine ⟨[⟨.gap,
      List.replicate (k + 1)
      (.char ' ')⟩], by simp, by simp, ⟨.char ' ', List.replicate k (.char ' '), rfl, ?_⟩, trivial⟩
    have hrun :
        runLength isWhitespace (List.replicate k (.char ' ') ++ rest) =
          (List.replicate k (CodePoint.char ' ')).length :=
      runLength_append.2
        ⟨List.all_eq_true.2 fun c hc => by rw [List.eq_of_mem_replicate hc]; decide, hr⟩
    rw [textOf_nil, List.nil_append, ← hrun]
    exact .blanks (by decide)

/-- what stands between two pieces is made of gaps -/
theorem cuts_separator (ctx : Token.Context) (p q : Piece) (hr : Stops isWhitespace rest) :
    ∃ gs, textOf gs = p.separator q ∧ (∀ g ∈ gs, g.front = .gap) ∧ Cuts ctx gs rest := by
  unfold Piece.separator
  split
  · obtain ⟨gs, htext, hgap, hcuts⟩ := cuts_blanks ctx (2 * q.depth) hr
    refine ⟨⟨.gap, [.char '\n']⟩ ::
      gs, by rw [textOf_cons, htext]; rfl, ?_, ⟨.char '\n', [], rfl, ?_⟩, hcuts⟩
    · rintro g hg
      rcases List.mem_cons.1 hg with rfl | hg
      · rfl
      · exact hgap g hg
    · exact .terminator (by decide)
  split
  · exact cuts_blanks ctx 1 hr
  · exact cuts_blanks ctx 0 hr

end Lexeme

namespace Piece

theorem endsLine_separator (p q : Piece) : Position.endsLine (p.separator q) = q.newline := by
  unfold separator
  split
  · rename_i h
    rw [h]
    rfl
  · rename_i h
    rw [Bool.eq_false_iff.2 h]
    split <;> rfl

end Piece

/-! ## words one after the other -/

namespace Word

def isMemberDot (w : Word) : Bool :=
  w.kind = .punct && (w.text = Text.ofString "." || w.text = Text.ofString "?.")

theorem namesMember_after (ctx : Token.Context) (w : Word) :
    (ctx.after w.kind w.text).namesMember = w.isMemberDot := by
  obtain ⟨kind, text, newline⟩ := w
  cases kind <;> simp [Token.Context.after, namesMember, isMemberDot]

/-- the words may stand one after the other -/
def Tidy (member : Bool) : List Word → Prop
  | [] => True
  | w :: r => (w.kind = .module → ∃ w' ∈ r.head?, w'.kind = .openBrace ∧ w'.newline = false) ∧
      (∀ w' ∈ r.head?, w'.newline = false → w.clashes member w' = false) ∧ Tidy w.isMemberDot r

/-- the words with the first of them at the beginning of a line or not -/
def beginning (newline : Bool) : List Word → List Word
  | [] => []
  | w :: r => { w with newline } :: r

end Word

namespace Token.Context

/-- at the end of a text nothing runs into a token -/
theorem apart_nil {kind : Kind} {text : Text} (h : Readable kind text) : Apart kind text [] := by
  cases kind with
  | name => simp [Apart]
  | module => simp [Apart]
  | number => rw [Apart, List.append_nil, numberLength_of_readable h]
  | regex => simp [Apart]
  | punct =>
    rw [Apart]
    split
    · exact fun _ => ⟨rfl, by simp⟩
    · exact ⟨punctuatorLength?_append (Piece.mem_punctuators h ‹_›) (by simp) (by simp),
        fun _ => rfl⟩
  | _ => trivial

end Token.Context

namespace Lexeme

variable {ctx : Token.Context} {w : Word} {rest : Text}

/-- a word that can be read is read wherever its place allows it -/
theorem stands_of_readable (hw : Token.Readable w.kind w.text) (ha : ctx.Admits w.kind w.text)
    (hp : Apart w.kind w.text rest) (hf : Foresees ctx w.kind w.text rest) :
    Stands ⟨.token w.kind, w.text⟩ ctx rest := by
  obtain ⟨ctx', c, t, rest', ht, hr⟩ := hw
  rw [ht] at ha hp hf
  exact ⟨c, t, ht, hr.move ha hp hf⟩

end Lexeme

namespace Piece

open Lexeme (textOf Cuts words)

theorem cuts_render_cons {ps : List Piece} {ws : List Word} (h : List.Forall₂ Prints ps ws) :
    ∀ {p : Piece} {w : Word}, p.Prints w → ∀ {ctx : Token.Context}, ctx.Legal (w :: ws) →
      Word.Tidy ctx.namesMember (w :: ws) →
      ∃ ls, textOf (⟨.token w.kind, w.text⟩ :: ls) = render (p :: ps) ∧
      Cuts ctx (⟨.token w.kind, w.text⟩ :: ls) [] ∧
        words (some false) ls = ws := by
  induction h with
  | nil =>
    intro p w hp ctx hlegal htidy
    refine ⟨[], by simp [render, hp.text],
      ⟨Lexeme.stands_of_readable hlegal.1 hlegal.2.1 ?_ ?_, trivial⟩, rfl⟩
    · exact apart_nil hlegal.1
    · refine ⟨fun hk => ?_, fun _ _ hlead => by cases hlead⟩
      obtain ⟨_, hw', -⟩ := htidy.1 hk
      cases hw'
  | @cons q w' ps ws hq _ ih =>
    intro p w hp ctx hlegal htidy
    obtain ⟨hw, ha, hlegal⟩ := hlegal
    obtain ⟨hmodule, hclash, htidy⟩ := htidy
    rw [← Word.namesMember_after ctx] at htidy
    obtain ⟨ls, htext, hcuts, hwords⟩ := ih hq hlegal htidy
    obtain ⟨⟨c, t, ht, hr⟩, hls⟩ := hcuts
    have hjoins : w.Joins ctx.namesMember w' := by
      refine ⟨fun hk => ?_, hclash w' rfl⟩
      obtain ⟨_, hw', hbrace⟩ := hmodule hk
      obtain rfl := Option.some.inj hw'
      exact hbrace
    have hblank : Stops isWhitespace (w'.text ++ (textOf ls ++ [])) := by
      rw [show w'.text = c :: t from ht, List.cons_append, stops_cons]
      by_contra hc
      cases hr.front_unique (.blanks (by simpa using hc))
    obtain ⟨gs, hgtext, hgap, hgcuts⟩ := Lexeme.cuts_separator (ctx.after w.kind w.text) p q hblank
    obtain ⟨hapart, hforesees⟩ := apart_of_joins hp hw hq hjoins ht hr
    refine ⟨gs ++ ⟨.token w'.kind, w'.text⟩ :: ls, ?_, ⟨?_, ?_⟩, ?_⟩
    · rw [Lexeme.textOf_cons, Lexeme.textOf_append, htext, hgtext, render_cons_cons, hp.text]
    · have :
          textOf (gs ++ ⟨.token w'.kind, w'.text⟩ :: ls) ++ [] = p.separator q ++
            (q.text ++ (textOf ls ++ [])) := by
        rw [Lexeme.textOf_append, Lexeme.textOf_cons, hgtext, hq.text]
        simp
      rw [this]
      exact Lexeme.stands_of_readable hw ha hapart hforesees
    · refine Lexeme.cuts_append.2 ⟨?_, ?_⟩
      · rw [Lexeme.textOf_cons, List.append_assoc]
        exact hgcuts
      · rw [Lexeme.contextAfter_gaps hgap]
        exact ⟨⟨c, t, ht, hr⟩, hls⟩
    · rw [Lexeme.words_append_gaps hgap, hgtext, endsLine_separator, words, hwords, hq.newline]
      rfl

/-- pieces that print words are cut into the words again -/
theorem cuts_render {ps : List Piece} {ws : List Word} (h : List.Forall₂ Prints ps ws)
    (hlegal : Token.Context.Legal {} ws) (htidy : Word.Tidy false ws) :
    ∃ ls, textOf ls = render ps ∧ Cuts {} ls [] ∧ words none ls = Word.beginning false ws := by
  cases h with
  | nil => exact ⟨[], rfl, trivial, rfl⟩
  | cons hp hps =>
    obtain ⟨ls, htext, hcuts, hwords⟩ := cuts_render_cons hps hp hlegal htidy
    refine ⟨_, htext, hcuts, ?_⟩
    rw [words, hwords]
    rfl

end Piece

/-! ## trees -/

namespace Item

mutual
/-- the words that an item is printed as -/
def words : Item → List Word
  | .leaf k t m => [⟨k.tokenKind, t, m.newline⟩]
  | .group b items m closeNewline =>
    ⟨b.openKind, b.opener, m.newline⟩ :: (wordsAll items ++ [⟨b.closeKind, b.closer, closeNewline⟩])
  | .template q rest m => .quasi rest.isEmpty q m.newline :: wordsRest rest
  | .block items m closeNewline =>
    ⟨.module, Text.ofString "module", m.newline⟩ :: ⟨.openBrace, Bracket.brace.opener, false⟩ ::
      (wordsAll items ++ [⟨.closeBrace, Bracket.brace.closer, closeNewline⟩])

def wordsAll : List Item → List Word
  | [] => []
  | i :: r => words i ++ wordsAll r

def wordsRest : List (List Item × Text) → List Word
  | [] => []
  | (items, q) :: r => wordsAll items ++ .chunk r.isEmpty q false :: wordsRest r
end

mutual
theorem spells_words : ∀ {i : Item} {l : Left}, Fits l i → Spells i (words i)
  | .leaf _ _ _, _, h => ⟨h.1, rfl⟩
  | .group _ _ _ _, _, h => ⟨_, spellsAll_words h, rfl⟩
  | .template _ _ _, _, h => ⟨_, spellsRest_words h.2, rfl⟩
  | .block _ _ _, _, h => ⟨_, false, spellsAll_words h.2, rfl⟩

theorem spellsAll_words : ∀ {items : List Item} {l : Left}, FitsAll l items →
    SpellsAll items (wordsAll items)
  | [], _, _ => rfl
  | _ :: _, _, h => ⟨_, _, spells_words h.1, spellsAll_words h.2, rfl⟩

theorem spellsRest_words : ∀ {rest : List (List Item × Text)}, FitsRest rest →
    SpellsRest rest (wordsRest rest)
  | [], _ => rfl
  | (_, _) :: _, h => ⟨_, false, _, spellsAll_words h.1, spellsRest_words h.2.2, rfl⟩
end

/-! ### what is printed -/

theorem prints_leaf {k : Piece.Kind} (hk : k.isLeaf = true) (t : Text) (newline : Bool)
    (depth : Nat) : Piece.Prints ⟨k, t, newline, depth⟩ ⟨k.tokenKind, t, newline⟩ := by
  refine ⟨rfl, rfl, .inl ?_⟩
  rcases Piece.Kind.isLeaf_cases hk with rfl | rfl | rfl | rfl | rfl <;> rfl

theorem prints_open (b : Bracket) (newline : Bool) (depth : Nat) :
    Piece.Prints ⟨.opener, b.opener, newline, depth⟩ ⟨b.openKind, b.opener, newline⟩ :=
  ⟨rfl, rfl, .inl (by cases b <;> rfl)⟩

theorem prints_close (b : Bracket) (newline : Bool) (depth : Nat) :
    Piece.Prints ⟨.closer, b.closer, newline, depth⟩ ⟨b.closeKind, b.closer, newline⟩ :=
  ⟨rfl, rfl, .inl (by cases b <;> rfl)⟩

mutual
theorem prints_words : ∀ {i : Item} {l : Left}, Fits l i → ∀ depth : Nat,
    List.Forall₂ Piece.Prints (pieces depth i) (words i)
  | .leaf k t m, _, h => by
    intro depth
    exact .cons (prints_leaf h.1 t m.newline depth) .nil
  | .group b items m closeNewline, _, h => by
    intro depth
    have := prints_wordsAll h (depth + 1) 0
    exact .cons (prints_open b _ _) (List.rel_append this (.cons (prints_close b _ _) .nil))
  | .template q [] m, _, h => by
    intro depth
    exact .cons ⟨rfl, rfl, .inl rfl⟩ .nil
  | .template q (part :: rest) m, _, h => by
    intro depth
    exact .cons ⟨rfl, rfl, .inl rfl⟩ (prints_wordsRest h.2 depth)
  | .block items m closeNewline, _, h => by
    intro depth
    have := prints_wordsAll h.2 (depth + 1) 0
    exact .cons ⟨rfl, rfl, .inl rfl⟩ (.cons (prints_open .brace _ _)
      (List.rel_append this (.cons (prints_close .brace _ _) .nil)))

theorem prints_wordsAll : ∀ {items : List Item} {l : Left}, FitsAll l items →
    ∀ depth questions : Nat,
      List.Forall₂ Piece.Prints (piecesFrom depth questions items) (wordsAll items)
  | [], _, _ => by
    intro depth questions
    exact .nil
  | i :: r, _, h => by
    intro depth questions
    have hr := prints_wordsAll h.2 depth
    rw [piecesFrom, wordsAll]
    split
    · exact List.rel_append (prints_words h.1 depth) (hr _)
    split
    · -- the colon of a conditional
      rename_i hcolon
      simp only [Bool.and_eq_true, decide_eq_true_eq] at hcolon
      obtain ⟨m, rfl⟩ : ∃ m, i = .leaf .punct (Text.ofString ":") m := by
        have := hcolon.1
        unfold isPunct at this
        split at this
        · exact ⟨_, by rw [of_decide_eq_true this]⟩
        · cases this
      exact .cons ⟨rfl, rfl, .inr ⟨rfl, rfl, rfl⟩⟩ (hr _)
    · exact List.rel_append (prints_words h.1 depth) (hr _)

theorem prints_wordsRest : ∀ {rest : List (List Item × Text)}, FitsRest rest → ∀ depth : Nat,
    List.Forall₂ Piece.Prints (restPieces depth rest) (wordsRest rest)
  | [], _ => by
    intro depth
    exact .nil
  | (items, q) :: [], h => by
    intro depth
    exact List.rel_append (prints_wordsAll h.1 _ _) (.cons ⟨rfl, rfl, .inl rfl⟩ .nil)
  | (items, q) :: part :: r, h => by
    intro depth
    exact List.rel_append (prints_wordsAll h.1 _ _)
      (.cons ⟨rfl, rfl, .inl rfl⟩ (prints_wordsRest h.2.2 depth))
end

/-! ### neighbours in a tree -/

/-- neighbours that the canonical layout does not keep apart if they stand on one line; `afterDot`
says that a member dot comes before the first -/
def clashes (afterDot : Bool) (i j : Item) : Bool :=
  !j.mark.newline && match i, j with
    | .leaf .punct t _, .leaf .number t' _ =>
      (t = Text.ofString "." || t = Text.ofString "?.") && t'.head?.any (·.isDigitValued)
    | .leaf .punct t _, .leaf .punct t' _ =>
      (t = Text.ofString "!" && t'.head? = some (.char '=')) ||
        (t = Text.ofString "?" && (t' = Text.ofString "." || t' = Text.ofString "?.")) ||
        (t = Text.ofString "." && t'.head? = some (.char '.'))
    | .leaf .name t _, .group .brace _ _ _ => t = Text.ofString "module" && !afterDot
    | _, _ => false

mutual
/-- are there no clashes inside the item? -/
def tidy : Item → Bool
  | .leaf _ _ _ => true
  | .group _ items _ _ => tidyAll false items
  | .template _ rest _ => tidyRest rest
  | .block items _ _ => tidyAll false items

/-- are there no clashes in the sequence, at any depth? -/
def tidyAll (afterDot : Bool) : List Item → Bool
  | [] => true
  | i :: r => tidy i && !r.head?.any (clashes afterDot i) && tidyAll i.isMemberDot r

def tidyRest : List (List Item × Text) → Bool
  | [] => true
  | (items, _) :: r => tidyAll false items && tidyRest r
end

end Item

namespace Token.Kind

/-- does a word of the kind clash with nothing behind it? -/
def isClosed : Token.Kind → Bool
  | .name | .punct | .module => false
  | _ => true

/-- does it clash with nothing before it? -/
def isInert : Token.Kind → Bool
  | .number | .punct | .openBrace => false
  | _ => true

theorem ne_of_isClosed {k : Token.Kind} (h : k.isClosed = true) :
    k ≠ .name ∧ k ≠ .punct ∧ k ≠ .module := by
  refine ⟨?_, ?_, ?_⟩ <;> rintro rfl <;> cases h

end Token.Kind

namespace Word

variable {w w' : Word} {ws : List Word}

theorem clashes_of_isInert (h : w'.kind.isInert = true) (member : Bool) :
    w.clashes member w' = false := by
  unfold clashes
  split <;> simp_all [Token.Kind.isInert]

theorem tidy_cons_of_isClosed (h : w.kind.isClosed = true) (member : Bool) :
    Tidy member (w :: ws) ↔ Tidy false ws := by
  have hkind := Token.Kind.ne_of_isClosed h
  have hdot : w.isMemberDot = false := by simp [isMemberDot, hkind]
  have hclash : ∀ w', w.clashes member w' = false := by
    intro w'
    unfold clashes
    split <;> simp_all
  simp [Tidy, hdot, hclash, hkind]

end Word

namespace Item

variable {l l' : Left}

theorem head?_words (j : Item) (more : List Word) : (words j ++ more).head? = (words j).head? := by
  cases j <;> rw [words] <;> rfl

/-- leaves that do not clash with an item do not clash with the word it begins with -/
theorem clashes_head {k : Piece.Kind} (hk : k.isLeaf = true) {t : Text} {m : Mark} {j : Item}
    (hj : Fits l j) {member : Bool} (h : clashes member (.leaf k t m) j = false) {w : Word}
    (hw : w ∈ (words j).head?) (hn : w.newline = false) :
    Word.clashes member ⟨k.tokenKind, t, m.newline⟩ w = false := by
  cases j with
  | leaf k' t' m' =>
    obtain rfl := Option.some.inj hw
    have hn' : m'.newline = false := hn
    have hk' : k'.isLeaf = true := hj.1
    simp only [clashes, mark, hn', Bool.not_false, Bool.true_and] at h
    rcases Piece.Kind.isLeaf_cases hk with rfl | rfl | rfl | rfl | rfl <;>
      rcases Piece.Kind.isLeaf_cases hk' with rfl | rfl | rfl | rfl | rfl <;> first | rfl | exact h
  | group b items m' c =>
    obtain rfl := Option.some.inj hw
    have hn' : m'.newline = false := hn
    simp only [clashes, mark, hn', Bool.not_false, Bool.true_and] at h
    rcases Piece.Kind.isLeaf_cases hk with rfl | rfl | rfl | rfl | rfl <;> cases b <;>
      first | rfl | exact h
  | template q rest m' =>
    obtain rfl := Option.some.inj hw
    cases rest <;> rcases Piece.Kind.isLeaf_cases hk with rfl | rfl | rfl | rfl | rfl <;> rfl
  | block items m' c =>
    obtain rfl := Option.some.inj hw
    rcases Piece.Kind.isLeaf_cases hk with rfl | rfl | rfl | rfl | rfl <;> rfl

mutual
theorem tidy_words : ∀ {i : Item} {l : Left}, Fits l i → tidy i = true →
    ∀ (member : Bool) (more : List Word),
    (∀ k t m, i = .leaf k t m → ∀ w ∈ more.head?, w.newline = false →
      Word.clashes member ⟨k.tokenKind, t, m.newline⟩ w = false) →
    Word.Tidy i.isMemberDot more → Word.Tidy member (words i ++ more)
  | .leaf k t m, _, h, _ => by
    intro member more hclash hmore
    obtain ⟨hk, -⟩ := h
    refine ⟨fun hmodule => ?_, hclash k t m rfl, ?_⟩
    · cases k <;> cases hmodule
    · have : Word.isMemberDot ⟨k.tokenKind, t, m.newline⟩ = isMemberDot (.leaf k t m) := by
        rcases Piece.Kind.isLeaf_cases hk with rfl | rfl | rfl | rfl | rfl <;> rfl
      rwa [this]
  | .group b items m c, _, h, ht => by
    intro member more _ hmore
    rw [words, List.cons_append, List.append_assoc, Word.tidy_cons_of_isClosed (by cases b <;> rfl)]
    refine tidy_wordsAll h false ht _ (fun w hw => ?_) fun member' => ?_
    · obtain rfl := Option.some.inj hw
      cases b <;> rfl
    · exact (Word.tidy_cons_of_isClosed (by cases b <;> rfl) member').2 hmore
  | .template q [] m, _, _, _ => by
    intro member more _ hmore
    exact (Word.tidy_cons_of_isClosed rfl member).2 hmore
  | .template q (part :: rest) m, _, h, ht => by
    intro member more _ hmore
    refine (Word.tidy_cons_of_isClosed rfl member).2 ?_
    exact tidy_wordsRest (List.cons_ne_nil part rest) h.2 ht _ hmore
  | .block items m c, _, h, ht => by
    intro member more _ hmore
    rw [words, List.cons_append, List.cons_append, List.append_assoc]
    refine ⟨fun _ => ⟨_, rfl, rfl, rfl⟩, fun w hw _ => rfl, ?_⟩
    refine (Word.tidy_cons_of_isClosed rfl _).2 (tidy_wordsAll h.2 false ht _
      (fun w hw => ?_) fun member' => ?_)
    · obtain rfl := Option.some.inj hw
      rfl
    · exact (Word.tidy_cons_of_isClosed rfl member').2 hmore

theorem tidy_wordsAll : ∀ {items : List Item} {l : Left}, FitsAll l items → ∀ member : Bool,
    tidyAll member items = true → ∀ more : List Word, (∀ w ∈ more.head?, w.kind.isInert = true) →
    (∀ member', Word.Tidy member' more) → Word.Tidy member (wordsAll items ++ more)
  | [], _, _ => by
    intro member _ more _ hmore
    exact hmore member
  | i :: r, _, h => by
    intro member ht more hend hmore
    simp only [tidyAll, Bool.and_eq_true, Bool.not_eq_true'] at ht
    obtain ⟨⟨hi, hclash⟩, hr⟩ := ht
    rw [wordsAll, List.append_assoc]
    refine tidy_words h.1 hi member _ ?_ (tidy_wordsAll h.2 _ hr more hend hmore)
    rintro k t m rfl w hw hn
    cases r with
    | nil => exact Word.clashes_of_isInert (hend w hw) member
    | cons j r =>
      rw [wordsAll, List.append_assoc, head?_words] at hw
      exact clashes_head h.1.1 h.2.1 (by simpa using hclash) hw hn

theorem tidy_wordsRest : ∀ {rest : List (List Item × Text)}, rest ≠ [] → FitsRest rest →
    tidyRest rest = true → ∀ more : List Word, Word.Tidy false more →
    Word.Tidy false (wordsRest rest ++ more)
  | [], h, _, _ => (h rfl).elim
  | [(items, q)], _, h, ht => by
    intro more hmore
    simp only [tidyRest, Bool.and_eq_true] at ht
    rw [wordsRest, List.append_assoc]
    refine tidy_wordsAll h.1 false ht.1 _ (fun w hw => ?_) fun member' => ?_
    · obtain rfl := Option.some.inj hw
      rfl
    · exact (Word.tidy_cons_of_isClosed rfl member').2 hmore
  | (items, q) :: next :: r, _, h, ht => by
    intro more hmore
    simp only [tidyRest, Bool.and_eq_true] at ht
    rw [wordsRest, List.append_assoc]
    refine tidy_wordsAll h.1 false ht.1 _ (fun w hw => ?_) fun member' => ?_
    · obtain rfl := Option.some.inj hw
      rfl
    · refine (Word.tidy_cons_of_isClosed rfl member').2 ?_
      exact tidy_wordsRest (List.cons_ne_nil next r) h.2.2 (by simpa [tidyRest] using ht.2) more
        hmore
end

theorem wordsAll_beginning (items : List Item) :
    wordsAll (beginning items) = Word.beginning false (wordsAll items) := by
  cases items with
  | nil => rfl
  | cons i r =>
    cases i with
    | template q rest m => cases rest <;> rfl
    | _ => rfl

theorem fitsAll_beginning {items : List Item} : FitsAll l (beginning items) ↔ FitsAll l items := by
  cases items with
  | nil => rfl
  | cons i r => cases i <;> exact Iff.rfl

/-- a tree that may stand at the beginning of a text, and whose sequences have no clashes, is cut
into its words when it is printed -/
theorem cuts_print {items : List Item} (hf : FitsAll .start items)
    (ht : tidyAll false items = true) : ∃ ls, Lexeme.textOf ls = print items ∧
    Lexeme.Cuts {} ls [] ∧ SpellsAll (beginning items) (Lexeme.words none ls) := by
  have hwords := prints_wordsAll hf 0 0
  have hlegal : Token.Context.Legal {} (wordsAll items) :=
    (legal_spellsAll (spellsAll_words hf)).2 hf
  have htidy : Word.Tidy false (wordsAll items) := by
    have := tidy_wordsAll hf false ht [] (by simp) fun _ => trivial
    rwa [List.append_nil] at this
  obtain ⟨ls, htext, hcuts, hls⟩ := Piece.cuts_render hwords hlegal htidy
  refine ⟨ls, htext, hcuts, ?_⟩
  rw [hls, ← wordsAll_beginning]
  exact spellsAll_words (fitsAll_beginning.2 hf)

end Item

end Relocation
