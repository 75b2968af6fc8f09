import Relocation.Proofs.Layout
import Relocation.Proofs.Lowering
import Relocation.Proofs.Unplaced

/-!
# Rules for neighbours

A `Window` says what may not stand behind an item: it has one test for each of the items there.  A
rule is made of windows, and `Item.keepsAll` says that a sequence keeps it at any depth, the bodies
of blocks left out.  Windows see of an item only its face (`Window.Lawful`), so a rule is kept when
artifacts take the place of blocks (`seated_lowered`).

There are two rules.  Under `parted` neighbours are printed as what they are; under `legible` they
may run into each other, but can still be read, open no block and claim no specifier twice.
-/

namespace Relocation

/-! ## what stands before -/

/-- what stands right before an item in its sequence, or right before a word -/
structure Trail where
  /-- is it a member dot? -/
  dot : Bool := false
  /-- how many points does it end with, those of the punctuators on its line before it included? -/
  points : Nat := 0

namespace Trail

/-- a name that comes next names a member, and still does when it is printed and read: three points
would be one punctuator -/
def member (tr : Trail) : Bool := tr.dot && tr.points < 3

/-- behind one more word -/
def behind (tr : Trail) (w : Word) : Trail where
  dot := w.isMemberDot
  points :=
    let before := if w.newline then 0 else tr.points
    if w.kind ≠ .punct then 0
    else if w.text = Text.ofString "." then before + 1
    else if w.text = Text.ofString "..." then before + 3
    else if w.text = Text.ofString "?." then 1
    else 0

theorem behind_of_not_punct {w : Word} (h : w.kind ≠ .punct) (tr : Trail) : tr.behind w = {} := by
  simp [behind, Word.isMemberDot, h]

end Trail

namespace Item

/-- behind one more item -/
def trail (tr : Trail) : Item → Trail
  | .leaf .punct t m => tr.behind ⟨.punct, t, m.newline⟩
  | _ => {}

/-- a string whose value is a local path -/
def isLocalString (i : Item) : Bool :=
  i.stringText?.any fun t => (Literal.value t).toOption.any isLocalPath

def isRegex : Item → Bool
  | .leaf .regex _ _ => true
  | _ => false

def isBlock : Item → Bool
  | .block _ _ _ => true
  | _ => false

/-- a punctuator that begins with a slash -/
def isDivision : Item → Bool
  | .leaf .punct t _ => t.head? = some (.char '/')
  | _ => false

/-- a brace on the line of what comes before it -/
def isBraceBeside (i : Item) : Bool := i.isGroup .brace && !i.mark.newline

/-- a number that ends with a point, on the line of what comes before it -/
def isPointedBeside : Item → Bool
  | .leaf .number t m => t.getLast? = some (.char '.') && !m.newline
  | _ => false

/-! ## windows -/

/-- do the first items pass the tests, one each? -/
def startsWith : List (Item → Bool) → List Item → Bool
  | [], _ => true
  | _ :: _, [] => false
  | test :: tests, i :: r => test i && startsWith tests r

/-- what may not stand behind an item: items that pass all the tests -/
abbrev Window := Trail → Item → List (Item → Bool)

/-- nothing is forbidden -/
def never : List (Item → Bool) := [fun _ => false]

@[simp] theorem startsWith_never (r : List Item) : startsWith never r = false := by cases r <;> rfl

/-- what stands behind `export` where the word `import` claims the specifier, too -/
def reclaimTests : List (Item → Bool) :=
  [(·.isPunct "*"), (·.isName "as"), (·.isName "import"), (·.isName "from"), isLocalString]

/-- the tests count where the condition holds -/
def windowIf (holds : Trail → Item → Bool) (tests : List (Item → Bool)) : Window := fun tr i =>
  if holds tr i then tests else never

/-- neighbours that run into each other when they are printed -/
def clash : Window := fun tr i => [clashes tr.dot i]

/-- a regular expression behind a block: behind the artifact its slash is a division -/
def division : Window := windowIf (fun _ i => i.isBlock) [isRegex]

/-- a specifier that is claimed twice, unless `export` names a member -/
def reclaim (named : Trail → Bool) : Window :=
  windowIf (fun tr i => i.isName "export" && !named tr) reclaimTests

/-- a name `module` and a brace on its line, which are read as a block unless the name is the name
of a member -/
def keyword : Window := windowIf (fun tr i => i.isName "module" && !tr.member) [isBraceBeside]

/-- a division behind a number that loses its last point: points before the number take the digits
up to there, and behind the point that is left a slash begins a regular expression -/
def slash : Window := windowIf (fun tr i => i.isPointedBeside && tr.points ≠ 0) [isDivision]

abbrev Rule := List Window

/-- neighbours are printed as what they are -/
def parted : Rule := [clash, division]

/-- what neighbours are printed as can be read, opens no block and claims no specifier twice -/
def legible : Rule := [division, reclaim Trail.member, keyword, slash]

/-- no specifier is claimed twice -/
def claimedOnce : Rule := [reclaim Trail.dot]

/-- may the item stand before the rest? -/
def allows (rule : Rule) (tr : Trail) (i : Item) (r : List Item) : Bool := rule.all fun window =>
    !startsWith (window tr i) r

variable {rule : Rule} {window : Window} {tr : Trail} {i j : Item} {r items : List Item}

theorem allows_iff :
    allows rule tr i r = true ↔ ∀ window ∈ rule, startsWith (window tr i) r = false := by
  simp [allows]

mutual
/-- is the rule kept inside the item, outside of blocks? -/
def keeps (rule : Rule) : Item → Bool
  | .leaf _ _ _ => true
  | .group _ items _ _ => keepsAll rule {} items
  | .template _ rest _ => keepsRest rule rest
  | .block _ _ _ => true

def keepsAll (rule : Rule) (tr : Trail) : List Item → Bool
  | [] => true
  | i :: r => keeps rule i && allows rule tr i r && keepsAll rule (i.trail tr) r

def keepsRest (rule : Rule) : List (List Item × Text) → Bool
  | [] => true
  | (items, _) :: r => keepsAll rule {} items && keepsRest rule r
end

/-- may every item of the sequence stand where it does? -/
def seated (rule : Rule) (tr : Trail) : List Item → Bool
  | [] => true
  | i :: r => allows rule tr i r && seated rule (i.trail tr) r

theorem keepsAll_iff : keepsAll rule tr items = true ↔ seated rule tr items = true ∧
    ∀ i ∈ items, i.keeps rule = true := by
  induction items generalizing tr with
  | nil => simp [keepsAll, seated]
  | cons i r ih =>
    simp only [keepsAll, seated, Bool.and_eq_true, ih, List.forall_mem_cons]
    constructor
    · rintro ⟨⟨hi, hs⟩, hr, hall⟩
      exact ⟨⟨hs, hr⟩, hi, hall⟩
    · rintro ⟨⟨hs, hr⟩, hi, hall⟩
      exact ⟨⟨hi, hs⟩, hr, hall⟩

/-! ## what neighbours see -/

/-- the item without what is inside of it -/
def face : Item → Item
  | .leaf k t m => .leaf k t ⟨none, m.newline⟩
  | .group b _ m _ => .group b [] ⟨none, m.newline⟩ false
  | .template _ _ m => .template [] [] ⟨none, m.newline⟩
  | .block _ m _ => .block [] ⟨none, m.newline⟩ false

@[simp] theorem isName_face (i : Item) (t : Text) : i.face.isName t = i.isName t := by
  cases i with
  | leaf k _ _ => cases k <;> rfl
  | _ => rfl

@[simp] theorem isPunct_face (i : Item) (t : Text) : i.face.isPunct t = i.isPunct t := by
  cases i with
  | leaf k _ _ => cases k <;> rfl
  | _ => rfl

@[simp] theorem isMemberDot_face (i : Item) : i.face.isMemberDot = i.isMemberDot := by
  simp [isMemberDot]

@[simp] theorem stringText?_face (i : Item) : i.face.stringText? = i.stringText? := by
  cases i with
  | leaf k _ _ => cases k <;> rfl
  | _ => rfl

@[simp] theorem isString_face (i : Item) : i.face.isString = i.isString := by simp [isString]

@[simp] theorem isLocalString_face (i : Item) : i.face.isLocalString = i.isLocalString := by
  cases i with
  | leaf k _ _ => cases k <;> rfl
  | _ => rfl

@[simp] theorem isRegex_face (i : Item) : i.face.isRegex = i.isRegex := by
  cases i with
  | leaf k _ _ => cases k <;> rfl
  | _ => rfl

@[simp] theorem isGroup_face (i : Item) (b : Bracket) : i.face.isGroup b = i.isGroup b := by
  cases i with
  | group b' _ _ _ => cases b <;> cases b' <;> rfl
  | _ => rfl

@[simp] theorem isDivision_face (i : Item) : i.face.isDivision = i.isDivision := by
  cases i with
  | leaf k _ _ => cases k <;> rfl
  | _ => rfl

@[simp] theorem isBraceBeside_face (i : Item) : i.face.isBraceBeside = i.isBraceBeside := by
  rw [isBraceBeside, isBraceBeside, isGroup_face]
  cases i <;> rfl

@[simp] theorem isPointedBeside_face (i : Item) : i.face.isPointedBeside = i.isPointedBeside := by
  cases i with
  | leaf k _ _ => cases k <;> rfl
  | _ => rfl

@[simp] theorem trail_face (tr : Trail) (i : Item) : i.face.trail tr = i.trail tr := by
  cases i with
  | leaf k _ _ => cases k <;> rfl
  | _ => rfl

@[simp] theorem isBlock_face (i : Item) : i.face.isBlock = i.isBlock := by cases i <;> rfl

@[simp] theorem clashes_face (afterDot : Bool) (i j : Item) :
    clashes afterDot i.face j.face = clashes afterDot i j := by
  cases i with
  | leaf k t m =>
    cases j with
    | leaf k' t' m' => cases k <;> cases k' <;> rfl
    | group b items m' c => cases k <;> cases b <;> rfl
    | _ => cases k <;> rfl
  | _ => cases j <;> rfl

theorem face_unplaced (i : Item) : i.unplaced.face = i.face := by cases i <;> rfl

theorem map_face_unplacedAll (items : List Item) :
    (unplacedAll items).map face = items.map face := by
  rw [unplacedAll_eq_map, List.map_map]
  exact List.map_congr_left fun i _ => face_unplaced i

theorem startsWith_map {f : Item → Item} {tests : List (Item → Bool)}
    (h : ∀ test ∈ tests, ∀ i, test (f i) = test i) :
    startsWith tests (r.map f) = startsWith tests r := by
  induction tests generalizing r with
  | nil => rfl
  | cons test tests ih =>
    cases r with
    | nil => rfl
    | cons i r =>
      rw [List.map_cons, startsWith, startsWith, h test (by simp), ih fun t ht =>
        h t (by simp [ht])]

theorem startsWith_append {tests : List (Item → Bool)} {a b : List Item}
    (h : startsWith tests a = true) : startsWith tests (a ++ b) = true := by
  induction tests generalizing a with
  | nil => rfl
  | cons test tests ih =>
    cases a with
    | nil => cases h
    | cons i a =>
      simp only [List.cons_append, startsWith, Bool.and_eq_true] at h ⊢
      exact ⟨h.1, ih h.2⟩

/-! ## lawful windows -/

/-- none of the windows forbids anything behind the item -/
def isQuiet : Item → Bool
  | .leaf .name t _ => t ≠ Text.ofString "export" && t ≠ Text.ofString "module"
  | .leaf .punct t _ => t = Text.ofString "," || t = Text.ofString ";"
  | .leaf .string _ _ => true
  | .leaf _ _ _ => false
  | .group _ _ _ _ => true
  | .template _ _ _ => true
  | .block _ _ _ => false

theorem isName_of_isQuiet (h : i.isQuiet = true) : i.isName "export" = false ∧
    i.isName "module" = false := by
  cases i with
  | leaf k t m => cases k <;> simp_all [isQuiet, isName]
  | _ => simp [isName]

/-- A window sees faces only, and not whether its item begins a line at the beginning of a
sequence.  It forbids nothing that compilation writes. -/
structure Window.Lawful (window : Window) : Prop where
  left : ∀ tr i, window tr i.face = window tr i
  right : ∀ tr i, ∀ test ∈ window tr i, ∀ j : Item, test j.face = test j
  begun : ∀ i newline, window {} (i.begun newline) = window {} i
  new : ∀ tr i, ∀ test ∈ window tr i, ∀ m, test (.leaf .name "new" m) = false
  quiet : ∀ tr i r, i.isQuiet = true → startsWith (window tr i) r = false
  dot : ∀ tr t r, startsWith (window tr (punct ".")) (name t :: r) = false
  named : ∀ tr t m r, startsWith (window tr (.leaf .name t m)) (punct "." :: r) = false ∧
    ∀ items, startsWith (window tr (.leaf .name t m)) (grouped .paren items :: r) = false

theorem Window.lawful_if {holds : Trail → Item → Bool} {tests : List (Item → Bool)}
    (hleft : ∀ tr i, holds tr i.face = holds tr i)
    (hright : ∀ test ∈ tests, ∀ j : Item, test j.face = test j)
    (hbegun : ∀ i newline, holds {} (i.begun newline) = holds {} i)
    (hnew : ∀ test ∈ tests, ∀ m, test (.leaf .name "new" m) = false)
    (hquiet : ∀ tr i, i.isQuiet = true → holds tr i = false)
    (hdot : ∀ tr, holds tr (punct ".") = false)
    (hnamed : ∀ r, startsWith tests (punct "." :: r) = false ∧
      ∀ items, startsWith tests (grouped .paren items :: r) = false) :
      Window.Lawful (windowIf holds tests) where
  left tr i := by simp only [windowIf, hleft]
  right tr i := by
    unfold windowIf
    split
    · exact hright
    · simp [never]
  begun i newline := by simp only [windowIf, hbegun]
  new tr i := by
    unfold windowIf
    split
    · exact hnew
    · simp [never]
  quiet tr i r h := by simp [windowIf, hquiet tr i h]
  dot tr t r := by simp [windowIf, hdot]
  named tr t m r := by
    unfold windowIf
    split
    · exact hnamed r
    · simp

/-- nothing clashes with the name in front of an artifact -/
theorem clashes_name (afterDot : Bool) (i : Item) (t : Text) (m : Mark) :
    clashes afterDot i (.leaf .name t m) = false := by
  cases i with
  | leaf k _ _ => cases k <;> simp [clashes]
  | _ => simp [clashes]

theorem clashes_of_isQuiet (h : i.isQuiet = true) (afterDot : Bool) (j : Item) :
    clashes afterDot i j = false := by
  cases i with
  | leaf k t m =>
    cases k with
    | name =>
      have ht : t ≠ Text.ofString "module" := by simp_all [isQuiet]
      cases j with
      | group b => cases b <;> simp [clashes, ht]
      | _ => simp [clashes]
    | punct =>
      have ht : t = Text.ofString "," ∨ t = Text.ofString ";" := by simpa [isQuiet] using h
      have htext : t ≠ Text.ofString "." ∧ t ≠ Text.ofString "?." ∧ t ≠ Text.ofString "!" ∧
          t ≠ Text.ofString "?" := by
        rcases ht with rfl | rfl <;> decide
      cases j with
      | leaf k => cases k <;> simp [clashes, htext]
      | _ => simp [clashes]
    | _ => simp [clashes]
  | _ => simp [clashes]

theorem clashes_begun (newline : Bool) (afterDot : Bool) (j : Item) :
    clashes afterDot (i.begun newline) j = clashes afterDot i j := by
  cases i with
  | leaf k t m =>
    cases j with
    | leaf k' t' m' => cases k <;> cases k' <;> rfl
    | group b items m' c => cases k <;> cases b <;> rfl
    | _ => cases k <;> rfl
  | _ => cases j <;> rfl

/-- a face clashes with what the item clashes with -/
theorem clashes_face_left (afterDot : Bool) (i j : Item) :
    clashes afterDot i.face j = clashes afterDot i j := by
  rw [← clashes_face, ← clashes_face afterDot i]
  cases i <;> rfl

theorem clashes_face_right (afterDot : Bool) (i j : Item) :
    clashes afterDot i j.face = clashes afterDot i j := by
  rw [← clashes_face, ← clashes_face afterDot i j]
  cases j <;> rfl

theorem lawful_clash : Window.Lawful clash where
  left tr i := by simp only [clash, funext (clashes_face_left tr.dot i)]
  right tr i := by simp [clash, clashes_face_right]
  begun i newline := by simp only [clash, funext (clashes_begun newline false)]
  new tr i := by simp [clash, clashes_name]
  quiet tr i r h := by cases r <;> simp [clash, startsWith, clashes_of_isQuiet h]
  dot tr t r := by simp [clash, startsWith, name, clashes_name]
  named tr t m r := by simp [clash, startsWith, clashes, punct, grouped]

theorem lawful_division : Window.Lawful division :=
  Window.lawful_if (by simp) (by simp) (fun i _ => by cases i <;> rfl) (by simp [isRegex])
    (fun _ i h => by cases i <;> first | rfl | cases h) (fun _ => rfl)
    (by simp [startsWith, isRegex, punct, grouped])

theorem reclaimTests_face : ∀ test ∈ reclaimTests, ∀ j : Item, test j.face = test j := by
  simp [reclaimTests]

theorem reclaimTests_new : ∀ test ∈ reclaimTests, ∀ m, test (.leaf .name "new" m) = false := by
  intro test htest m
  simp only [reclaimTests, List.mem_cons, List.not_mem_nil, or_false] at htest
  rcases htest with rfl | rfl | rfl | rfl | rfl <;> rfl

theorem lawful_reclaim (named : Trail → Bool) : Window.Lawful (reclaim named) :=
  Window.lawful_if (by simp) reclaimTests_face (by simp) reclaimTests_new
    (fun _ i h => by simp [isName_of_isQuiet h]) (fun _ => rfl)
    (fun r => ⟨rfl, fun _ => rfl⟩)

theorem lawful_keyword : Window.Lawful keyword :=
  Window.lawful_if (by simp) (by simp) (by simp) (by simp [isBraceBeside, isGroup, groupItems?])
    (fun _ i h => by simp [isName_of_isQuiet h]) (fun _ => rfl) (fun r => ⟨rfl, fun _ => rfl⟩)

theorem lawful_slash : Window.Lawful slash :=
  Window.lawful_if (by simp) (by simp) (by simp) (by simp [isDivision])
    (fun _ i h => by
      cases i with
      | leaf k => cases k <;> simp_all [isQuiet, isPointedBeside]
      | _ => rfl)
    (fun _ => rfl) (fun r => ⟨rfl, fun _ => rfl⟩)

/-! ## lawful rules -/

/-- a rule of lawful windows -/
def Lawful (rule : Rule) : Prop := ∀ window ∈ rule, window.Lawful

theorem lawful_parted : Lawful parted := by
  simp [Lawful, parted, lawful_clash, lawful_division]

theorem lawful_legible : Lawful legible := by
  simp [Lawful, legible, lawful_division, lawful_reclaim, lawful_keyword, lawful_slash]

theorem lawful_claimedOnce : Lawful claimedOnce := by simp [Lawful, claimedOnce, lawful_reclaim]

theorem allows_face (h : Lawful rule) :
    allows rule tr i.face (r.map face) = allows rule tr i r := by
  rw [Bool.eq_iff_iff, allows_iff, allows_iff]
  refine forall₂_congr fun window hwindow => ?_
  rw [(h window hwindow).left, startsWith_map ((h window hwindow).right tr i)]

theorem seated_face (h : Lawful rule) : seated rule tr (items.map face) = seated rule tr items := by
  induction items generalizing tr with
  | nil => rfl
  | cons i r ih => rw [List.map_cons, seated, seated, allows_face h, trail_face, ih]

theorem allows_of_isQuiet (h : Lawful rule) (hi : i.isQuiet = true) : allows rule tr i r = true :=
  allows_iff.2 fun window hwindow => (h window hwindow).quiet tr i r hi

theorem allows_dot (h : Lawful rule) (t : Text) : allows rule tr (punct ".") (name t :: r) = true :=
  allows_iff.2 fun window hwindow => (h window hwindow).dot tr t r

theorem allows_name_dot (h : Lawful rule) (t : Text) (m : Mark) :
    allows rule tr (.leaf .name t m) (punct "." :: r) = true :=
  allows_iff.2 fun window hwindow => ((h window hwindow).named tr t m r).1

theorem allows_name_paren (h : Lawful rule) (t : Text) (m : Mark) (items : List Item) :
    allows rule tr (.leaf .name t m) (grouped .paren items :: r) = true :=
  allows_iff.2 fun window hwindow => ((h window hwindow).named tr t m r).2 items

/-! ### what does not count -/

mutual
theorem keeps_unplaced (h : Lawful rule) : ∀ i : Item, i.unplaced.keeps rule = i.keeps rule
  | .leaf _ _ _ => rfl
  | .group _ items _ _ => keepsAll_unplaced h items {}
  | .template _ rest _ => keepsRest_unplaced h rest
  | .block _ _ _ => rfl

theorem keepsAll_unplaced (h : Lawful rule) : ∀ (items : List Item) (tr : Trail),
    keepsAll rule tr (unplacedAll items) = keepsAll rule tr items
  | [], _ => rfl
  | i :: r, tr => by
    have hallows : allows rule tr i.unplaced (unplacedAll r) = allows rule tr i r := by
      rw [← allows_face h, face_unplaced, map_face_unplacedAll, allows_face h]
    have htrail : i.unplaced.trail tr = i.trail tr := by
      rw [← trail_face, face_unplaced, trail_face]
    rw [unplacedAll, keepsAll, keepsAll, keeps_unplaced h i, keepsAll_unplaced h r, hallows, htrail]

theorem keepsRest_unplaced (h : Lawful rule) : ∀ rest : List (List Item × Text),
    keepsRest rule (unplacedRest rest) = keepsRest rule rest
  | [] => rfl
  | (items, _) :: r => by
    rw [unplacedRest, keepsRest, keepsRest, keepsAll_unplaced h items {}, keepsRest_unplaced h r]
end

/-- what is alike keeps a rule alike -/
theorem keepsAll_of_unplacedAll (h : Lawful rule) {a b : List Item}
    (hab : unplacedAll a = unplacedAll b) : keepsAll rule tr a = keepsAll rule tr b := by
  rw [← keepsAll_unplaced h, hab, keepsAll_unplaced h]

/-- it does not matter whether a sequence begins a line -/
theorem keepsAll_begun (h : Lawful rule) (newline : Bool) :
    keepsAll rule {} (i.begun newline :: r) = keepsAll rule {} (i :: r) := by
  have hkeeps : (i.begun newline).keeps rule = i.keeps rule := by cases i <;> rfl
  have htrail : (i.begun newline).trail {} = i.trail {} := by
    cases i with
    | leaf k t m => cases k <;> simp [begun, trail, Trail.behind, Word.isMemberDot]
    | _ => rfl
  have hallows : allows rule {} (i.begun newline) r = allows rule {} i r := by
    rw [Bool.eq_iff_iff, allows_iff, allows_iff]
    refine forall₂_congr fun window hwindow => ?_
    rw [(h window hwindow).begun]
  rw [keepsAll, keepsAll, hkeeps, hallows, htrail]

theorem keepsAll_beginning (h : Lawful rule) (items : List Item) :
    keepsAll rule {} (beginning items) = keepsAll rule {} items := by
  cases items with
  | nil => rfl
  | cons i r => exact keepsAll_begun h false

theorem keepsAll_onNewLine (h : Lawful rule) (i : Item) (r : List Item) :
    keepsAll rule {} (i.onNewLine :: r) = keepsAll rule {} (i :: r) :=
  (keepsAll_of_unplacedAll h (by cases i <;> rfl)).trans (keepsAll_begun h true)

/-- a sequence that ends early keeps the rule, too -/
theorem seated_of_append {a b : List Item} (h : seated rule tr (a ++ b) = true) :
    seated rule tr a = true := by
  induction a generalizing tr with
  | nil => rfl
  | cons i a ih =>
    simp only [List.cons_append, seated, Bool.and_eq_true, allows_iff] at h ⊢
    refine ⟨fun window hwindow => ?_, ih h.2⟩
    by_contra hstarts
    rw [Bool.not_eq_false] at hstarts
    have := h.1 window hwindow
    rw [startsWith_append hstarts] at this
    cases this

/-! ## artifacts in the place of blocks -/

/-- the faces of what takes the place of an item; `cls` is the name of the block class -/
def loweredFaces (cls : Text) : Item → List Item
  | .block _ m _ => [.leaf .name "new" ⟨none, m.newline⟩, .name cls, .grouped .paren []]
  | i => [i.face]

theorem loweredFaces_of_not_block {cls : Text} {i : Item} (hi : i.isBlock = false) :
    loweredFaces cls i = [i.face] := by
  cases i with
  | block => cases hi
  | _ => rfl

theorem head_loweredFaces (cls : Text) (j : Item) (r : List Item) :
    (j.isBlock = true ∧ ∃ m, (loweredFaces cls j ++ r).head? = some (.leaf .name "new" m)) ∨
      (j.isBlock = false ∧ loweredFaces cls j = [j.face]) := by
  cases j <;> simp [loweredFaces, isBlock]

theorem startsWith_loweredFaces {cls : Text} {tests : List (Item → Bool)}
    (hface : ∀ test ∈ tests, ∀ i : Item, test i.face = test i)
    (hnew : ∀ test ∈ tests, ∀ m, test (.leaf .name "new" m) = false)
    (h : startsWith tests (r.flatMap (loweredFaces cls)) = true) : startsWith tests r = true := by
  induction tests generalizing r with
  | nil => rfl
  | cons test tests ih =>
    cases r with
    | nil => exact h
    | cons i r =>
      rw [List.flatMap_cons] at h
      rcases head_loweredFaces cls i (r.flatMap (loweredFaces cls)) with ⟨-, m, hm⟩ | ⟨-, hi⟩
      · obtain ⟨more, hmore⟩ := List.head?_eq_some_iff.1 hm
        rw [hmore, startsWith, hnew test (by simp) m] at h
        cases h
      · rw [hi, List.singleton_append, startsWith, Bool.and_eq_true, hface test (by simp)] at h
        rw [startsWith, Bool.and_eq_true]
        exact ⟨h.1, ih (fun t ht => hface t (by simp [ht])) (fun t ht => hnew t (by simp [ht])) h.2⟩

theorem allows_lowered {cls : Text} (hrule : Lawful rule) (h : allows rule tr i r = true) :
    allows rule tr i.face (r.flatMap (loweredFaces cls)) = true := by
  rw [allows_iff] at h ⊢
  intro window hwindow
  have hlawful := hrule window hwindow
  rw [hlawful.left]
  by_contra hstarts
  rw [Bool.not_eq_false] at hstarts
  have := h window hwindow
  rw [startsWith_loweredFaces (hlawful.right tr i) (hlawful.new tr i) hstarts] at this
  cases this

theorem seated_lowered {cls : Text} (hrule : Lawful rule) (h : seated rule tr items = true) :
    seated rule tr (items.flatMap (loweredFaces cls)) = true := by
  induction items generalizing tr with
  | nil => rfl
  | cons i r ih =>
    simp only [seated, Bool.and_eq_true] at h
    have hr := ih h.2
    rw [List.flatMap_cons]
    cases hi : i.isBlock with
    | false =>
      rw [loweredFaces_of_not_block hi, List.singleton_append, seated, Bool.and_eq_true, trail_face]
      exact ⟨allows_lowered hrule h.1, hr⟩
    | true =>
      cases i with
      | block items m c =>
        have hnew : isQuiet (.leaf .name "new" ⟨none, m.newline⟩) = true := rfl
        simp only [loweredFaces, List.cons_append, List.nil_append, seated, Bool.and_eq_true]
        exact ⟨allows_of_isQuiet hrule hnew, allows_name_paren hrule _ _ _,
          allows_of_isQuiet hrule rfl, hr⟩
      | _ => cases hi

/-! ## blocks -/

mutual
theorem outerBlocks_unplaced : ∀ i : Item, outerBlocks i.unplaced = (outerBlocks i).map unplaced
  | .leaf _ _ _ => rfl
  | .group _ items _ _ => outerBlocksAll_unplaced items
  | .template _ rest _ => outerBlocksRest_unplaced rest
  | .block _ _ _ => rfl

theorem outerBlocksAll_unplaced :
    ∀ items : List Item, outerBlocksAll (unplacedAll items) = (outerBlocksAll items).map unplaced
  | [] => rfl
  | i :: r => by
    rw [unplacedAll, outerBlocksAll, outerBlocksAll, List.map_append, outerBlocks_unplaced i,
      outerBlocksAll_unplaced r]

theorem outerBlocksRest_unplaced : ∀ rest : List (List Item × Text),
    outerBlocksRest (unplacedRest rest) = (outerBlocksRest rest).map unplaced
  | [] => rfl
  | (items, _) :: r => by
    rw [unplacedRest, outerBlocksRest, outerBlocksRest, List.map_append,
      outerBlocksAll_unplaced items, outerBlocksRest_unplaced r]
end

theorem outerBlocksAll_beginning (h : outerBlocksAll items = []) :
    outerBlocksAll (beginning items) = [] := by
  cases items with
  | nil => rfl
  | cons i r =>
    cases i with
    | block => cases h
    | _ => exact h

theorem outerBlocksAll_of_unplacedAll {a b : List Item} (h : unplacedAll a = unplacedAll b)
    (hb : outerBlocksAll b = []) : outerBlocksAll a = [] := by
  have := congrArg outerBlocksAll h
  rwa [outerBlocksAll_unplaced, outerBlocksAll_unplaced, hb, List.map_nil, List.map_eq_nil_iff]
    at this


theorem not_clashes_of_allows (hclash : clash ∈ rule) (h : allows rule tr i r = true) :
    r.head?.any (clashes tr.dot i) = false := by
  have := allows_iff.1 h clash hclash
  cases r with
  | nil => rfl
  | cons j r => simpa [clash, startsWith] using this

theorem dot_trail (tr : Trail) (i : Item) : (i.trail tr).dot = i.isMemberDot := by
  cases i with
  | leaf k t m => cases k <;> simp [trail, Trail.behind, Word.isMemberDot, isMemberDot, isPunct]
  | _ => rfl

theorem trail_leaf {k : Piece.Kind} (hk : k.isLeaf = true) (t : Text) (m : Mark) :
    (leaf k t m).trail tr = tr.behind ⟨k.tokenKind, t, m.newline⟩ := by
  rcases Piece.Kind.isLeaf_cases hk with rfl | rfl | rfl | rfl | rfl
  · exact (Trail.behind_of_not_punct (by simp [Piece.Kind.tokenKind]) tr).symm
  · exact (Trail.behind_of_not_punct (by simp [Piece.Kind.tokenKind]) tr).symm
  · exact (Trail.behind_of_not_punct (by simp [Piece.Kind.tokenKind]) tr).symm
  · exact (Trail.behind_of_not_punct (by simp [Piece.Kind.tokenKind]) tr).symm
  · rfl

mutual
/-- where clashes are forbidden and there are no blocks, nothing clashes -/
theorem tidy_of_keeps (hclash : clash ∈ rule) : ∀ {i : Item}, i.keeps rule = true →
    outerBlocks i = [] → i.tidy = true
  | .leaf _ _ _, _, _ => rfl
  | .group _ _ _ _, h, hblocks => tidyAll_of_keepsAll hclash h hblocks
  | .template _ _ _, h, hblocks => tidyRest_of_keepsRest hclash h hblocks
  | .block _ _ _, _, hblocks => by cases hblocks

theorem tidyAll_of_keepsAll (hclash : clash ∈ rule) : ∀ {items : List Item} {tr : Trail},
    keepsAll rule tr items = true → outerBlocksAll items = [] → tidyAll tr.dot items = true
  | [], _, _, _ => rfl
  | i :: r, tr, h, hblocks => by
    simp only [keepsAll, Bool.and_eq_true] at h
    obtain ⟨⟨hi, hallows⟩, hr⟩ := h
    obtain ⟨hiblocks, hrblocks⟩ := List.append_eq_nil_iff.1 hblocks
    have htidy := tidyAll_of_keepsAll hclash hr hrblocks
    rw [dot_trail] at htidy
    rw [tidyAll, tidy_of_keeps hclash hi hiblocks, not_clashes_of_allows hclash hallows, htidy]
    rfl

theorem tidyRest_of_keepsRest (hclash : clash ∈ rule) : ∀ {rest : List (List Item × Text)},
    keepsRest rule rest = true → outerBlocksRest rest = [] → tidyRest rest = true
  | [], _, _ => rfl
  | (_, _) :: _, h, hblocks => by
    simp only [keepsRest, Bool.and_eq_true] at h
    obtain ⟨hitems, hr⟩ := List.append_eq_nil_iff.1 hblocks
    simp only [tidyRest, Bool.and_eq_true]
    exact ⟨tidyAll_of_keepsAll hclash h.1 hitems, tidyRest_of_keepsRest hclash h.2 hr⟩
end

end Item

end Relocation
