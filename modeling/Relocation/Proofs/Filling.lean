import Relocation.Proofs.Leads
import Relocation.Proofs.NormalForm

/-!
# Artifacts in the places of blocks

`Item.filledAll` puts something else in the place of each outermost block.  Where that is the
creation of a block (`Item.CreatesAll`), neighbours see the three words of an artifact and otherwise
what they saw before, so the same calls are found and guarded alike
(`ImportCall.guardFrom_filledAll`).
-/

namespace Relocation

namespace Item

mutual
/-- the item with something else in the place of each outermost block -/
def filled (artifact : Item → List Item) : Item → List Item
  | .leaf k t m => [.leaf k t m]
  | .group b items m closeNewline => [.group b (filledAll artifact items) m closeNewline]
  | .template q rest m => [.template q (filledRest artifact rest) m]
  | .block items m closeNewline => artifact (.block items m closeNewline)

def filledAll (artifact : Item → List Item) : List Item → List Item
  | [] => []
  | i :: r => filled artifact i ++ filledAll artifact r

def filledRest (artifact : Item → List Item) : List (List Item × Text) → List (List Item × Text)
  | [] => []
  | (items, q) :: r => (filledAll artifact items, q) :: filledRest artifact r
end

/-- the items create a block, on a line of their own if the block stands on one -/
def Creates (block : Item) (items : List Item) : Prop :=
  ∃ inner, items = [.leaf .name "new" ⟨none, block.mark.newline⟩, .name "ModuleBlock",
    .grouped .paren inner]

/-- blocks are created in the places of the outermost blocks -/
def CreatesAll (artifact : Item → List Item) (items : List Item) : Prop :=
  ∀ block ∈ outerBlocksAll items, Creates block (artifact block)

variable {artifact : Item → List Item} {i x : Item} {r items out : List Item}

theorem filledAll_append (artifact : Item → List Item) (a b : List Item) :
    filledAll artifact (a ++ b) = filledAll artifact a ++ filledAll artifact b := by
  induction a with
  | nil => rfl
  | cons i a ih => rw [List.cons_append, filledAll, filledAll, ih, List.append_assoc]

theorem CreatesAll.of_cons (h : CreatesAll artifact (i :: r)) : CreatesAll artifact [i] ∧
    CreatesAll artifact r := by
  refine ⟨fun block hblock => h block (List.mem_append_left _ ?_), fun block hblock =>
    h block (List.mem_append_right _ hblock)⟩
  rwa [outerBlocksAll, outerBlocksAll, List.append_nil] at hblock

theorem CreatesAll.of_group {b : Bracket} {m : Mark} {c : Bool}
    (h : CreatesAll artifact [.group b items m c]) :
    CreatesAll artifact items := fun block hblock => h block (List.mem_append_left _ hblock)

/-- an item that is no block stays one item, and neighbours see no difference -/
theorem filled_of_not_block (artifact : Item → List Item) (hi : i.isBlock = false) :
    ∃ j, filled artifact i = [j] ∧ j.face = i.face := by
  cases i with
  | leaf => exact ⟨_, rfl, rfl⟩
  | group => exact ⟨_, rfl, rfl⟩
  | template => exact ⟨_, rfl, rfl⟩
  | block => cases hi

theorem map_face_filled (h : CreatesAll artifact [i]) :
    (filled artifact i).map face = loweredFaces "ModuleBlock" i := by
  cases hi : i.isBlock with
  | true =>
    cases i with
    | block items m closeNewline =>
      obtain ⟨inner, hinner⟩ := h (.block items m closeNewline) List.mem_cons_self
      rw [filled, hinner]
      rfl
    | _ => cases hi
  | false =>
    obtain ⟨j, hj, hface⟩ := filled_of_not_block artifact hi
    rw [hj, List.map_singleton, hface, loweredFaces_of_not_block hi]

/-- neighbours see of the filled sequence the faces of artifacts and those of the other items -/
theorem map_face_filledAll (h : CreatesAll artifact items) :
    (filledAll artifact items).map face = items.flatMap (loweredFaces "ModuleBlock") := by
  induction items with
  | nil => rfl
  | cons i r ih =>
    rw [filledAll, List.map_append, List.flatMap_cons, map_face_filled h.of_cons.1, ih h.of_cons.2]

theorem filledAll_eq_nil (h : CreatesAll artifact items) : filledAll artifact items = [] ↔
    items = [] := by
  cases items with
  | nil => simp [filledAll]
  | cons i r =>
    have hfaces := map_face_filled h.of_cons.1
    have hne : loweredFaces "ModuleBlock" i ≠ [] := by cases i <;> simp [loweredFaces]
    simp only [filledAll, List.append_eq_nil_iff, reduceCtorEq, iff_false, not_and]
    intro hnil
    rw [hnil] at hfaces
    exact absurd hfaces.symm hne

/-- a block leaves the first two words of its artifact -/
theorem mem_filledAll_of_isBlock (h : CreatesAll artifact items) (hi : i ∈ items)
    (hblock : i.isBlock = true) : (∃ m, .leaf .name "new" m ∈ filledAll artifact items) ∧
    .name "ModuleBlock" ∈ filledAll artifact items := by
  induction items with
  | nil => cases hi
  | cons j r ih =>
    rcases List.mem_cons.1 hi with rfl | hi
    · cases i with
      | block items m closeNewline =>
        obtain ⟨inner, hinner⟩ := h (.block items m closeNewline) List.mem_cons_self
        simp only [filledAll, filled, hinner]
        exact ⟨⟨_, List.mem_cons_self⟩, List.mem_cons_of_mem _ List.mem_cons_self⟩
      | _ => cases hblock
    · obtain ⟨⟨m, hnew⟩, hclass⟩ := ih h.of_cons.2 hi
      exact ⟨⟨m, List.mem_append_right _ hnew⟩, List.mem_append_right _ hclass⟩

/-- without blocks neighbours see no difference -/
theorem map_face_filledAll_of_no_block (h : CreatesAll artifact items)
    (hblock : ∀ i ∈ items, i.isBlock = false) :
    (filledAll artifact items).map face = items.map face := by
  rw [map_face_filledAll h]
  clear h
  induction items with
  | nil => rfl
  | cons i r ih =>
    obtain ⟨hi, hr⟩ := List.forall_mem_cons.1 hblock
    rw [List.flatMap_cons, loweredFaces_of_not_block hi, ih hr]
    rfl

/-- what holds no word of an artifact's beginning comes from a sequence without blocks -/
theorem no_block_of_filledAll (h : CreatesAll artifact items) {t : Text}
    (ht : t = Text.ofString "new" ∨ t = Text.ofString "ModuleBlock")
    (hout : ∀ x ∈ filledAll artifact items, x.isName t = false) :
    ∀ i ∈ items, i.isBlock = false := by
  intro i hi
  by_contra hblock
  obtain ⟨⟨m, hnew⟩, hclass⟩ := mem_filledAll_of_isBlock h hi (Bool.not_eq_false _ |>.mp hblock)
  rcases ht with rfl | rfl
  · exact absurd (hout _ hnew) (by simp [isName])
  · exact absurd (hout _ hclass) (by simp [name, isName])

/-- no punctuation comes from anything else -/
theorem isPunct_of_mem_loweredFaces {j : Item} {t : Text} (hi : i.isPunct t = false)
    (hj : j.face ∈ loweredFaces "ModuleBlock" i) : j.isPunct t = false := by
  rw [← isPunct_face]
  cases i with
  | block =>
    simp only [loweredFaces, List.mem_cons, List.not_mem_nil, or_false] at hj
    rcases hj with hj | hj | hj <;> rw [hj] <;> rfl
  | _ => rwa [List.mem_singleton.1 hj, isPunct_face]

theorem isPunct_of_mem_filled (h : CreatesAll artifact [i]) {t : Text} (hi : i.isPunct t = false) :
    ∀ j ∈ filled artifact i, j.isPunct t = false := fun _ hj =>
  isPunct_of_mem_loweredFaces hi (map_face_filled h ▸ List.mem_map_of_mem hj)

end Item

/-! ## calls -/

namespace ImportCall

open Item

variable {artifact : Item → List Item} {i x : Item} {r items out argument : List Item} {lead : Lead}

theorem splitCommas_filledAll (h : CreatesAll artifact items) :
    splitCommas (filledAll artifact items) = (splitCommas items).map (filledAll artifact) := by
  induction items with
  | nil => rfl
  | cons i r ih =>
    have hr := ih h.of_cons.2
    cases hi : i.isPunct "," with
    | true =>
      cases i with
      | leaf k t m =>
        rw [splitCommas_cons_of_comma hi, List.map_cons, ← hr]
        exact splitCommas_cons_of_comma hi _
      | _ => cases hi
    | false =>
      obtain ⟨p, ps, hparts⟩ := List.exists_cons_of_ne_nil (splitCommas_ne_nil r)
      rw [hparts, List.map_cons] at hr
      rw [splitCommas_cons_of_not_comma hi hparts, List.map_cons, filledAll, filledAll]
      exact splitCommas_append (isPunct_of_mem_filled h.of_cons.1 hi) hr

theorem createsAll_of_mem_splitCommas (h : CreatesAll artifact items) {part : List Item}
    (hpart : part ∈ splitCommas items) :
    CreatesAll artifact part := by
  induction items generalizing part with
  | nil =>
    obtain rfl := List.mem_singleton.1 hpart
    exact h
  | cons i r ih =>
    obtain ⟨p, ps, hparts⟩ := List.exists_cons_of_ne_nil (splitCommas_ne_nil r)
    have hr : ∀ part ∈ p :: ps, CreatesAll artifact part :=
      fun part hpart => ih h.of_cons.2 (hparts ▸ hpart)
    cases hi : i.isPunct "," with
    | true =>
      rw [splitCommas_cons_of_comma hi, hparts] at hpart
      rcases List.mem_cons.1 hpart with rfl | hpart
      · exact fun block hblock => by cases hblock
      · exact hr part hpart
    | false =>
      rw [splitCommas_cons_of_not_comma hi hparts] at hpart
      rcases List.mem_cons.1 hpart with rfl | hpart
      · refine fun block hblock => (List.mem_append.1 hblock).elim (fun hb =>
          h block (List.mem_append_left _ hb)) ?_
        exact hr p List.mem_cons_self block
      · exact hr part (List.mem_cons_of_mem p hpart)

theorem argumentsOf_filledAll (h : CreatesAll artifact items) :
    argumentsOf (filledAll artifact items) = (argumentsOf items).map (filledAll artifact) := by
  have hlast : (((splitCommas items).map (filledAll artifact)).getLast?.getD []).isEmpty =
      ((splitCommas items).getLast?.getD []).isEmpty := by
    rw [List.getLast?_map]
    cases hpart : (splitCommas items).getLast? with
    | none => rfl
    | some part =>
      have hcreates := createsAll_of_mem_splitCommas h (List.mem_of_getLast? hpart)
      rw [Bool.eq_iff_iff]
      simpa using filledAll_eq_nil hcreates
  rw [argumentsOf, argumentsOf, splitCommas_filledAll h]
  simp only [hlast]
  split
  · rw [List.map_dropLast]
  · rfl

/-! ### shapes of arguments -/

theorem isFixup_map_face (options : Options) (argument : List Item) :
    isFixup options (argument.map face) = isFixup options argument := by
  rcases argument with _ | ⟨a, _ | ⟨b, _ | ⟨c, _ | ⟨d, _ | ⟨e, r⟩⟩⟩⟩⟩ <;>
    simp [isFixup, Options.isClass]

theorem isMetaUrl_map_face (argument : List Item) :
    isMetaUrl (argument.map face) = isMetaUrl argument := by
  rcases argument with _ | ⟨a, _ | ⟨b, _ | ⟨c, _ | ⟨d, _ | ⟨e, _ | ⟨f, r⟩⟩⟩⟩⟩⟩ <;> simp [isMetaUrl]

/-- the shape is seen from outside the parentheses and from the faces inside of them -/
theorem isLocated_face (a b : Item) (inner : List Item) (m m' : Mark) (c c' : Bool) :
    isLocated [a.face, b.face, .group .paren (inner.map face) m' c'] =
      isLocated [a, b, .group .paren inner m c] := by
  simp only [isLocated, isName_face, groupItems?, if_true]
  rcases inner with _ | ⟨s, _ | ⟨comma, rest⟩⟩
  · rfl
  · rfl
  · simp [isMetaUrl_map_face]

theorem words_of_isFixup (h : isFixup {} argument = true) :
    ∀ x ∈ argument, x.isBlock = false ∧ x.isName "new" = false := by
  obtain ⟨a, b, c, d, rfl, ha, hb, hc, hd⟩ := isFixupOf_of_isFixup rfl h
  obtain ⟨_, rfl⟩ := exists_of_isName ha
  obtain ⟨_, rfl⟩ := exists_of_isPunct hb
  obtain ⟨_, rfl⟩ := exists_of_isName hc
  obtain ⟨_, _, _, rfl⟩ := exists_of_isGroup hd
  simp only [List.forall_mem_cons]
  exact ⟨⟨rfl, rfl⟩, ⟨rfl, rfl⟩, ⟨rfl, rfl⟩, ⟨rfl, rfl⟩, by simp⟩

theorem isFixup_filledAll (h : CreatesAll artifact argument) :
    isFixup {} (filledAll artifact argument) = isFixup {} argument := by
  have hfaces :
      (∀ i ∈ argument, i.isBlock = false) →
      isFixup {} (filledAll artifact argument) = isFixup {} argument := by
    intro hblock
    rw [← isFixup_map_face, map_face_filledAll_of_no_block h hblock, isFixup_map_face]
  rw [Bool.eq_iff_iff]
  constructor
  · intro hfixup
    rwa [← hfaces (no_block_of_filledAll h (.inl rfl) fun x hx => (words_of_isFixup hfixup x hx).2)]
  · intro hfixup
    rwa [hfaces fun x hx => (words_of_isFixup hfixup x hx).1]

theorem words_of_isLocated (h : isLocated argument = true) :
    ∃ a b inner m c, argument = [a, b, .group .paren inner m c] ∧ a.isBlock = false ∧
    b.isBlock = false ∧
      (∀ x ∈ argument, x.isName "ModuleBlock" = false) ∧ ∀ x ∈ inner, x.isBlock = false ∧
      x.isName "new" = false := by
  obtain ⟨a, b, s, comma, i, dot, m, dot', u, _, _, rfl, ha, hb, hs, hcomma, hi, hdot, hm, hdot',
    hu⟩ := isLocated_of_isLocated h
  obtain ⟨_, rfl⟩ := exists_of_isName ha
  obtain ⟨_, rfl⟩ := exists_of_isName hb
  obtain ⟨_, _, rfl⟩ := exists_of_isString hs
  obtain ⟨_, rfl⟩ := exists_of_isPunct hcomma
  obtain ⟨_, rfl⟩ := exists_of_isName hi
  obtain ⟨_, rfl⟩ := exists_of_isPunct hdot
  obtain ⟨_, rfl⟩ := exists_of_isName hm
  obtain ⟨_, rfl⟩ := exists_of_isPunct hdot'
  obtain ⟨_, rfl⟩ := exists_of_isName hu
  refine ⟨_, _, _, _, _, rfl, rfl, rfl, ?_, ?_⟩
  · simp only [List.forall_mem_cons]
    exact ⟨rfl, rfl, rfl, by simp⟩
  · simp only [List.forall_mem_cons]
    exact ⟨⟨rfl, rfl⟩, ⟨rfl, rfl⟩, ⟨rfl, rfl⟩, ⟨rfl, rfl⟩, ⟨rfl, rfl⟩, ⟨rfl, rfl⟩,
      ⟨rfl, rfl⟩, by simp⟩

/-- filling keeps `new URL(…)` in shape -/
theorem isLocated_filled_group {a b : Item} {inner : List Item} {m : Mark} {c : Bool}
    (h : CreatesAll artifact inner) (ha : a.isBlock = false) (hb : b.isBlock = false)
    (hinner : ∀ x ∈ inner, x.isBlock = false) :
    isLocated (filledAll artifact [a, b, .group .paren inner m c]) =
      isLocated [a, b, .group .paren inner m c] := by
  obtain ⟨a', ha', hface⟩ := filled_of_not_block artifact ha
  obtain ⟨b', hb', hface'⟩ := filled_of_not_block artifact hb
  simp only [filledAll, ha', hb', filled, List.singleton_append, List.append_nil]
  rw [← isLocated_face a' b' _ m m c c, hface, hface', map_face_filledAll_of_no_block h hinner,
    isLocated_face]

theorem isLocated_filledAll (h : CreatesAll artifact argument) :
    isLocated (filledAll artifact argument) = isLocated argument := by
  rw [Bool.eq_iff_iff]
  constructor
  · intro hlocated
    obtain ⟨a, b, inner, m, c, heq, -, -, hclass, hinner⟩ := words_of_isLocated hlocated
    have hblock := no_block_of_filledAll h (.inr rfl) hclass
    have hfaces := map_face_filledAll_of_no_block h hblock
    rw [heq] at hfaces
    obtain ⟨a₀, _, rfl, ha, hfaces⟩ := List.map_eq_cons_iff.1 hfaces.symm
    obtain ⟨b₀, _, rfl, hb, hfaces⟩ := List.map_eq_cons_iff.1 hfaces
    obtain ⟨g₀, _, rfl, hg, hfaces⟩ := List.map_eq_cons_iff.1 hfaces
    obtain rfl := List.map_eq_nil_iff.1 hfaces
    cases g₀ with
    | group bracket inner₀ m₀ c₀ =>
      have hinner₀ := h.of_cons.2.of_cons.2.of_group
      obtain ⟨rfl⟩ : bracket = .paren := by injection hg
      simp only [List.forall_mem_cons] at hblock
      obtain ⟨a', ha', -⟩ := filled_of_not_block artifact hblock.1
      obtain ⟨b', hb', -⟩ := filled_of_not_block artifact hblock.2.1
      simp only [filledAll, ha', hb', filled, List.singleton_append, List.append_nil,
        List.cons.injEq, group.injEq, true_and, and_true] at heq
      obtain ⟨-, -, rfl, -, -⟩ := heq
      have hblock₀ := no_block_of_filledAll hinner₀ (.inl rfl) fun x hx => (hinner x hx).2
      rwa [isLocated_filled_group hinner₀ hblock.1 hblock.2.1 hblock₀] at hlocated
    | _ => cases hg
  · intro hlocated
    obtain ⟨a, b, inner, m, c, rfl, ha, hb, -, hinner⟩ := words_of_isLocated hlocated
    rwa [isLocated_filled_group h.of_cons.2.of_cons.2.of_group ha hb fun x hx => (hinner x hx).1]

/-! ### guarding -/

theorem length_filledAll (h : CreatesAll artifact items) :
    items.length ≤ (filledAll artifact items).length := by
  induction items with
  | nil => exact Nat.le_refl 0
  | cons i r ih =>
    have hfilled : 1 ≤ (filled artifact i).length := by
      rw [← List.length_map face, map_face_filled h.of_cons.1]
      cases i <;> simp [loweredFaces]
    have hr := ih h.of_cons.2
    rw [filledAll, List.length_append, List.length_cons]
    omega

theorem localLiteral?_filledAll (h : CreatesAll artifact argument) :
    localLiteral? (filledAll artifact argument) = localLiteral? argument := by
  have hlong : ∀ {l : List Item}, 2 ≤ l.length → localLiteral? l = .ok none := by
    intro l hl
    match l with
    | _ :: _ :: _ => rfl
  match argument with
  | [] => rfl
  | [.leaf _ _ _] => rfl
  | [.group _ _ _ _] => rfl
  | [.template _ _ _] => rfl
  | [.block items m c] =>
    obtain ⟨inner, hinner⟩ := h (.block items m c) List.mem_cons_self
    rw [filledAll, filled, hinner]
    rfl
  | i :: j :: r =>
    rw [hlong ((by simp : 2 ≤ (i :: j :: r).length).trans (length_filledAll h))]
    rfl

theorem createsAll_of_argument (h : CreatesAll artifact items)
    (hargument : argumentsOf items = [argument]) :
    CreatesAll artifact argument := by
  rcases eq_of_argumentsOf_singleton hargument with rfl | ⟨comma, -, rfl⟩
  · exact h
  · exact fun block hblock =>
      h block (by rw [outerBlocksAll_append]; exact List.mem_append_left _ hblock)

/-- arguments are guarded alike before and after their blocks are replaced -/
theorem guardArguments_filledAll (h : CreatesAll artifact items) :
    guardArguments {} (filledAll artifact items) =
      (guardArguments {} items).map (·.map (filledAll artifact)) := by
  rw [guardArguments, guardArguments, argumentsOf_filledAll h]
  rcases hargs : argumentsOf items with _ | ⟨argument, _ | ⟨next, r⟩⟩
  · rfl
  · have hargument := createsAll_of_argument h hargs
    simp only [List.map_cons, List.map_nil, localLiteral?_filledAll hargument,
      isFixup_filledAll hargument, isLocated_filledAll hargument]
    cases hliteral : localLiteral? argument with
    | error e => rfl
    | ok literal =>
      cases literal with
      | some literal =>
        obtain ⟨t, m, rfl, -⟩ := localLiteral?_eq_some hliteral
        rfl
      | none =>
        simp only [bind, Except.bind]
        split <;> rfl
  · rfl

theorem head_filledAll (h : CreatesAll artifact r) :
    (filledAll artifact r).head?.any (·.isGroup .brace) = r.head?.any (·.isGroup .brace) := by
  cases r with
  | nil => rfl
  | cons i r =>
    cases hi : i.isBlock with
    | true =>
      cases i with
      | block items m c =>
        obtain ⟨inner, hinner⟩ := h (.block items m c) List.mem_cons_self
        rw [filledAll, filled, hinner]
        rfl
      | _ => cases hi
    | false =>
      obtain ⟨j, hj, hface⟩ := filled_of_not_block artifact hi
      simp [filledAll, hj, ← isGroup_face j, hface]

theorem guardItem_filled {j : Item} (h : CreatesAll artifact (i :: r))
    (hj : filled artifact i = [j]) (hi : i.isBlock = false) :
    (guardItem {} lead j (filledAll artifact r)).map ([·]) =
      (guardItem {} lead i r).map (filled artifact) := by
  cases i with
  | group b items m c =>
    obtain rfl := List.singleton_inj.1 hj
    cases b with
    | paren =>
      rw [guardItem, guardItem, head_filledAll h.of_cons.2]
      simp only [isGroup, groupItems?, if_true, Option.isSome_some, guardGroup?,
        guardArguments_filledAll h.of_cons.1.of_group]
      split
      · cases guardArguments {} items with
        | error e => rfl
        | ok out => cases out <;> rfl
      · rfl
    | square => rfl
    | brace => rfl
  | block => cases hi
  | _ =>
    obtain rfl := List.singleton_inj.1 hj
    rfl

/-- calls are found alike before and after blocks are replaced -/
theorem guardFrom_filledAll (h : CreatesAll artifact items) :
    guardFrom {} lead (filledAll artifact items) =
      (guardFrom {} lead items).map (filledAll artifact) := by
  induction items generalizing lead with
  | nil => rfl
  | cons i r ih =>
    have hr :
        ∀ lead, guardFrom {} lead (filledAll artifact r) =
          (guardFrom {} lead r).map (filledAll artifact) :=
      fun _ => ih h.of_cons.2
    cases hi : i.isBlock with
    | true =>
      cases i with
      | block items m c =>
        obtain ⟨inner, hinner⟩ := h (.block items m c) List.mem_cons_self
        have hclass : ∀ lead : Lead, lead.next (.name "ModuleBlock") = .other := fun _ => rfl
        have hgroup :
            guardItem {} .other (.grouped .paren inner) (filledAll artifact r) =
              .ok (.grouped .paren inner) := rfl
        have hbehind : Lead.other.next (.grouped .paren inner) = .other := rfl
        rw [filledAll, filled, hinner]
        simp only [List.cons_append, List.nil_append]
        rw [guardFrom_cons_of_kept (guardItem_of_not_paren rfl),
          guardFrom_cons_of_kept (guardItem_of_not_paren rfl), hclass,
          guardFrom_cons_of_kept hgroup, hbehind, hr,
          guardFrom_cons_of_kept (guardItem_of_not_paren rfl)]
        show _ = Except.map _ (Except.map _ (guardFrom {} .other r))
        cases guardFrom {} .other r with
        | error e => rfl
        | ok out =>
          show Except.ok _ = Except.ok (filled artifact (.block items m c) ++
            filledAll artifact out)
          rw [filled, hinner]
          rfl
      | _ => cases hi
    | false =>
      obtain ⟨j, hj, hface⟩ := filled_of_not_block artifact hi
      have hitem :
          (guardItem {} lead j (filledAll artifact r)).map ([·]) =
            (guardItem {} lead i r).map (filled artifact) :=
        guardItem_filled h hj hi
      rw [filledAll, hj, List.singleton_append, guardFrom, guardFrom, Lead.next_of_face hface, hr]
      have hfront : ∀ (m : Except Failure Item) (rest : Except Failure (List Item)),
          (do return (← m) :: (← rest)) = (do return (← m.map ([·])) ++ (← rest)) := by
        intro m rest
        cases m <;> rfl
      refine (hfront _ _).trans ?_
      rw [hitem]
      cases guardItem {} lead i r with
      | error e => rfl
      | ok k => cases guardFrom {} (lead.next i) r <;> rfl

end ImportCall

end Relocation
