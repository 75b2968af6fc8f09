import Relocation.Compile
import Relocation.Proofs.Lowering
import Relocation.Proofs.Outcome
import Relocation.Proofs.Rendering
import Relocation.Proofs.Spelling

/-!
# What compilation does not look at

Ranges play no part in lowering and printing, and neither does a line break before the first item of
a sequence: `Compile.result_lower_unplaced`, `Compile.result_lower_beginning`.
-/

namespace Relocation

namespace Item

variable {i : Item} {items : List Item}

/-! ## tests on items -/

theorem eq_of_isName {t t' : Text} (h : i.isName t = true) (h' : i.isName t' = true) : t = t' := by
  unfold isName at h h'
  split at h
  · exact (of_decide_eq_true h).symm.trans (of_decide_eq_true h')
  · cases h

theorem exists_of_isString (h : i.isString = true) : ∃ t m, i = .leaf .string t m := by
  cases i with
  | leaf k t m => cases k <;> first | exact ⟨t, m, rfl⟩ | cases h
  | _ => cases h

theorem exists_of_isAnyName (h : i.isAnyName = true) : ∃ t m, i = .leaf .name t m := by
  unfold isAnyName at h
  split at h
  · exact ⟨_, _, rfl⟩
  · cases h

theorem exists_of_isName {t : Text} (h : i.isName t = true) : ∃ m, i = .leaf .name t m := by
  unfold isName at h
  split at h
  · exact ⟨_, by rw [of_decide_eq_true h]⟩
  · cases h

theorem exists_of_isPunct {t : Text} (h : i.isPunct t = true) : ∃ m, i = .leaf .punct t m := by
  unfold isPunct at h
  split at h
  · exact ⟨_, by rw [of_decide_eq_true h]⟩
  · cases h

theorem exists_of_isGroup {b : Bracket} (h : i.isGroup b = true) :
    ∃ items m c, i = .group b items m c := by
  cases i with
  | group b' items m c =>
    obtain rfl : b' = b := by
      by_contra hb
      simp [isGroup, groupItems?, hb] at h
    exact ⟨items, m, c, rfl⟩
  | _ => cases h

theorem isPunct_of_isName {t p : Text} (h : i.isName t = true) : i.isPunct p = false := by
  obtain ⟨m, rfl⟩ := exists_of_isName h
  rfl

theorem unplacedAll_eq_map (items : List Item) : unplacedAll items = items.map unplaced := by
  induction items with
  | nil => rfl
  | cons i r ih => rw [unplacedAll, ih, List.map_cons]

theorem unplacedAll_append (a b : List Item) :
    unplacedAll (a ++ b) = unplacedAll a ++ unplacedAll b := by
  simp only [unplacedAll_eq_map, List.map_append]

@[simp] theorem isName_unplaced (i : Item) (t : Text) : i.unplaced.isName t = i.isName t := by
  cases i with
  | leaf k => cases k <;> rfl
  | _ => rfl

@[simp] theorem isPunct_unplaced (i : Item) (t : Text) : i.unplaced.isPunct t = i.isPunct t := by
  cases i with
  | leaf k => cases k <;> rfl
  | _ => rfl

@[simp] theorem isMemberDot_unplaced (i : Item) : i.unplaced.isMemberDot = i.isMemberDot := by
  simp [isMemberDot]

@[simp] theorem stringText?_unplaced (i : Item) : i.unplaced.stringText? = i.stringText? := by
  cases i with
  | leaf k => cases k <;> rfl
  | _ => rfl

@[simp] theorem isString_unplaced (i : Item) : i.unplaced.isString = i.isString := by
  simp [isString]

@[simp] theorem groupItems?_unplaced (i : Item) (b : Bracket) :
    i.unplaced.groupItems? b = (i.groupItems? b).map unplacedAll := by
  cases i with
  | group b' items m c => simp only [unplaced, groupItems?]; split <;> rfl
  | _ => rfl

@[simp] theorem isGroup_unplaced (i : Item) (b : Bracket) : i.unplaced.isGroup b = i.isGroup b := by
  simp [isGroup]

@[simp] theorem isClass_unplaced (options : Options) (i : Item) :
    options.isClass i.unplaced = options.isClass i := by
  simp [Options.isClass]

end Item

/-! ## calls -/

namespace ImportCall

open Item (unplaced unplacedAll unplacedAll_eq_map)

theorem splitCommas_unplaced (items : List Item) :
    splitCommas (unplacedAll items) = (splitCommas items).map unplacedAll := by
  induction items with
  | nil => rfl
  | cons i r ih =>
    rw [unplacedAll, splitCommas, splitCommas, ih]
    cases splitCommas r with
    | nil => rfl
    | cons p ps =>
      simp only [List.map_cons, Item.isPunct_unplaced]
      split <;> rfl

theorem argumentsOf_unplaced (items : List Item) :
    argumentsOf (unplacedAll items) = (argumentsOf items).map unplacedAll := by
  have hlast : (((splitCommas items).map unplacedAll).getLast?.getD []).isEmpty =
      ((splitCommas items).getLast?.getD []).isEmpty := by
    rw [List.getLast?_map]
    cases (splitCommas items).getLast? with
    | none => rfl
    | some p => cases p <;> rfl
  rw [argumentsOf, argumentsOf, splitCommas_unplaced]
  simp only [hlast]
  split
  · rw [List.map_dropLast]
  · rfl

theorem isMetaUrl_unplaced (items : List Item) :
    isMetaUrl (unplacedAll items) = isMetaUrl items := by
  rcases items with _ | ⟨a, _ | ⟨b, _ | ⟨c, _ | ⟨d, _ | ⟨e, _ | ⟨f, r⟩⟩⟩⟩⟩⟩ <;>
    simp [unplacedAll, isMetaUrl]

theorem isFixup_unplaced (options : Options) (items : List Item) :
    isFixup options (unplacedAll items) = isFixup options items := by
  rcases items with _ | ⟨a, _ | ⟨b, _ | ⟨c, _ | ⟨d, _ | ⟨e, r⟩⟩⟩⟩⟩ <;> simp [unplacedAll, isFixup]

theorem isLocated_unplaced (items : List Item) :
    isLocated (unplacedAll items) = isLocated items := by
  rcases items with _ | ⟨a, _ | ⟨b, _ | ⟨c, _ | ⟨d, r⟩⟩⟩⟩
  · rfl
  · rfl
  · rfl
  · simp only [unplacedAll, isLocated, Item.isName_unplaced, Item.groupItems?_unplaced]
    cases c.groupItems? .paren with
    | none => rfl
    | some inner =>
      rcases inner with _ | ⟨s, _ | ⟨comma, rest⟩⟩ <;> simp [unplacedAll, isMetaUrl_unplaced]
  · rfl

theorem localLiteral?_unplaced (items : List Item) :
    localLiteral? (unplacedAll items) = (localLiteral? items).map (·.map unplaced) := by
  rcases items with _ | ⟨a, _ | ⟨b, r⟩⟩
  · rfl
  · simp only [unplacedAll, localLiteral?, Item.stringText?_unplaced]
    split
    · rfl
    · rename_i t _
      simp only [bind, Except.bind, pure, Except.pure, Except.map]
      cases Literal.value t with
      | error e => rfl
      | ok v => cases hlocal : isLocalPath v <;> simp [hlocal]
  · rfl

theorem guardArguments_unplaced (options : Options) (items : List Item) :
    guardArguments options (unplacedAll items) =
      (guardArguments options items).map (·.map unplacedAll) := by
  rw [guardArguments, guardArguments, argumentsOf_unplaced]
  rcases argumentsOf items with _ | ⟨argument, _ | ⟨next, r⟩⟩
  · rfl
  · simp only [List.map_cons, List.map_nil, localLiteral?_unplaced, isFixup_unplaced,
      isLocated_unplaced]
    cases localLiteral? argument with
    | error e => rfl
    | ok literal =>
      cases literal with
      | some literal => rfl
      | none =>
        simp only [Except.map, Option.map_none, bind, Except.bind]
        split <;> rfl
  · rfl

theorem guardGroup?_unplaced (options : Options) (i : Item) :
    guardGroup? options i.unplaced = (guardGroup? options i).map (·.map unplaced) := by
  cases i with
  | group b items m c =>
    cases b with
    | paren =>
      simp only [unplaced, guardGroup?, guardArguments_unplaced]
      cases guardArguments options items with
      | error e => rfl
      | ok items' => cases items' <;> rfl
    | square => rfl
    | brace => rfl
  | _ => rfl

theorem isCall_unplaced (before previous : Option Item) (i : Item) (r : List Item) :
    isCall (before.map unplaced) (previous.map unplaced) i.unplaced (unplacedAll r) =
    isCall before previous i r := by
  cases before <;> cases previous <;> cases r <;> simp [isCall, unplacedAll]

theorem result_replacements_cons (options : Options) (before previous : Option Item) (i : Item)
    (r : List Item) : (replacements options before previous (i :: r)).result =
      (if isCall before previous i r then guardGroup? options i else .ok none) >>= fun own =>
        (replacements options previous (some i) r).result >>= fun rest => .ok (own :: rest) := by
  have hrest : ∀ own : Option Item, (do
      if own.isSome then Noted.tell .callGuarded
      let rest ← replacements options previous (some i) r
      return own :: rest : Noted (List (Option Item))).result =
        (replacements options previous (some i) r).result >>= fun rest => .ok (own :: rest) := by
    intro own
    cases own with
    | none => exact Noted.result_bind _ _
    | some i =>
      simp only [Option.isSome, if_true, Noted.result_bind, Noted.result_tell,
        Noted.result_pure]; rfl
  rw [replacements]
  cases isCall before previous i r with
  | false => exact (Noted.result_bind _ _).trans (congrArg _ (funext hrest))
  | true => exact (Noted.result_bind _ _).trans (congrArg _ (funext hrest))

theorem result_replacements_unplaced (options : Options) (items : List Item) :
    ∀ before previous : Option Item,
    (replacements options (before.map unplaced) (previous.map unplaced)
      (unplacedAll items)).result =
        (replacements options before previous items).result.map (·.map (·.map unplaced)) := by
  induction items with
  | nil =>
    intro before previous
    rfl
  | cons i r ih =>
    intro before previous
    have hrest := ih previous (some i)
    have hown : (if isCall before previous i r then guardGroup? options i.unplaced else .ok none) =
        (if isCall before previous i r then guardGroup? options i else .ok none).map
          (·.map unplaced) := by
      rw [guardGroup?_unplaced]
      split <;> rfl
    rw [Option.map_some] at hrest
    rw [unplacedAll, result_replacements_cons, result_replacements_cons, isCall_unplaced,
      hown, hrest]
    cases (if isCall before previous i r then guardGroup? options i else .ok none) with
    | error e => rfl
    | ok own => cases (replacements options previous (some i) r).result <;> rfl

theorem result_replacements_before {i i' : Item} (h : i'.isMemberDot = i.isMemberDot)
    (options : Options) (previous : Option Item) (r : List Item) :
    (replacements options (some i') previous r).result =
      (replacements options (some i) previous r).result := by
  cases r with
  | nil => rfl
  | cons j r =>
    have hcall : isCall (some i') previous j r = isCall (some i) previous j r := by simp [isCall, h]
    rw [result_replacements_cons, result_replacements_cons, hcall]

theorem result_replacements_previous {i i' : Item} (hd : i'.isMemberDot = i.isMemberDot)
    (hn : i'.isName (Text.ofString "import") = i.isName (Text.ofString "import"))
    (options : Options) (before : Option Item) (r : List Item) :
    (replacements options before (some i') r).result =
      (replacements options before (some i) r).result := by
  cases r with
  | nil => rfl
  | cons j r =>
    have hcall : isCall before (some i') j r = isCall before (some i) j r := by simp [isCall, hn]
    rw [result_replacements_cons, result_replacements_cons, hcall, result_replacements_before hd]

theorem result_guardCalls_unplaced (options : Options) (items : List Item) :
    (guardCalls options (unplacedAll items)).result =
      (guardCalls options items).result.map unplacedAll := by
  have := result_replacements_unplaced options items none none
  simp only [Option.map_none] at this
  simp only [guardCalls, Noted.result_bind, this, Noted.result_pure]
  cases (replacements options none none items).result with
  | error e => rfl
  | ok replaced =>
    simp only [Except.map, bind, Except.bind, unplacedAll_eq_map, List.map_zipWith,
      List.zipWith_map]
    congr 2
    funext o i
    cases o <;> rfl

end ImportCall

/-! ## printing -/

namespace Item

mutual
theorem unplaced_unplaced : ∀ i : Item, i.unplaced.unplaced = i.unplaced
  | .leaf _ _ _ => rfl
  | .group _ items _ _ => by simp only [unplaced, unplacedAll_unplacedAll items]
  | .template _ rest _ => by simp only [unplaced, unplacedRest_unplacedRest rest]
  | .block items _ _ => by simp only [unplaced, unplacedAll_unplacedAll items]

theorem unplacedAll_unplacedAll :
    ∀ items : List Item, unplacedAll (unplacedAll items) = unplacedAll items
  | [] => rfl
  | i :: r => by simp only [unplacedAll, unplaced_unplaced i, unplacedAll_unplacedAll r]

theorem unplacedRest_unplacedRest :
    ∀ rest : List (List Item × Text), unplacedRest (unplacedRest rest) = unplacedRest rest
  | [] => rfl
  | (items, q) :: r =>
    by simp only [unplacedRest, unplacedAll_unplacedAll items, unplacedRest_unplacedRest r]
end

mutual
theorem bare_unplaced : ∀ i : Item, i.unplaced.bare = i.bare
  | .leaf _ _ _ => rfl
  | .group _ items _ _ => by rw [unplaced, bare, bare, bareAll_unplaced items]
  | .template _ rest _ => by rw [unplaced, bare, bare, bareRest_unplaced rest]
  | .block items _ _ => by rw [unplaced, bare, bare, bareAll_unplaced items]

theorem bareAll_unplaced : ∀ items : List Item, bareAll (unplacedAll items) = bareAll items
  | [] => rfl
  | i :: r => by rw [unplacedAll, bareAll, bareAll, bare_unplaced i, bareAll_unplaced r]

theorem bareRest_unplaced :
    ∀ rest : List (List Item × Text), bareRest (unplacedRest rest) = bareRest rest
  | [] => rfl
  | (items, _) :: r =>
    by rw [unplacedRest, bareRest, bareRest, bareAll_unplaced items, bareRest_unplaced r]
end

theorem isEmpty_unplacedRest (rest : List (List Item × Text)) :
    (unplacedRest rest).isEmpty = rest.isEmpty := by
  cases rest <;> rfl

@[simp] theorem newline_mark_unplaced (i : Item) : i.unplaced.mark.newline = i.mark.newline := by
  cases i <;> rfl

mutual
theorem pieces_unplaced : ∀ (i : Item) (depth : Nat), pieces depth i.unplaced = pieces depth i
  | .leaf _ _ _ => fun _ => rfl
  | .group _ items _ _ => fun depth => by simp only [unplaced, pieces, piecesFrom_unplaced items]
  | .template _ rest _ =>
    fun depth => by simp only [unplaced, pieces, isEmpty_unplacedRest, restPieces_unplaced rest]
  | .block items _ _ => fun depth => by simp only [unplaced, pieces, piecesFrom_unplaced items]

theorem piecesFrom_unplaced : ∀ (items : List Item) (depth questions : Nat),
    piecesFrom depth questions (unplacedAll items) = piecesFrom depth questions items
  | [] => fun _ _ => rfl
  | i :: r => fun depth questions => by
    simp only [unplacedAll, piecesFrom, pieces_unplaced i, piecesFrom_unplaced r, isPunct_unplaced,
      newline_mark_unplaced]

theorem restPieces_unplaced : ∀ (rest : List (List Item × Text)) (depth : Nat),
    restPieces depth (unplacedRest rest) = restPieces depth rest
  | [] => fun _ => rfl
  | (items, q) :: r => fun depth => by
    simp only [unplacedRest, restPieces, piecesFrom_unplaced items, restPieces_unplaced r,
      isEmpty_unplacedRest]
end

theorem pieces_begun (depth : Nat) (newline : Bool) (i : Item) :
    ∃ p r, pieces depth i = p :: r ∧ pieces depth (i.begun newline) = { p with newline } :: r := by
  cases i with
  | leaf k t m => exact ⟨_, _, rfl, rfl⟩
  | group b items m c =>
    exact ⟨_, _, by rw [pieces, List.cons_append], by rw [begun, pieces, List.cons_append]⟩
  | block items m c =>
    exact ⟨_, _, by rw [pieces, List.cons_append], by rw [begun, pieces, List.cons_append]⟩
  | template q rest m =>
    simp only [begun, pieces]
    cases rest.isEmpty <;> exact ⟨_, _, rfl, rfl⟩

@[simp] theorem isPunct_begun (newline : Bool) (i : Item) (t : Text) :
    (i.begun newline).isPunct t = i.isPunct t := by
  cases i with
  | leaf k => cases k <;> rfl
  | _ => rfl

@[simp] theorem isName_begun (newline : Bool) (i : Item) (t : Text) :
    (i.begun newline).isName t = i.isName t := by
  cases i with
  | leaf k => cases k <;> rfl
  | _ => rfl

theorem piecesFrom_begun (newline : Bool) (i : Item) (r : List Item) (depth questions : Nat) :
    ∃ p ps, piecesFrom depth questions (i :: r) = p :: ps ∧
      piecesFrom depth questions (i.begun newline :: r) = { p with newline } :: ps := by
  obtain ⟨p, ps, hp, hp'⟩ := pieces_begun depth newline i
  simp only [piecesFrom, isPunct_begun, hp, hp', List.cons_append]
  split
  · exact ⟨_, _, rfl, rfl⟩
  split
  · refine ⟨_, _, rfl, ?_⟩
    cases i <;> rfl
  · exact ⟨_, _, rfl, rfl⟩

/-- the same sequence up to ranges and a line break before it -/
def Alike (a b : List Item) : Prop := unplacedAll (beginning a) = unplacedAll (beginning b)

variable {a b : List Item}

theorem Alike.symm (h : Alike a b) : Alike b a := Eq.symm h

theorem Alike.trans {c : List Item} (h : Alike a b) (h' : Alike b c) : Alike a c := Eq.trans h h'

theorem alike_unplaced (items : List Item) : Alike (unplacedAll items) items := by
  cases items with
  | nil => rfl
  | cons i r =>
    cases i <;> simp [Alike, beginning, unplacedAll, begun, unplaced, unplacedAll_unplacedAll,
      unplacedRest_unplacedRest]

theorem alike_beginning (items : List Item) : Alike (beginning items) items := by
  cases items with
  | nil => rfl
  | cons i r => cases i <;> rfl

theorem alike_append {s : List Item} (h : unplacedAll a = unplacedAll b) :
    Alike (s ++ a) (s ++ b) := by
  cases s with
  | nil =>
    cases a with
    | nil =>
      cases b with
      | nil => rfl
      | cons j b => cases h
    | cons i a =>
      cases b with
      | nil => cases h
      | cons j b =>
        obtain ⟨hi, hr⟩ := List.cons.inj h
        have hbegun : (i.begun false).unplaced = (j.begun false).unplaced := by
          cases i <;> cases j <;> simp_all [begun, unplaced]
        simp only [List.nil_append, Alike, beginning, unplacedAll, hbegun, hr]
  | cons i s => simp only [List.cons_append, Alike, beginning, unplacedAll, unplacedAll_append, h]

/-- what does not depend on ranges and on a first line break is the same for sequences that are
alike -/
theorem Alike.congr {α : Type} {f : List Item → α} (hun : ∀ items, f (unplacedAll items) = f items)
    (hbegin : ∀ items, f (beginning items) = f items) (h : Alike a b) : f a = f b := by
  rw [← hbegin a, ← hun (beginning a), h, hun, hbegin]

theorem Alike.bareAll_eq (h : Alike a b) : bareAll a = bareAll b :=
  h.congr bareAll_unplaced fun items => by
    cases items with
    | nil => rfl
    | cons i r => cases i <;> rfl

theorem Alike.print_eq (h : Alike a b) : print a = print b := by
  refine h.congr (f := print) (fun items => by rw [print, piecesFrom_unplaced, print])
    fun items => ?_
  cases items with
  | nil => rfl
  | cons i r =>
    obtain ⟨p, ps, hp, hp'⟩ := piecesFrom_begun false i r 0 0
    rw [beginning, print, print, hp, hp', Piece.render_newline]

end Item

namespace Program

open Item (Alike unplacedAll beginning)

variable {options : Options} {a b : List Item}

theorem printFor_of_alike {s s' : Option Text} (h : Alike a b) :
    (⟨a, s⟩ : Program).printFor options = (⟨b, s'⟩ : Program).printFor options := by
  refine h.congr (f := fun items => (⟨items, s⟩ : Program).printFor options)
    (fun items => ?_) fun items => ?_
  · have : (⟨unplacedAll items, s⟩ : Program).print = (⟨items, s⟩ : Program).print :=
      (Item.alike_unplaced items).print_eq
    simp only [printFor, this, Item.piecesFrom_unplaced]
  · have : (⟨beginning items, s⟩ : Program).print = (⟨items, s⟩ : Program).print :=
      (Item.alike_beginning items).print_eq
    simp only [printFor, this]
    cases items with
    | nil => rfl
    | cons i r =>
      obtain ⟨p, ps, hp, hp'⟩ := Item.piecesFrom_begun false i r 0 0
      simp only [beginning, hp, hp']
      cases ps with
      | nil => rfl
      | cons q ps => rfl

end Program

namespace Support.Import

open Item (Alike unplacedAll beginning)

theorem leads_unplaced (options : Options) (items : List Item) :
    leads options (unplacedAll items) = leads options items := by
  rcases items with _ | ⟨a, _ | ⟨b, _ | ⟨c, _ | ⟨d, r⟩⟩⟩⟩
  · rfl
  · rfl
  · rfl
  · rfl
  · simp only [unplacedAll, leads, Item.isName_unplaced, Item.groupItems?_unplaced,
      Item.stringText?_unplaced]
    rcases b.groupItems? .brace with _ | _ | ⟨n, _ | ⟨m, r⟩⟩ <;> simp [unplacedAll]

theorem isPresent_unplaced (options : Options) (items : List Item) :
    isPresent options (unplacedAll items) = isPresent options items := by
  induction items with
  | nil => rfl
  | cons i r ih =>
    have := leads_unplaced options (i :: r)
    rw [unplacedAll] at this ⊢
    rw [isPresent, isPresent, this, ih]

theorem isPresent_beginning (options : Options) (items : List Item) :
    isPresent options (beginning items) = isPresent options items := by
  cases items with
  | nil => rfl
  | cons i r =>
    have : leads options (i.begun false :: r) = leads options (i :: r) := by
      rcases r with _ | ⟨b, _ | ⟨c, _ | ⟨d, r⟩⟩⟩ <;> simp only [leads, Item.isName_begun]
    rw [beginning, isPresent, isPresent, this]

end Support.Import

namespace Compile

open Item (Alike unplacedAll beginning)

/-- the text of items that have been lowered -/
def printed (options : Options) (items : List Item) : Except Failure Text := do
  let program ← (⟨items, none⟩ : Program).withSupport options
  program.printFor options

/-- the plan of a text, which is read for its splits -/
def planOf (text : Text) : Except Failure Plan := do
  let program ← Program.read text
  let splits ← program.splits
  Plan.ofSplits text splits

variable {options : Options} {a b : List Item}

theorem result_bodyPlan (options : Options) (items : List Item) :
    (bodyPlan options items).result = printed options items >>= planOf := by
  simp only [bodyPlan, printed, Noted.result_bind, Noted.result_lift, Noted.result_tell, bind_assoc]
  rfl

theorem printed_eq (options : Options) (items : List Item) :
    printed options items = Support.Import.isPresent options items >>= fun present =>
      if present then (⟨items, none⟩ : Program).printFor options
      else Support.Import.items options >>= fun support =>
        (⟨support ++ items.head?.elim [] fun i => i.onNewLine :: items.tail, none⟩ :
          Program).printFor options := by
  simp only [printed, Program.withSupport, Program.withSupport?, bind_assoc]
  cases Support.Import.isPresent options items with
  | error e => rfl
  | ok present =>
    cases present with
    | true => rfl
    | false =>
      cases hs : Support.Import.items options with
      | error e => simp [bind, Except.bind]
      | ok support => cases items <;> simp [bind, Except.bind, pure, Except.pure]

theorem printed_of_alike (h : Alike a b) : printed options a = printed options b := by
  refine h.congr (f := printed options) (fun items => ?_) fun items => ?_
  · rw [printed_eq, printed_eq, Support.Import.isPresent_unplaced]
    congr
    funext present
    rw [Program.printFor_of_alike (Item.alike_unplaced items)]
    congr
    funext support
    refine Program.printFor_of_alike (Item.alike_append ?_)
    cases items with
    | nil => rfl
    | cons i r =>
      cases i <;> simp [unplacedAll, Item.unplaced, Item.onNewLine, Item.unplacedAll_unplacedAll,
        Item.unplacedRest_unplacedRest]
  · rw [printed_eq, printed_eq, Support.Import.isPresent_beginning]
    congr
    funext present
    rw [Program.printFor_of_alike (Item.alike_beginning items)]
    cases items with
    | nil => rfl
    | cons i r => cases i <;> rfl

/-! ## lowering -/

theorem result_guardCallsAfter_map {f : List Item → List Item}
    (hf : ∀ items, (ImportCall.guardCalls options (f items)).result =
      (ImportCall.guardCalls options items).result.map f)
    {m m' : Noted (List Item × List Plan)} (h : m'.result = m.result.map (Prod.map f id)) :
    (guardCallsAfter options m').result =
      (guardCallsAfter options m).result.map (Prod.map f id) := by
  simp only [guardCallsAfter, Noted.result_bind, Noted.result_pure, h]
  cases m.result with
  | error e => rfl
  | ok o =>
    simp only [Except.map, Prod.map, bind, Except.bind, hf]
    cases (ImportCall.guardCalls options o.1).result <;> rfl

theorem unplacedAll_code {s : Substitution} {items : List Item} (h : s.code = .ok items) :
    unplacedAll items = items := by
  match s with
  | .metaUrl => cases h; rfl
  | .staticImport none => cases h; rfl
  | .staticImport (some t) => cases h; rfl
  | .other label => cases h

theorem unplacedRest_templateRest {rest : List (Substitution × Text)} :
    ∀ {items : List (List Item × Text)}, Plan.templateRest rest = .ok items →
    Item.unplacedRest items = items := by
  induction rest with
  | nil =>
    intro items h
    cases h
    rfl
  | cons s rest ih =>
    intro items h
    obtain ⟨code, more, hcode, hmore, rfl⟩ := Plan.templateRest_cons_eq_ok.1 h
    rw [Item.unplacedRest, unplacedAll_code hcode, ih hmore]

theorem unplacedAll_artifact {plan : Plan} {artifact : List Item}
    (h : plan.artifact options = .ok artifact) : unplacedAll artifact = artifact := by
  obtain ⟨rest, hrest, rfl⟩ := artifact_eq_ok.1 h
  have := unplacedRest_templateRest hrest
  simp [unplacedAll, Item.unplaced, Item.name, Item.grouped, this]

/-- an artifact is made anew, and of the body only the plan goes into it -/
theorem result_blockArtifact_of_alike (h : Alike a b) (newline : Bool) :
    (blockArtifact options newline a).result = (blockArtifact options newline b).result := by
  simp only [blockArtifact, Noted.result_bind, result_bodyPlan, printed_of_alike h]

theorem result_blockArtifact_unplaced (newline : Bool) (items : List Item) :
    (blockArtifact options newline (unplacedAll items)).result =
      (blockArtifact options newline items).result.map (Prod.map unplacedAll id) := by
  rw [result_blockArtifact_of_alike (Item.alike_unplaced items)]
  simp only [blockArtifact, Noted.result_bind, Noted.result_lift, Noted.result_pure]
  cases (bodyPlan options items).result with
  | error e => rfl
  | ok plan =>
    cases hartifact : plan.artifact options with
    | error e => simp [bind, Except.bind, hartifact, Except.map]
    | ok artifact =>
      have := unplacedAll_artifact hartifact
      cases artifact with
      | nil => simp [bind, Except.bind, hartifact, Except.map, unplacedAll]
      | cons i r =>
        obtain ⟨hi, hr⟩ := List.cons.inj this
        cases newline with
        | false => simp [bind, Except.bind, hartifact, Except.map, unplacedAll, hi, hr]
        | true =>
          have : i.onNewLine.unplaced = i.onNewLine := by
            rw [← hi]
            cases i <;>
              simp [Item.unplaced, Item.onNewLine, Item.unplacedAll_unplacedAll,
                Item.unplacedRest_unplacedRest]
          simp [bind, Except.bind, hartifact, Except.map, unplacedAll, this, hr]

mutual
theorem result_lowerItem_unplaced (options : Options) : ∀ i : Item,
    (lowerItem options i.unplaced).result =
      (lowerItem options i).result.map (Prod.map unplacedAll id)
  | .leaf k t m => rfl
  | .group b items m c => by
    simp only [Item.unplaced, lowerItem, Noted.result_bind, Noted.result_pure,
      result_guardCallsAfter_map (ImportCall.result_guardCalls_unplaced options)
        (result_lowerAll_unplaced options items)]
    cases (guardCallsAfter options (lowerAll options items)).result <;> rfl
  | .template q rest m => by
    simp only [Item.unplaced, lowerItem, Noted.result_bind, Noted.result_pure,
      result_lowerRest_unplaced options rest]
    cases (lowerRest options rest).result <;> rfl
  | .block items m c => by
    simp only [Item.unplaced, lowerItem, Noted.result_bind,
      result_guardCallsAfter_map (ImportCall.result_guardCalls_unplaced options)
        (result_lowerAll_unplaced options items)]
    cases (guardCallsAfter options (lowerAll options items)).result with
    | error e => rfl
    | ok o => exact result_blockArtifact_unplaced m.newline o.1

theorem result_lowerAll_unplaced (options : Options) : ∀ items : List Item,
    (lowerAll options (unplacedAll items)).result =
      (lowerAll options items).result.map (Prod.map unplacedAll id)
  | [] => rfl
  | i :: r => by
    simp only [unplacedAll, lowerAll, Noted.result_bind, Noted.result_pure,
      result_lowerItem_unplaced options i, result_lowerAll_unplaced options r]
    cases (lowerItem options i).result with
    | error e => rfl
    | ok o =>
      cases (lowerAll options r).result with
      | error e => rfl
      | ok o' => simp [Except.map, bind, Except.bind, Item.unplacedAll_append]

theorem result_lowerRest_unplaced (options : Options) : ∀ rest : List (List Item × Text),
    (lowerRest options (Item.unplacedRest rest)).result =
      (lowerRest options rest).result.map (Prod.map Item.unplacedRest id)
  | [] => rfl
  | (items, q) :: r => by
    simp only [Item.unplacedRest, lowerRest, Noted.result_bind, Noted.result_pure,
      result_lowerRest_unplaced options r,
      result_guardCallsAfter_map (ImportCall.result_guardCalls_unplaced options)
        (result_lowerAll_unplaced options items)]
    cases (guardCallsAfter options (lowerAll options items)).result with
    | error e => rfl
    | ok o => cases (lowerRest options r).result <;> rfl
end

/-- the first item of a sequence is no argument group -/
theorem result_guardCalls_beginning (options : Options) (items : List Item) :
    (ImportCall.guardCalls options (beginning items)).result =
      (ImportCall.guardCalls options items).result.map beginning := by
  cases items with
  | nil => rfl
  | cons i r =>
    have hcall : ∀ j : Item, ImportCall.isCall none none j r = false := fun j => by
      simp [ImportCall.isCall]
    have hrest : (ImportCall.replacements options none (some (i.begun false)) r).result = _ :=
      ImportCall.result_replacements_previous (i := i) (by simp [Item.isMemberDot]) (by simp)
        options none r
    simp only [beginning, ImportCall.guardCalls, Noted.result_bind, Noted.result_pure,
      ImportCall.result_replacements_cons, hcall, hrest]
    cases (ImportCall.replacements options none (some i) r).result <;> rfl

theorem result_blockArtifact_begun (newline : Bool) (items : List Item) :
    (blockArtifact options false items).result =
      (blockArtifact options newline items).result.map (Prod.map beginning id) := by
  simp only [blockArtifact, Noted.result_bind, Noted.result_lift, Noted.result_pure]
  cases (bodyPlan options items).result with
  | error e => rfl
  | ok plan =>
    simp only [bind, Except.bind]
    cases hartifact : plan.artifact options with
    | error e => rfl
    | ok artifact =>
      obtain ⟨rest, -, h⟩ := Except.bind_eq_ok.1 hartifact
      obtain rfl := Except.ok.inj h
      cases newline <;> rfl

theorem result_lowerItem_begun (options : Options) (i : Item) :
    (lowerItem options (i.begun false)).result =
      (lowerItem options i).result.map (Prod.map beginning id) := by
  cases i with
  | leaf k t m => rfl
  | group b items m c =>
    simp only [Item.begun, lowerItem, Noted.result_bind, Noted.result_pure]
    cases (guardCallsAfter options (lowerAll options items)).result <;> rfl
  | template q rest m =>
    simp only [Item.begun, lowerItem, Noted.result_bind, Noted.result_pure]
    cases (lowerRest options rest).result <;> rfl
  | block items m c =>
    simp only [Item.begun, lowerItem, Noted.result_bind]
    cases (guardCallsAfter options (lowerAll options items)).result with
    | error e => rfl
    | ok o => exact result_blockArtifact_begun m.newline o.1

/-- something takes the place of every item -/
theorem lowerItem_ne_nil {i : Item} {out : List Item} {plans : List Plan}
    (h : (lowerItem options i).result = .ok (out, plans)) : out ≠ [] := by
  cases i with
  | leaf k t m =>
    obtain ⟨rfl, rfl⟩ := Prod.mk.inj (Except.ok.inj h)
    simp
  | group b items m c =>
    obtain ⟨items', -, rfl⟩ := lowerItem_group_eq_ok.1 h
    simp
  | template q rest m =>
    obtain ⟨rest', -, rfl⟩ := lowerItem_template_eq_ok.1 h
    simp
  | block items m c =>
    obtain ⟨plan, rest, -, -, rfl⟩ := eq_of_lowerItem_block h
    simp

theorem result_lower_beginning (options : Options) (items : List Item) :
    (lower options (beginning items)).result =
      (lower options items).result.map (Prod.map beginning id) := by
  refine result_guardCallsAfter_map (result_guardCalls_beginning options) ?_
  cases items with
  | nil => rfl
  | cons i r =>
    simp only [beginning, lowerAll, Noted.result_bind, Noted.result_pure, result_lowerItem_begun]
    cases hi : (lowerItem options i).result with
    | error e => rfl
    | ok o =>
      obtain ⟨j, out, hout⟩ := List.exists_cons_of_ne_nil (lowerItem_ne_nil hi)
      cases (lowerAll options r).result with
      | error e => rfl
      | ok o' => simp [Except.map, bind, Except.bind, hout, beginning]

theorem result_lower_unplaced (options : Options) (items : List Item) :
    (lower options (unplacedAll items)).result =
      (lower options items).result.map (Prod.map unplacedAll id) :=
  result_guardCallsAfter_map (ImportCall.result_guardCalls_unplaced options)
    (result_lowerAll_unplaced options items)

/-- sequences that are alike are lowered alike, or fail alike -/
theorem result_lower_of_alike (options : Options) (h : Alike a b) :
    (lower options a).result.map (Prod.map (fun items => unplacedAll (beginning items)) id) =
      (lower options b).result.map (Prod.map (fun items => unplacedAll (beginning items)) id) := by
  have hmap : ∀ items, (lower options (unplacedAll (beginning items))).result =
      (lower options items).result.map (Prod.map (fun items =>
      unplacedAll (beginning items)) id) := by
    intro items
    rw [result_lower_unplaced, result_lower_beginning]
    cases (lower options items).result <;> rfl
  rw [← hmap, show unplacedAll (beginning a) = unplacedAll (beginning b) from h, hmap]

/-- sequences that are alike are lowered alike, with the same plans -/
theorem lower_of_alike (h : Alike a b) {out : List Item} {plans : List Plan}
    (hb : (lower options b).result = .ok (out, plans)) :
    ∃ out', (lower options a).result = .ok (out', plans) ∧ Alike out' out := by
  have ha := result_lower_of_alike options h
  rw [hb] at ha
  cases hout : (lower options a).result with
  | error e => rw [hout] at ha; cases ha
  | ok o =>
    rw [hout] at ha
    simp only [Except.map, Prod.map, Except.ok.injEq, Prod.mk.injEq, id_eq] at ha
    exact ⟨o.1, by rw [← ha.2], ha.1⟩

/-- sequences that are alike fail alike -/
theorem error_of_alike (h : Alike a b) {e : Failure} (hb : (lower options b).result = .error e) :
    (lower options a).result = .error e := by
  have ha := result_lower_of_alike options h
  rw [hb] at ha
  cases hout : (lower options a).result with
  | error e' =>
    rw [hout] at ha
    obtain rfl := Except.error.inj ha
    rfl
  | ok o => rw [hout] at ha; cases ha

end Compile

end Relocation
