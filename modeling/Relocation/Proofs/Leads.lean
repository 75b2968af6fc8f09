import Relocation.Proofs.Guarded

/-!
# Calls from left to right

Which groups of a sequence are guarded depends on the two items before a group; of these only a
`Lead` matters, so that `ImportCall.guardFrom` goes through a sequence with one word of memory.  It
finds the calls of `guardCalls` (`result_guardCalls`), and a sequence may be cut in two at any item
that is no group (`guardFrom_append_eq_ok`).
-/

namespace Relocation

/-- what stands before an item, as far as calls are concerned: the point of a member access, the
word `import` that is no member, or anything else -/
inductive Lead
  | member
  | callee
  | other
  deriving DecidableEq

namespace Lead

/-- what stands behind an item -/
def next (lead : Lead) (i : Item) : Lead :=
  if i.isMemberDot then .member else if i.isName "import" && lead ≠ .member then .callee else .other

/-- what stands behind two items in a row, if they exist -/
def ofPair (before previous : Option Item) : Lead :=
  previous.elim .other ((before.elim .other other.next).next ·)

/-- what stands behind a sequence -/
def after (lead : Lead) (items : List Item) : Lead := items.foldl next lead

variable {lead : Lead} {i : Item} {before previous : Option Item}

theorem next_eq_member : lead.next i = .member ↔ i.isMemberDot = true := by
  rw [next]
  split_ifs <;> simp_all

theorem isName_of_isMemberDot {t : Text} (h : i.isMemberDot = true) : i.isName t = false := by
  rcases Bool.or_eq_true_iff.1 h with h | h <;> obtain ⟨m, rfl⟩ := Item.exists_of_isPunct h <;> rfl

theorem next_eq_callee : lead.next i = .callee ↔ i.isName "import" = true ∧ lead ≠ .member := by
  rw [next]
  split_ifs with hdot hname
  · simp [isName_of_isMemberDot hdot]
  · simpa using hname
  · simpa using hname

/-- one item is all that is remembered -/
theorem next_next (lead lead' : Lead) (i j : Item) :
    (lead.next i).next j = (lead'.next i).next j := by
  have hmember : (lead.next i ≠ .member) = (lead'.next i ≠ .member) := by
    simp only [ne_eq, next_eq_member]
  rw [next]
  simp only [hmember]
  rfl

theorem ofPair_next (before previous : Option Item) (i : Item) :
    (ofPair before previous).next i = ofPair previous (some i) := by
  cases previous with
  | none => rfl
  | some p => exact next_next _ _ p i

theorem ofPair_eq_callee : ofPair before previous = .callee ↔
    previous.any (·.isName "import") = true ∧ before.any (·.isMemberDot) = false := by
  cases previous with
  | none => simp [ofPair]
  | some p =>
    have hbefore : before.elim other other.next = .member ↔ before.any (·.isMemberDot) = true := by
      cases before with
      | none => simp
      | some b => exact next_eq_member
    rw [ofPair, Option.elim_some, next_eq_callee, ne_eq, hbefore, Option.any_some, Bool.not_eq_true]

theorem next_of_face {j : Item} (h : j.face = i.face) : lead.next j = lead.next i := by
  rw [next, next, ← Item.isMemberDot_face j, ← Item.isName_face j, h, Item.isMemberDot_face,
    Item.isName_face]

/-- only the last item of a sequence is remembered -/
theorem after_eq_member {items : List Item} (hlead : lead ≠ .member) :
    lead.after items = .member ↔ items.getLast?.any (·.isMemberDot) = true := by
  rcases List.eq_nil_or_concat items with rfl | ⟨a, i, rfl⟩
  · simp [after, hlead]
  · rw [after, List.concat_eq_append, List.foldl_append, List.getLast?_concat]
    exact next_eq_member

end Lead

namespace ImportCall

variable {options : Options} {lead : Lead} {i word : Item} {a items out r : List Item}

/-- what becomes of an item behind `lead` when `r` follows -/
def guardItem (options : Options) (lead : Lead) (i : Item) (r : List Item) : Except Failure Item :=
  if i.isGroup .paren && lead = .callee && !r.head?.any (·.isGroup .brace) then
    return (← guardGroup? options i).getD i
  else return i

/-- a sequence behind `lead` with its calls guarded, one nesting level only -/
def guardFrom (options : Options) (lead : Lead) : List Item → Except Failure (List Item)
  | [] => .ok []
  | i :: r => do
    let j ← guardItem options lead i r
    let rest ← guardFrom options (lead.next i) r
    return j :: rest

theorem map_replacements (options : Options) (items : List Item) : ∀ before previous : Option Item,
    (replacements options before previous items).result.map
      (fun os => List.zipWith (fun o i => o.getD i) os items) =
        guardFrom options (.ofPair before previous) items := by
  induction items with
  | nil => exact fun _ _ => rfl
  | cons i r ih =>
    intro before previous
    have hcall : isCall before previous i r =
        (i.isGroup .paren && Lead.ofPair before previous = .callee &&
          !r.head?.any (·.isGroup .brace)) := by
      rw [Bool.eq_iff_iff]
      simp only [isCall, Bool.and_eq_true, decide_eq_true_eq, Lead.ofPair_eq_callee,
        Bool.not_eq_true']
      tauto
    rw [result_replacements_cons, guardFrom, guardItem, ← hcall, Lead.ofPair_next, ← ih]
    cases isCall before previous i r with
    | false => cases (replacements options previous (some i) r).result <;> rfl
    | true =>
      show Except.map _ (guardGroup? options i >>= _) = _
      cases guardGroup? options i with
      | error e => rfl
      | ok own => cases (replacements options previous (some i) r).result <;> rfl

theorem result_guardCalls (options : Options) (items : List Item) :
    (guardCalls options items).result = guardFrom options .other items := by
  refine Eq.trans ?_ (map_replacements options items none none)
  simp only [guardCalls, Noted.result_bind, Noted.result_pure]
  cases (replacements options none none items).result <;> rfl

/-! ## what becomes of items -/

theorem guardItem_of_not_paren (h : i.isGroup .paren = false) :
    guardItem options lead i r = .ok i := by
  rw [guardItem, h]
  rfl

/-- an item stays, or it is the arguments of a call and is guarded -/
theorem guardItem_eq_ok {j : Item} (h : guardItem options lead i r = .ok j) : j = i ∨
    lead = .callee ∧ ∃ args out m closeNewline, i = .group .paren args m closeNewline ∧
    j = .group .paren out ⟨none, m.newline⟩ closeNewline ∧
      guardArguments options args = .ok (some out) := by
  rw [guardItem] at h
  split_ifs at h with hcall
  · obtain ⟨own, hown, h⟩ := Except.bind_eq_ok.1 h
    obtain rfl := Except.ok.inj h
    cases own with
    | none => exact .inl rfl
    | some j =>
      simp only [Bool.and_eq_true, decide_eq_true_eq] at hcall
      exact .inr ⟨hcall.1.2, guardGroup?_eq_some hown⟩
  · exact .inl (Except.ok.inj h).symm

theorem guardFrom_cons_eq_ok : guardFrom options lead (i :: r) = .ok out ↔
    ∃ j rest, guardItem options lead i r = .ok j ∧ guardFrom options (lead.next i) r = .ok rest ∧
    out = j :: rest := by
  rw [guardFrom]
  constructor
  · intro h
    obtain ⟨j, hj, h⟩ := Except.bind_eq_ok.1 h
    obtain ⟨rest, hrest, h⟩ := Except.bind_eq_ok.1 h
    exact ⟨j, rest, hj, hrest, (Except.ok.inj h).symm⟩
  · rintro ⟨j, rest, hj, hrest, rfl⟩
    exact Except.bind_eq_ok.2 ⟨j, hj, Except.bind_eq_ok.2 ⟨rest, hrest, rfl⟩⟩

theorem guardFrom_cons_of_kept (h : guardItem options lead i r = .ok i) :
    guardFrom options lead (i :: r) = (guardFrom options (lead.next i) r).map (i :: ·) := by
  rw [guardFrom, h]
  cases guardFrom options (lead.next i) r <;> rfl

theorem face_of_guardItem {j : Item} (h : guardItem options lead i r = .ok j) :
    j.face = i.face := by
  obtain rfl | ⟨-, args, out, m, closeNewline, rfl, rfl, -⟩ := guardItem_eq_ok h
  · rfl
  · rfl

/-- neighbours see nothing of what guarding does -/
theorem map_face_of_guardFrom (h : guardFrom options lead items = .ok out) :
    out.map Item.face = items.map Item.face := by
  induction items generalizing lead out with
  | nil =>
    obtain rfl := Except.ok.inj h
    rfl
  | cons i r ih =>
    obtain ⟨j, rest, hj, hrest, rfl⟩ := guardFrom_cons_eq_ok.1 h
    rw [List.map_cons, List.map_cons, face_of_guardItem hj, ih hrest]

/-- without the word `import` there are no calls -/
theorem eq_of_guardFrom (hlead : lead ≠ .callee) (h : guardFrom options lead items = .ok out)
    (hout : ∀ i ∈ out, i.isName "import" = false) : out = items := by
  induction items generalizing lead out with
  | nil => exact (Except.ok.inj h).symm
  | cons i r ih =>
    obtain ⟨j, rest, hj, hrest, rfl⟩ := guardFrom_cons_eq_ok.1 h
    obtain ⟨himport, hout⟩ := List.forall_mem_cons.1 hout
    obtain rfl | ⟨hcallee, -⟩ := guardItem_eq_ok hj
    · have hnext : lead.next j ≠ .callee := by simp [Lead.next_eq_callee, himport]
      rw [ih hnext hrest hout]
    · exact (hlead hcallee).elim

/-! ## blocks -/

theorem outerBlocks_of_guardItem {j : Item} (h : guardItem options lead i r = .ok j) :
    j.outerBlocks = i.outerBlocks := by
  obtain rfl | ⟨-, args, out, m, closeNewline, rfl, rfl, hguard⟩ := guardItem_eq_ok h
  · rfl
  obtain ⟨argument, hargument, hout⟩ := guardArguments_eq_some hguard
  have hargs : Item.outerBlocksAll args = Item.outerBlocksAll argument := by
    rcases eq_of_argumentsOf_singleton hargument with rfl | ⟨comma, hcomma, rfl⟩
    · rfl
    · cases comma with
      | leaf => rw [Item.outerBlocksAll_append]; exact List.append_nil _
      | _ => cases hcomma
  show Item.outerBlocksAll out = Item.outerBlocksAll args
  rcases hout with ⟨t, m, rfl, rfl⟩ | rfl
  · rw [hargs]
    rfl
  · rw [hargs]
    exact List.append_nil _

/-- guarding keeps the blocks of a sequence -/
theorem outerBlocksAll_of_guardFrom (h : guardFrom options lead items = .ok out) :
    Item.outerBlocksAll out = Item.outerBlocksAll items := by
  induction items generalizing lead out with
  | nil =>
    obtain rfl := Except.ok.inj h
    rfl
  | cons i r ih =>
    obtain ⟨j, rest, hj, hrest, rfl⟩ := guardFrom_cons_eq_ok.1 h
    rw [Item.outerBlocksAll, Item.outerBlocksAll, outerBlocks_of_guardItem hj, ih hrest]

/-! ## cutting in two -/

/-- nothing that stands before an item that is no group depends on what follows it -/
theorem guardFrom_append_eq_ok (h : guardFrom options lead (a ++ word :: r) = .ok out)
    (hword : ∀ b, word.isGroup b = false) : ∃ ahead behind, guardFrom options lead a = .ok ahead ∧
    guardFrom options ((lead.after a).next word) r = .ok behind ∧
      out = ahead ++ word :: behind := by
  induction a generalizing lead out with
  | nil =>
    obtain ⟨j, behind, hj, hbehind, rfl⟩ := guardFrom_cons_eq_ok.1 h
    rw [guardItem_of_not_paren (hword .paren)] at hj
    obtain rfl := Except.ok.inj hj
    exact ⟨[], behind, rfl, hbehind, rfl⟩
  | cons i a ih =>
    rw [List.cons_append] at h
    obtain ⟨j, rest, hj, hrest, rfl⟩ := guardFrom_cons_eq_ok.1 h
    obtain ⟨ahead, behind, hahead, hbehind, rfl⟩ := ih hrest
    have hitem : guardItem options lead i (a ++ word :: r) = guardItem options lead i a := by
      cases a with
      | nil => simp [guardItem, hword]
      | cons => rfl
    rw [hitem] at hj
    exact ⟨j :: ahead, behind, guardFrom_cons_eq_ok.2 ⟨j, ahead, hj, hahead, rfl⟩, hbehind, rfl⟩

end ImportCall

end Relocation
