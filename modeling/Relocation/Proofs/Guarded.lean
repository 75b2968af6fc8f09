import Relocation.Proofs.Guarding
import Relocation.Proofs.Rules

/-!
# Compiled code has no calls left to guard

`ImportCall.Done` says so of one nesting level and `Item.GuardedAll` of all.  Guarding leaves no
call of its level behind (`done_of_guardCalls`), and lowering guards level after level
(`Compile.guarded_of_lowerAll`).
-/

namespace Relocation

variable {options : Options}

namespace ImportCall

open Item (face unplaced unplacedAll)

variable {before before' previous previous' : Option Item} {i j : Item} {a b items out : List Item}

/-- no call of the sequence is left to guard, one nesting level only -/
def Done (options : Options) (before previous : Option Item) : List Item → Prop
  | [] => True
  | i :: r =>
    (isCall before previous i r = true → guardGroup? options i = .ok none) ∧
      Done options previous (some i) r

theorem result_replacements_of_done (h : Done options before previous items) :
    (replacements options before previous items).result = .ok (items.map fun _ => none) := by
  induction items generalizing before previous with
  | nil => rfl
  | cons i r ih =>
    have hown :
        (if isCall before previous i r then guardGroup? options i else .ok none) = .ok none := by
      split_ifs with hcall
      · exact h.1 hcall
      · rfl
    rw [result_replacements_cons, hown, ih h.2]
    rfl

theorem result_guardCalls_of_done (h : Done options none none items) :
    (guardCalls options items).result = .ok items := by
  simp only [guardCalls, Noted.result_bind, Noted.result_pure]
  refine Except.bind_eq_ok.2 ⟨_, result_replacements_of_done h, congrArg Except.ok ?_⟩
  rw [List.zipWith_map_left, List.zipWith_self]
  exact List.map_id' items

/-! ## which items make a call -/

/-- a call is told by what neighbours see -/
theorem isCall_face :
    isCall (before.map face) (previous.map face) i.face (a.map face) =
    isCall before previous i a := by
  cases before <;> cases previous <;> cases a <;> simp [isCall]

theorem isCall_congr (hb : before'.map face = before.map face)
    (hp : previous'.map face = previous.map face)
    (hi : j.face = i.face) (hr : b.map face = a.map face) :
    isCall before' previous' j b = isCall before previous i a := by
  rw [← isCall_face, hb, hp, hi, hr, isCall_face]

theorem face_of_guardGroup? (h : guardGroup? options i = .ok (some j)) : j.face = i.face := by
  obtain ⟨items, out, m, closeNewline, rfl, rfl, -⟩ := guardGroup?_eq_some h
  rfl

theorem map_face_of_replacements {os : List (Option Item)}
    (h : List.Forall₂ (fun i o => ∀ j ∈ o, guardGroup? options i = .ok (some j)) items os) :
    (List.zipWith (fun o i => o.getD i) os items).map face = items.map face := by
  induction h with
  | nil => rfl
  | @cons i o items os hi _ ih =>
    rw [List.zipWith_cons_cons, List.map_cons, List.map_cons, ih]
    congr 1
    cases o with
    | none => rfl
    | some j => exact face_of_guardGroup? (hi j rfl)

/-- guarding leaves no call to guard -/
theorem done_of_replacements (hclass : options.className.isSome = true) {os : List (Option Item)}
    (h : (replacements options before previous items).result = .ok os)
    (hb : before'.map face = before.map face) (hp : previous'.map face = previous.map face) :
    Done options before' previous' (List.zipWith (fun o i => o.getD i) os items) := by
  induction items generalizing before previous before' previous' os with
  | nil =>
    obtain rfl := Except.ok.inj h
    trivial
  | cons i r ih =>
    obtain ⟨own, rest, hown, howned, hrest, rfl⟩ := replacements_cons_eq_ok h
    have hface : (own.getD i).face = i.face := by
      cases own with
      | none => rfl
      | some j => exact face_of_guardGroup? (hown j rfl)
    refine ⟨fun hcall => ?_, ih hrest hp (by rw [Option.map_some, Option.map_some, hface])⟩
    rw [isCall_congr hb hp hface (map_face_of_replacements (replacements_eq_ok hrest))] at hcall
    cases own with
    | none => exact howned hcall
    | some j => exact guardGroup?_of_guarded hclass (hown j rfl)

theorem done_of_guardCalls (hclass : options.className.isSome = true)
    (h : (guardCalls options items).result = .ok out) :
    Done options none none out := by
  simp only [guardCalls, Noted.result_bind, Noted.result_pure] at h
  obtain ⟨os, hos, h⟩ := Except.bind_eq_ok.1 h
  obtain rfl := Except.ok.inj h
  exact done_of_replacements hclass hos rfl rfl

/-- an item that is no call adds nothing to guard -/
theorem Done.cons (hcall : isCall before previous i r = false)
    (h : Done options previous (some i) r) : Done options before previous (i :: r) :=
  ⟨fun ht => absurd (hcall.symm.trans ht) Bool.false_ne_true, h⟩

theorem done_of_no_paren (h : ∀ i ∈ items, i.isGroup .paren = false) :
    Done options before previous items := by
  induction items generalizing before previous with
  | nil => trivial
  | cons i r ih =>
    obtain ⟨hi, hr⟩ := List.forall_mem_cons.1 h
    exact .cons (by simp [isCall, hi]) (ih hr)

/-- a trailing comma makes nothing a call, nor does it keep anything from being one -/
theorem done_of_append_comma {comma : Item} (hcomma : comma.isPunct "," = true)
    (h : Done options before previous (items ++ [comma])) : Done options before previous items := by
  have hbrace : comma.isGroup .brace = false := by cases comma <;> first | rfl | cases hcomma
  induction items generalizing before previous with
  | nil => trivial
  | cons i r ih =>
    refine ⟨fun hcall => h.1 ?_, ih h.2⟩
    cases r with
    | nil => simpa [isCall, hbrace] using hcall
    | cons j r => exact hcall

/-- what comes before the sequence matters as far as it can be seen -/
theorem done_congr (hb : before'.any (·.isMemberDot) = before.any (·.isMemberDot))
    (hp : previous'.any (·.isMemberDot) = previous.any (·.isMemberDot))
    (hn : previous'.any (·.isName "import") = previous.any (·.isName "import"))
    (h : Done options before previous items) :
    Done options before' previous' items := by
  induction items generalizing before previous before' previous' with
  | nil => trivial
  | cons i r ih =>
    refine ⟨fun hcall => h.1 ?_, ih hp rfl rfl h.2⟩
    simpa [isCall, hb, hn] using hcall

end ImportCall

namespace Item

open ImportCall (Done)

mutual
/-- no call inside the item is left to guard -/
def Guarded (options : Options) : Item → Prop
  | .leaf _ _ _ => True
  | .group _ items _ _ => Done options none none items ∧ GuardedEach options items
  | .template _ rest _ => GuardedRest options rest
  | .block _ _ _ => True

def GuardedEach (options : Options) : List Item → Prop
  | [] => True
  | i :: r => Guarded options i ∧ GuardedEach options r

def GuardedRest (options : Options) : List (List Item × Text) → Prop
  | [] => True
  | (items, _) :: r =>
    (Done options none none items ∧ GuardedEach options items) ∧ GuardedRest options r
end

/-- no call of the sequence is left to guard, at any depth -/
def GuardedAll (options : Options) (items : List Item) : Prop := Done options none none items ∧
    GuardedEach options items

variable {i j : Item} {a b items out : List Item} {rest : List (List Item × Text)}

theorem guardedEach_append : GuardedEach options (a ++ b) ↔ GuardedEach options a ∧
    GuardedEach options b := by
  induction a with
  | nil => simp [GuardedEach]
  | cons i a ih => simp only [List.cons_append, GuardedEach, ih, and_assoc]

/-- single tokens make no calls -/
theorem guarded_of_leaves (h : ∀ i ∈ items, ∃ k t m, i = .leaf k t m) :
    GuardedAll options items := by
  refine ⟨ImportCall.done_of_no_paren fun i hi => ?_, ?_⟩
  · obtain ⟨k, t, m, rfl⟩ := h i hi
    rfl
  · induction items with
    | nil => trivial
    | cons i r ih =>
      obtain ⟨⟨k, t, m, rfl⟩, hr⟩ := List.forall_mem_cons.1 h
      exact ⟨trivial, ih hr⟩

theorem guarded_located (t : Text) (m : Mark) :
    GuardedAll options (ImportCall.located (.leaf .string t m)) :=
  ⟨.cons rfl (.cons rfl (.cons rfl trivial)), trivial, trivial,
    guarded_of_leaves (by simp [Substitution.metaUrlItems, name, punct]), trivial⟩

theorem guarded_fixedUp (h : GuardedAll options items) :
    GuardedAll options (ImportCall.fixedUp options items) :=
  ⟨.cons rfl (.cons rfl (.cons rfl (.cons rfl trivial))), trivial, trivial, trivial, h, trivial⟩

theorem guarded_of_guardArguments (hitems : GuardedAll options items)
    (h : ImportCall.guardArguments options items = .ok (some out)) : GuardedAll options out := by
  obtain ⟨argument, hargument, hout⟩ := ImportCall.guardArguments_eq_some h
  have hdone : GuardedAll options argument := by
    rcases eq_of_argumentsOf_singleton hargument with rfl | ⟨comma, hcomma, rfl⟩
    · exact hitems
    · exact ⟨ImportCall.done_of_append_comma hcomma hitems.1, (guardedEach_append.1 hitems.2).1⟩
  rcases hout with ⟨t, m, rfl, rfl⟩ | rfl
  · exact guarded_located t m
  · exact guarded_fixedUp hdone

/-- guarding a sequence leaves no call to guard in it or inside of it -/
theorem guarded_of_guardCalls (hclass : options.className.isSome = true)
    (hitems : GuardedEach options items)
    (h : (ImportCall.guardCalls options items).result = .ok out) : GuardedAll options out := by
  refine ⟨ImportCall.done_of_guardCalls hclass h, ?_⟩
  have hpairs := ImportCall.guardCalls_eq_ok h
  clear h
  induction hpairs with
  | nil => trivial
  | @cons i j items out hij _ ih =>
    refine ⟨?_, ih hitems.2⟩
    rcases hij with rfl | hij
    · exact hitems.1
    · obtain ⟨items, out, m, closeNewline, rfl, rfl, hguarded⟩ := ImportCall.guardGroup?_eq_some hij
      exact guarded_of_guardArguments hitems.1 hguarded

/-! ## artifacts -/

theorem guarded_of_code {s : Substitution} (h : s.code = .ok items) : GuardedAll options items := by
  have hstringified : ∀ {argument : List Item}, GuardedAll options argument →
      GuardedAll options (Substitution.stringified argument) :=
    fun hargument => ⟨.cons rfl (.cons rfl (.cons rfl (.cons rfl trivial))), trivial, trivial,
      trivial, hargument, trivial⟩
  match s with
  | .metaUrl =>
    obtain rfl := Except.ok.inj h
    exact hstringified (guarded_of_leaves (by simp [Substitution.metaUrlItems, name, punct]))
  | .staticImport (some t) =>
    obtain rfl := Except.ok.inj h
    exact hstringified (guarded_located (Json.literal t) {})
  | .staticImport none =>
    obtain rfl := Except.ok.inj h
    exact hstringified ⟨.cons rfl (.cons rfl (.cons rfl trivial)), trivial, trivial,
      guarded_of_leaves (by simp [Substitution.metaUrlItems, name, punct]), trivial⟩
  | .other label => cases h

theorem guarded_templateRest {parts : List (Substitution × Text)}
    (h : Plan.templateRest parts = .ok rest) :
    GuardedRest options rest := by
  induction parts generalizing rest with
  | nil =>
    obtain rfl := Except.ok.inj h
    trivial
  | cons part parts ih =>
    obtain ⟨items, more, hitems, hmore, rfl⟩ := Plan.templateRest_cons_eq_ok.1 h
    exact ⟨guarded_of_code hitems, ih hmore⟩

theorem guarded_onNewLine (i : Item) : Guarded options i.onNewLine ↔ Guarded options i := by
  cases i <;> exact Iff.rfl

end Item

namespace Compile

open Item
open ImportCall (Done)

variable {i : Item} {items out : List Item} {rest outRest : List (List Item × Text)}
  {plans : List Plan}

theorem guarded_of_guardCallsAfter {m : Noted (List Item × List Plan)}
    (hclass : options.className.isSome = true)
    (hm : ∀ out plans, m.result = .ok (out, plans) → GuardedEach options out)
    (h : (guardCallsAfter options m).result = .ok (out, plans)) : GuardedAll options out := by
  obtain ⟨items, hitems, hguard⟩ := guardCallsAfter_eq_ok.1 h
  exact guarded_of_guardCalls hclass (hm items plans hitems) hguard

mutual
/-- lowering guards all calls -/
theorem guarded_of_lowerItem (hclass : options.className.isSome = true) :
    ∀ {i : Item} {out : List Item} {plans : List Plan},
    (lowerItem options i).result = .ok (out, plans) → GuardedEach options out
  | .leaf k t m, out, plans, h => by
    obtain ⟨rfl, rfl⟩ := Prod.mk.inj (Except.ok.inj h)
    exact ⟨trivial, trivial⟩
  | .group b items m closeNewline, out, plans, h => by
    obtain ⟨items', hitems, rfl⟩ := lowerItem_group_eq_ok.1 h
    exact ⟨guarded_of_guardCallsAfter hclass (fun _ _ h => guarded_of_lowerAll hclass h) hitems,
      trivial⟩
  | .template q rest m, out, plans, h => by
    obtain ⟨rest', hrest, rfl⟩ := lowerItem_template_eq_ok.1 h
    exact ⟨guarded_of_lowerRest hclass hrest, trivial⟩
  | .block items m closeNewline, out, plans, h => by
    obtain ⟨plan, rest, -, hrest, rfl⟩ := eq_of_lowerItem_block h
    exact ⟨trivial, trivial, ⟨.cons rfl trivial, guarded_templateRest hrest, trivial⟩, trivial⟩

theorem guarded_of_lowerAll (hclass : options.className.isSome = true) :
    ∀ {items out : List Item} {plans : List Plan},
    (lowerAll options items).result = .ok (out, plans) → GuardedEach options out
  | [], out, plans, h => by
    obtain ⟨rfl, rfl⟩ := Prod.mk.inj (Except.ok.inj h)
    trivial
  | i :: r, out, plans, h => by
    obtain ⟨first, firstPlans, more, morePlans, hfirst, hmore, rfl, rfl⟩ := lowerAll_cons_eq_ok.1 h
    exact guardedEach_append.2 ⟨guarded_of_lowerItem hclass hfirst,
      guarded_of_lowerAll hclass hmore⟩

theorem guarded_of_lowerRest (hclass : options.className.isSome = true) :
    ∀ {rest out : List (List Item × Text)} {plans : List Plan},
    (lowerRest options rest).result = .ok (out, plans) → GuardedRest options out
  | [], out, plans, h => by
    obtain ⟨rfl, rfl⟩ := Prod.mk.inj (Except.ok.inj h)
    trivial
  | (items, q) :: r, out, plans, h => by
    obtain ⟨first, firstPlans, more, morePlans, hfirst, hmore, rfl, rfl⟩ := lowerRest_cons_eq_ok.1 h
    exact ⟨guarded_of_guardCallsAfter hclass (fun _ _ h => guarded_of_lowerAll hclass h) hfirst,
      guarded_of_lowerRest hclass hmore⟩
end

end Compile

end Relocation
