import Mathlib.Data.List.Forall2
import Relocation.Compile
import Relocation.Proofs.Creation
import Relocation.Proofs.Outcome

/-!
# What lowering puts in the place of blocks

`Item.outerBlocksAll` lists the outermost blocks of a sequence.  `lower_eq_ok`: where lowering
succeeds it gives the sequence with `artifactOf` in the place of each of them and its calls guarded,
and one plan for each, in document order.  `bodies_eq_ok`: the bodies of a module are these plans,
filled in.
-/

namespace Relocation

namespace Item

mutual
/-- the outermost blocks in an item, in document order -/
def outerBlocks : Item → List Item
  | .leaf _ _ _ => []
  | .group _ items _ _ => outerBlocksAll items
  | .template _ rest _ => outerBlocksRest rest
  | .block items m closeNewline => [.block items m closeNewline]

def outerBlocksAll : List Item → List Item
  | [] => []
  | i :: r => outerBlocks i ++ outerBlocksAll r

def outerBlocksRest : List (List Item × Text) → List Item
  | [] => []
  | (items, _) :: r => outerBlocksAll items ++ outerBlocksRest r
end

theorem outerBlocksAll_append (a b : List Item) :
    outerBlocksAll (a ++ b) = outerBlocksAll a ++ outerBlocksAll b := by
  induction a with
  | nil => rfl
  | cons i a ih => rw [List.cons_append, outerBlocksAll, outerBlocksAll, ih, List.append_assoc]

end Item

namespace Compile

variable (options : Options) (artifact : Item → List Item)

mutual
/-- what takes the place of an item when `artifact` takes the place of each outermost block in it;
calls around the blocks are guarded -/
def replaceItem : Item → Except Failure (List Item)
  | .leaf k t m => return [.leaf k t m]
  | .group b items m closeNewline => do
    let items ← (ImportCall.guardCalls options (← replaceAll items)).result
    return [.group b items ⟨none, m.newline⟩ closeNewline]
  | .template q rest m => return [.template q (← replaceRest rest) ⟨none, m.newline⟩]
  | .block items m closeNewline => return artifact (.block items m closeNewline)

def replaceAll : List Item → Except Failure (List Item)
  | [] => return []
  | i :: r => return (← replaceItem i) ++ (← replaceAll r)

def replaceRest : List (List Item × Text) → Except Failure (List (List Item × Text))
  | [] => return []
  | (items, q) :: r => do
    let items ← (ImportCall.guardCalls options (← replaceAll items)).result
    return (items, q) :: (← replaceRest r)
end

/-- the whole sequence with its blocks replaced and its calls guarded -/
def replaced (items : List Item) : Except Failure (List Item) := do
  (ImportCall.guardCalls options (← replaceAll options artifact items)).result

end Compile

namespace Compile

variable {options : Options}

/-! ## lowering taken apart -/

theorem guardCallsAfter_eq_ok {m : Noted (List Item × List Plan)} {out : List Item}
    {plans : List Plan} : (guardCallsAfter options m).result = .ok (out, plans) ↔
      ∃ items, m.result = .ok (items, plans) ∧
      (ImportCall.guardCalls options items).result = .ok out := by
  simp only [guardCallsAfter, Noted.result_bind, Noted.result_pure, Except.bind_eq_ok]
  constructor
  · rintro ⟨⟨items, _⟩, hm, out', hg, h⟩
    simp only [Except.ok.injEq, Prod.mk.injEq] at h
    obtain ⟨rfl, rfl⟩ := h
    exact ⟨items, hm, hg⟩
  · rintro ⟨items, hm, hg⟩
    exact ⟨(items, plans), hm, out, hg, rfl⟩

theorem lowerItem_group_eq_ok {b : Bracket} {items : List Item} {m : Mark} {closeNewline : Bool}
    {out : List Item} {plans : List Plan} :
    (lowerItem options (.group b items m closeNewline)).result = .ok (out, plans) ↔
      ∃ items', (lower options items).result = .ok (items', plans) ∧
        out = [.group b items' ⟨none, m.newline⟩ closeNewline] := by
  simp only [lowerItem, lower, Noted.result_bind, Noted.result_pure, Except.bind_eq_ok]
  constructor
  · rintro ⟨⟨items', _⟩, hitems, h⟩
    obtain ⟨rfl, rfl⟩ := Prod.mk.inj (Except.ok.inj h)
    exact ⟨items', hitems, rfl⟩
  · rintro ⟨items', hitems, rfl⟩
    exact ⟨(items', plans), hitems, rfl⟩

theorem lowerItem_template_eq_ok {q : Text} {rest : List (List Item × Text)} {m : Mark}
    {out : List Item} {plans : List Plan} :
    (lowerItem options (.template q rest m)).result = .ok (out, plans) ↔
      ∃ rest', (lowerRest options rest).result = .ok (rest', plans) ∧
      out = [.template q rest' ⟨none, m.newline⟩] := by
  simp only [lowerItem, Noted.result_bind, Noted.result_pure, Except.bind_eq_ok]
  constructor
  · rintro ⟨⟨rest', _⟩, hrest, h⟩
    obtain ⟨rfl, rfl⟩ := Prod.mk.inj (Except.ok.inj h)
    exact ⟨rest', hrest, rfl⟩
  · rintro ⟨rest', hrest, rfl⟩
    exact ⟨(rest', plans), hrest, rfl⟩

/-- a block has one plan, that of its lowered body -/
theorem lowerItem_block_eq_ok {items : List Item} {m : Mark} {closeNewline : Bool} {out : List Item}
    {plans : List Plan} :
    (lowerItem options (.block items m closeNewline)).result = .ok (out, plans) ↔
      ∃ body inner plan artifact, (lower options items).result = .ok (body, inner) ∧
        (bodyPlan options body).result = .ok plan ∧ plan.artifact options = .ok artifact ∧
        plans = [plan] ∧ out = match artifact with
          | [] => []
          | i :: r => (if m.newline then i.onNewLine else i) :: r := by
  simp only [lowerItem, blockArtifact, Noted.result_bind, Noted.result_lift, Noted.result_pure,
    Except.bind_eq_ok, lower]
  constructor
  · rintro ⟨⟨body, inner⟩, hlower, plan, hplan, artifact, hartifact, h⟩
    simp only [Except.ok.injEq, Prod.mk.injEq] at h
    exact ⟨body, inner, plan, artifact, hlower, hplan, hartifact, h.2.symm, h.1.symm⟩
  · rintro ⟨body, inner, plan, artifact, hlower, hplan, hartifact, rfl, rfl⟩
    exact ⟨(body, inner), hlower, plan, hplan, artifact, hartifact, rfl⟩

theorem artifact_eq_ok {plan : Plan} {artifact : List Item} : plan.artifact options = .ok artifact ↔
    ∃ rest, Plan.templateRest plan.rest = .ok rest ∧ artifact =
      [.name "new", .name options.classCode,
        .grouped .paren [.template (escapeRaw plan.first) rest {}]] := by
  rw [Plan.artifact, Except.bind_eq_ok]
  exact exists_congr fun rest => and_congr_right fun _ => ⟨fun h => (Except.ok.inj h).symm,
    fun h => h ▸ rfl⟩

/-- what takes the place of a block creates it, on a line of its own if the block stood on one -/
theorem eq_of_lowerItem_block {items : List Item} {m : Mark} {closeNewline : Bool} {out : List Item}
    {plans : List Plan}
    (h : (lowerItem options (.block items m closeNewline)).result = .ok (out, plans)) :
    ∃ plan rest, plans = [plan] ∧ Plan.templateRest plan.rest = .ok rest ∧
      out = [.leaf .name "new" ⟨none, m.newline⟩, .name options.classCode,
        .grouped .paren [.template (escapeRaw plan.first) rest {}]] := by
  obtain ⟨_, _, plan, artifact, -, -, hartifact, rfl, rfl⟩ := lowerItem_block_eq_ok.1 h
  obtain ⟨rest, hrest, rfl⟩ := artifact_eq_ok.1 hartifact
  refine ⟨plan, rest, rfl, hrest, ?_⟩
  cases m.newline <;> rfl

theorem lowerAll_cons_eq_ok {i : Item} {r out : List Item} {plans : List Plan} :
    (lowerAll options (i :: r)).result = .ok (out, plans) ↔
      ∃ first firstPlans rest restPlans, (lowerItem options i).result = .ok (first, firstPlans) ∧
        (lowerAll options r).result = .ok (rest, restPlans) ∧ out = first ++ rest ∧
        plans = firstPlans ++ restPlans := by
  simp only [lowerAll, Noted.result_bind, Noted.result_pure, Except.bind_eq_ok]
  constructor
  · rintro ⟨⟨first, firstPlans⟩, hfirst, ⟨rest, restPlans⟩, hrest, h⟩
    obtain ⟨rfl, rfl⟩ := Prod.mk.inj (Except.ok.inj h)
    exact ⟨first, firstPlans, rest, restPlans, hfirst, hrest, rfl, rfl⟩
  · rintro ⟨first, firstPlans, rest, restPlans, hfirst, hrest, rfl, rfl⟩
    exact ⟨(first, firstPlans), hfirst, (rest, restPlans), hrest, rfl⟩

theorem lowerRest_cons_eq_ok {items : List Item} {q : Text} {r out : List (List Item × Text)}
    {plans : List Plan} : (lowerRest options ((items, q) :: r)).result = .ok (out, plans) ↔
      ∃ first firstPlans rest restPlans, (lower options items).result = .ok (first, firstPlans) ∧
        (lowerRest options r).result = .ok (rest, restPlans) ∧ out = (first, q) :: rest ∧
        plans = firstPlans ++ restPlans := by
  simp only [lowerRest, lower, Noted.result_bind, Noted.result_pure, Except.bind_eq_ok]
  constructor
  · rintro ⟨⟨first, firstPlans⟩, hfirst, ⟨rest, restPlans⟩, hrest, h⟩
    obtain ⟨rfl, rfl⟩ := Prod.mk.inj (Except.ok.inj h)
    exact ⟨first, firstPlans, rest, restPlans, hfirst, hrest, rfl, rfl⟩
  · rintro ⟨first, firstPlans, rest, restPlans, hfirst, hrest, rfl, rfl⟩
    exact ⟨(first, firstPlans), hfirst, (rest, restPlans), hrest, rfl⟩

/-! ## what takes the place of a block -/

/-- the items that lowering puts in the place of a block -/
def artifactOf (options : Options) (block : Item) : List Item :=
  match (lowerItem options block).result with
  | .ok (items, _) => items
  | .error _ => []

/-- lowering makes the plan of the block -/
def LowersTo (options : Options) (block : Item) (plan : Plan) : Prop :=
  ∃ items m closeNewline out, block = .block items m closeNewline ∧
    (lowerItem options block).result = .ok (out, [plan])

/-- lowering makes a plan of a block, and the artifact of the plan takes the block's place -/
def PlannedAs (options : Options) (block : Item) (plan : Plan) : Prop :=
  plan.IsKnown ∧ ∃ first rest, plan.artifact options = .ok (first :: rest) ∧
    (artifactOf options block = first :: rest ∨ artifactOf options block = first.onNewLine :: rest)

theorem isKnown_of_bodyPlan {items : List Item} {plan : Plan}
    (h : (bodyPlan options items).result = .ok plan) : plan.IsKnown := by
  simp only [bodyPlan, Noted.result_bind, Noted.result_lift, Except.bind_eq_ok] at h
  obtain ⟨_, -, _, -, _, -, _, -, _, -, h⟩ := h
  exact Plan.isKnown_ofSplits h

theorem plannedAs_of_lowersTo {block : Item} {plan : Plan} (h : LowersTo options block plan) :
    PlannedAs options block plan := by
  obtain ⟨items, m, closeNewline, out, rfl, h⟩ := h
  have hout : artifactOf options (.block items m closeNewline) = out := by rw [artifactOf, h]
  obtain ⟨body, inner, plan', artifact, -, hplan, hartifact, hplans, rfl⟩ :=
    lowerItem_block_eq_ok.1 h
  obtain rfl := List.singleton_inj.1 hplans
  obtain ⟨rest, -, rfl⟩ := artifact_eq_ok.1 hartifact
  refine ⟨isKnown_of_bodyPlan hplan, _, _, hartifact, ?_⟩
  rw [hout]
  cases m.newline with
  | false => exact .inl rfl
  | true => exact .inr rfl

/-- a block is compiled to the creation that its plan makes -/
theorem result_lower_block {items body out rest : List Item} {inner : List Plan} {plan : Plan}
    {first : Item} {m : Mark} {closeNewline : Bool}
    (hlower : (lower options items).result = .ok (body, inner))
    (hplan : (bodyPlan options body).result = .ok plan)
    (hartifact : plan.artifact options = .ok (first :: rest))
    (hguard :
      (ImportCall.guardCalls options
        ((if m.newline then first.onNewLine else first) :: rest)).result = .ok out) :
    (lower options [.block items m closeNewline]).result = .ok (out, [plan]) := by
  have hitem : (lowerItem options (.block items m closeNewline)).result =
      .ok ((if m.newline then first.onNewLine else first) :: rest, [plan]) :=
    lowerItem_block_eq_ok.2 ⟨body, inner, plan, _, hlower, hplan, hartifact, rfl, rfl⟩
  refine guardCallsAfter_eq_ok.2 ⟨_, ?_, hguard⟩
  exact lowerAll_cons_eq_ok.2 ⟨_, _, [], [], hitem, rfl, (List.append_nil _).symm, rfl⟩

mutual
theorem lowerItem_eq_ok : ∀ {i : Item} {out : List Item} {plans : List Plan},
    (lowerItem options i).result = .ok (out, plans) →
    replaceItem options (artifactOf options) i = .ok out ∧
      List.Forall₂ (LowersTo options) (Item.outerBlocks i) plans
  | .leaf k t m, out, plans, h => by
    obtain ⟨rfl, rfl⟩ := Prod.mk.inj (Except.ok.inj h)
    exact ⟨rfl, .nil⟩
  | .group b items m closeNewline, out, plans, h => by
    obtain ⟨items', hitems, rfl⟩ := lowerItem_group_eq_ok.1 h
    obtain ⟨lowered, hlowered, hguard⟩ := guardCallsAfter_eq_ok.1 hitems
    obtain ⟨hreplace, hplans⟩ := lowerAll_eq_ok hlowered
    exact ⟨Except.bind_eq_ok.2 ⟨_, hreplace, Except.bind_eq_ok.2 ⟨_, hguard, rfl⟩⟩, hplans⟩
  | .template q rest m, out, plans, h => by
    obtain ⟨rest', hrest, rfl⟩ := lowerItem_template_eq_ok.1 h
    obtain ⟨hreplace, hplans⟩ := lowerRest_eq_ok hrest
    exact ⟨Except.bind_eq_ok.2 ⟨_, hreplace, rfl⟩, hplans⟩
  | .block items m closeNewline, out, plans, h => by
    obtain ⟨body, inner, plan, artifact, -, -, -, rfl, -⟩ := lowerItem_block_eq_ok.1 h
    refine ⟨?_, .cons ⟨items, m, closeNewline, out, rfl, h⟩ .nil⟩
    rw [replaceItem, artifactOf, h]
    rfl

theorem lowerAll_eq_ok : ∀ {items out : List Item} {plans : List Plan},
    (lowerAll options items).result = .ok (out, plans) →
    replaceAll options (artifactOf options) items = .ok out ∧
      List.Forall₂ (LowersTo options) (Item.outerBlocksAll items) plans
  | [], out, plans, h => by
    obtain ⟨rfl, rfl⟩ := Prod.mk.inj (Except.ok.inj h)
    exact ⟨rfl, .nil⟩
  | i :: r, out, plans, h => by
    obtain ⟨first, firstPlans, rest, restPlans, hfirst, hrest, rfl, rfl⟩ := lowerAll_cons_eq_ok.1 h
    obtain ⟨hfirst, hfirstPlans⟩ := lowerItem_eq_ok hfirst
    obtain ⟨hrest, hrestPlans⟩ := lowerAll_eq_ok hrest
    refine ⟨?_, List.rel_append hfirstPlans hrestPlans⟩
    simp only [replaceAll, hfirst, hrest]
    rfl

theorem lowerRest_eq_ok : ∀ {rest out : List (List Item × Text)} {plans : List Plan},
    (lowerRest options rest).result = .ok (out, plans) →
    replaceRest options (artifactOf options) rest = .ok out ∧
      List.Forall₂ (LowersTo options) (Item.outerBlocksRest rest) plans
  | [], out, plans, h => by
    obtain ⟨rfl, rfl⟩ := Prod.mk.inj (Except.ok.inj h)
    exact ⟨rfl, .nil⟩
  | (items, q) :: r, out, plans, h => by
    obtain ⟨first, firstPlans, rest, restPlans, hfirst, hrest, rfl, rfl⟩ := lowerRest_cons_eq_ok.1 h
    obtain ⟨lowered, hlowered, hguard⟩ := guardCallsAfter_eq_ok.1 hfirst
    obtain ⟨hreplace, hfirstPlans⟩ := lowerAll_eq_ok hlowered
    obtain ⟨hrest, hrestPlans⟩ := lowerRest_eq_ok hrest
    refine ⟨?_, List.rel_append hfirstPlans hrestPlans⟩
    simp only [replaceRest, hreplace, hrest]
    exact Except.bind_eq_ok.2 ⟨_, rfl, Except.bind_eq_ok.2 ⟨_, hguard, rfl⟩⟩
end

theorem lower_eq_ok {items out : List Item} {plans : List Plan}
    (h : (lower options items).result = .ok (out, plans)) :
    replaced options (artifactOf options) items = .ok out ∧
      List.Forall₂ (LowersTo options) (Item.outerBlocksAll items) plans := by
  obtain ⟨lowered, hlowered, hguard⟩ := guardCallsAfter_eq_ok.1 h
  obtain ⟨hreplace, hplans⟩ := lowerAll_eq_ok hlowered
  exact ⟨Except.bind_eq_ok.2 ⟨_, hreplace, hguard⟩, hplans⟩

/-- one body for each block, its plan filled in -/
theorem forall₂_of_fillAll {value : Substitution → Except Failure Text} {blocks : List Item}
    {plans : List Plan} (h : List.Forall₂ (LowersTo options) blocks plans) : ∀ {bodies : List Text},
    fillAll value plans = .ok bodies →
    List.Forall₂ (fun block body => ∃ plan, LowersTo options block plan ∧
      plan.fill value = .ok body) blocks bodies := by
  induction h with
  | nil =>
    intro bodies hb
    obtain rfl := Except.ok.inj hb
    exact .nil
  | cons hplan _ ih =>
    intro bodies hb
    obtain ⟨body, hbody, hb⟩ := Except.bind_eq_ok.1 hb
    obtain ⟨more, hmore, hb⟩ := Except.bind_eq_ok.1 hb
    obtain rfl := Except.ok.inj hb
    exact .cons ⟨_, hplan, hbody⟩ (ih hmore)

theorem bodies_eq_ok {source metaUrl : Text} {bodies : List Text}
    (h : (Compile.bodies options source metaUrl).result = .ok bodies) :
    ∃ p items plans, Program.read source = .ok p ∧
    (lower options p.items).result = .ok (items, plans) ∧
      List.Forall₂ (fun block body => ∃ plan, LowersTo options block plan ∧
        plan.textAt metaUrl = .ok body)
          (Item.outerBlocksAll p.items) bodies := by
  simp only [Compile.bodies, bodiesFilled, Noted.result_bind, Noted.result_lift, Except.bind_eq_ok]
    at h
  obtain ⟨p, hread, ⟨items, plans⟩, hlower, hfill⟩ := h
  exact ⟨p, items, plans, hread, hlower, forall₂_of_fillAll (lower_eq_ok hlower).2 hfill⟩

end Compile

end Relocation
