import Relocation.Proofs.Faultless
import Relocation.Proofs.Filling

/-!
# Outlines

The outline of a sequence is what lowering makes of it with its outermost blocks left in place.
Lowering gives the outline with the artifacts filled in, and sequence and outline agree item by item
in what neighbours see (`Compile.lower_outline`).
-/

namespace Relocation

namespace Compile

open Item

/-- the sequence with its calls guarded, and its outermost blocks left in place -/
def outline (items : List Item) : Except Failure (List Item) :=
  replaced {} (fun block => [block]) items

/-- `out` is the outline with its blocks replaced; to neighbours the outline looks like `items`, and
it has their blocks -/
structure Outlines (artifact : Item → List Item) (items outline out : List Item) : Prop where
  filled : out = filledAll artifact outline
  faces : outline.map face = items.map face
  blocks : outerBlocksAll outline = outerBlocksAll items

variable {artifact : Item → List Item} {items out sketch r : List Item}

theorem Outlines.createsAll (h : Outlines artifact items sketch out)
    (hcreates : CreatesAll artifact items) :
    CreatesAll artifact sketch := by
  rw [CreatesAll, h.blocks]
  exact hcreates

theorem Outlines.guardCalls (hcreates : CreatesAll artifact items)
    (h : Outlines artifact items sketch out) {out' : List Item}
    (hguard : (ImportCall.guardCalls {} out).result = .ok out') :
    ∃ sketch', (ImportCall.guardCalls {} sketch).result = .ok sketch' ∧
    Outlines artifact items sketch' out' := by
  rw [ImportCall.result_guardCalls, h.filled,
    ImportCall.guardFrom_filledAll (h.createsAll hcreates)] at hguard
  rw [ImportCall.result_guardCalls]
  cases hfrom : ImportCall.guardFrom {} .other sketch with
  | error e =>
    rw [hfrom] at hguard
    cases hguard
  | ok sketch' =>
    rw [hfrom] at hguard
    exact ⟨sketch', rfl, (Except.ok.inj hguard).symm,
      (ImportCall.map_face_of_guardFrom hfrom).trans h.faces,
      (ImportCall.outerBlocksAll_of_guardFrom hfrom).trans h.blocks⟩

mutual
theorem outlines_of_replaceItem : ∀ {i : Item} {out : List Item}, CreatesAll artifact [i] →
    replaceItem {} artifact i = .ok out →
    ∃ j, replaceItem {} (fun block => [block]) i = .ok [j] ∧ Outlines artifact [i] [j] out
  | .leaf k t m, out, _, h => by
    obtain rfl := Except.ok.inj h
    exact ⟨_, rfl, rfl, rfl, rfl⟩
  | .group b items m c, out, hcreates, h => by
    obtain ⟨lowered, hlowered, h⟩ := Except.bind_eq_ok.1 h
    obtain ⟨guarded, hguarded, h⟩ := Except.bind_eq_ok.1 h
    obtain rfl := Except.ok.inj h
    obtain ⟨sketch, hsketch, houtlines⟩ := outlines_of_replaceAll hcreates.of_group hlowered
    obtain ⟨sketch', hsketch', houtlines⟩ := houtlines.guardCalls hcreates.of_group hguarded
    refine ⟨.group b sketch' ⟨none, m.newline⟩ c,
      Except.bind_eq_ok.2 ⟨_, hsketch, Except.bind_eq_ok.2 ⟨_, hsketch', rfl⟩⟩, ?_, rfl, ?_⟩
    · rw [houtlines.filled]
      rfl
    · simp only [outerBlocksAll, outerBlocks, houtlines.blocks]
  | .template q rest m, out, hcreates, h => by
    obtain ⟨lowered, hlowered, h⟩ := Except.bind_eq_ok.1 h
    obtain rfl := Except.ok.inj h
    have hrest : ∀ block ∈ outerBlocksRest rest, Creates block (artifact block) :=
      fun block hblock =>
      hcreates block (List.mem_append_left _ hblock)
    obtain ⟨sketch, hsketch, rfl, hblocks⟩ := outlines_of_replaceRest hrest hlowered
    refine ⟨.template q sketch ⟨none, m.newline⟩, Except.bind_eq_ok.2 ⟨_, hsketch, rfl⟩,
      rfl, rfl, ?_⟩
    simp only [outerBlocksAll, outerBlocks, hblocks]
  | .block items m c, out, _, h => by
    obtain rfl := Except.ok.inj h
    exact ⟨_, rfl, (List.append_nil _).symm, rfl, rfl⟩

theorem outlines_of_replaceAll : ∀ {items out : List Item}, CreatesAll artifact items →
    replaceAll {} artifact items = .ok out →
    ∃ sketch, replaceAll {} (fun block => [block]) items = .ok sketch ∧
    Outlines artifact items sketch out
  | [], out, _, h => by
    obtain rfl := Except.ok.inj h
    exact ⟨[], rfl, rfl, rfl, rfl⟩
  | i :: r, out, hcreates, h => by
    obtain ⟨first, hfirst, h⟩ := Except.bind_eq_ok.1 h
    obtain ⟨more, hmore, h⟩ := Except.bind_eq_ok.1 h
    obtain rfl := Except.ok.inj h
    obtain ⟨j, hj, hitem⟩ := outlines_of_replaceItem hcreates.of_cons.1 hfirst
    obtain ⟨sketch, hsketch, hrest⟩ := outlines_of_replaceAll hcreates.of_cons.2 hmore
    refine ⟨j :: sketch, Except.bind_eq_ok.2 ⟨_, hj, Except.bind_eq_ok.2 ⟨_, hsketch, rfl⟩⟩,
      ?_, ?_, ?_⟩
    · rw [hitem.filled, hrest.filled, ← filledAll_append]
      rfl
    · rw [List.map_cons, List.map_cons, hrest.faces, (List.cons.inj hitem.faces).1]
    · have := hitem.blocks
      simp only [outerBlocksAll, List.append_nil] at this
      rw [outerBlocksAll, outerBlocksAll, this, hrest.blocks]

theorem outlines_of_replaceRest : ∀ {rest out : List (List Item × Text)},
    (∀ block ∈ outerBlocksRest rest, Creates block (artifact block)) →
    replaceRest {} artifact rest = .ok out →
    ∃ sketch, replaceRest {} (fun block => [block]) rest = .ok sketch ∧
    out = filledRest artifact sketch ∧
      outerBlocksRest sketch = outerBlocksRest rest
  | [], out, _, h => by
    obtain rfl := Except.ok.inj h
    exact ⟨[], rfl, rfl, rfl⟩
  | (items, q) :: r, out, hcreates, h => by
    obtain ⟨lowered, hlowered, h⟩ := Except.bind_eq_ok.1 h
    obtain ⟨guarded, hguarded, h⟩ := Except.bind_eq_ok.1 h
    obtain ⟨more, hmore, h⟩ := Except.bind_eq_ok.1 h
    obtain rfl := Except.ok.inj h
    have hitems : CreatesAll artifact items :=
      fun block hblock => hcreates block (List.mem_append_left _ hblock)
    obtain ⟨sketch, hsketch, houtlines⟩ := outlines_of_replaceAll hitems hlowered
    obtain ⟨sketch', hsketch', houtlines⟩ := houtlines.guardCalls hitems hguarded
    obtain ⟨behind, hbehind, rfl, hblocks⟩ := outlines_of_replaceRest (fun block hblock =>
      hcreates block (List.mem_append_right _ hblock)) hmore
    refine ⟨(sketch', q) :: behind,
      Except.bind_eq_ok.2 ⟨_, hsketch, Except.bind_eq_ok.2 ⟨_, hsketch',
        Except.bind_eq_ok.2 ⟨_, hbehind, rfl⟩⟩⟩, ?_, ?_⟩
    · rw [houtlines.filled]
      rfl
    · rw [outerBlocksRest, outerBlocksRest, houtlines.blocks, hblocks]
end

theorem creates_of_lowersTo {block : Item} {plan : Plan} (h : LowersTo {} block plan) :
    Creates block (artifactOf {} block) := by
  obtain ⟨inner, m, c, out, rfl, hlower⟩ := h
  obtain ⟨plan', rest, -, -, rfl⟩ := eq_of_lowerItem_block hlower
  refine ⟨[.template (escapeRaw plan'.first) rest {}], ?_⟩
  rw [artifactOf, hlower]
  rfl

/-- lowering creates blocks where blocks stood -/
theorem createsAll_artifactOf {plans : List Plan}
    (h : List.Forall₂ (LowersTo {}) (outerBlocksAll items) plans) :
    CreatesAll (artifactOf {}) items :=
  ((List.forall₂_and_left _ _).1 (h.imp fun _ _ hplan => ⟨creates_of_lowersTo hplan, hplan⟩)).1

/-- what lowering gives is the outline with the artifacts in the places of the blocks -/
theorem lower_outline {plans : List Plan} (h : (lower {} items).result = .ok (out, plans)) :
    ∃ sketch, outline items = .ok sketch ∧ Outlines (artifactOf {}) items sketch out ∧
    CreatesAll (artifactOf {}) items := by
  obtain ⟨hreplaced, hplans⟩ := lower_eq_ok h
  have hcreates := createsAll_artifactOf hplans
  obtain ⟨lowered, hlowered, hguard⟩ := Except.bind_eq_ok.1 hreplaced
  obtain ⟨sketch, hsketch, houtlines⟩ := outlines_of_replaceAll hcreates hlowered
  obtain ⟨sketch', hsketch', houtlines⟩ := houtlines.guardCalls hcreates hguard
  exact ⟨sketch', Except.bind_eq_ok.2 ⟨_, hsketch, hsketch'⟩, houtlines, hcreates⟩

/-! ## items in their places -/

/-- in an outline items stay in their places -/
theorem face_of_replaceItem {i : Item} (h : replaceItem {} (fun block => [block]) i = .ok out) :
    ∃ j, out = [j] ∧ j.face = i.face := by
  cases i with
  | leaf k t m =>
    obtain rfl := Except.ok.inj h
    exact ⟨_, rfl, rfl⟩
  | group b items m c =>
    obtain ⟨_, -, h⟩ := Except.bind_eq_ok.1 h
    obtain ⟨_, -, h⟩ := Except.bind_eq_ok.1 h
    obtain rfl := Except.ok.inj h
    exact ⟨_, rfl, rfl⟩
  | template q rest m =>
    obtain ⟨_, -, h⟩ := Except.bind_eq_ok.1 h
    obtain rfl := Except.ok.inj h
    exact ⟨_, rfl, rfl⟩
  | block items m c =>
    obtain rfl := Except.ok.inj h
    exact ⟨_, rfl, rfl⟩

theorem replaceAll_cons_eq_ok {i : Item}
    (h : replaceAll {} (fun block => [block]) (i :: r) = .ok out) :
    ∃ j rest, replaceItem {} (fun block => [block]) i = .ok [j] ∧ j.face = i.face ∧
      replaceAll {} (fun block => [block]) r = .ok rest ∧ out = j :: rest := by
  obtain ⟨first, hfirst, h⟩ := Except.bind_eq_ok.1 h
  obtain ⟨rest, hrest, h⟩ := Except.bind_eq_ok.1 h
  obtain rfl := Except.ok.inj h
  obtain ⟨j, rfl, hface⟩ := face_of_replaceItem hfirst
  exact ⟨j, rest, hfirst, hface, hrest, rfl⟩

theorem map_face_of_replaceAll (h : replaceAll {} (fun block => [block]) items = .ok out) :
    out.map face = items.map face := by
  induction items generalizing out with
  | nil =>
    obtain rfl := Except.ok.inj h
    rfl
  | cons i r ih =>
    obtain ⟨j, rest, -, hface, hrest, rfl⟩ := replaceAll_cons_eq_ok h
    rw [List.map_cons, List.map_cons, hface, ih hrest]

theorem map_face_of_outline (h : outline items = .ok sketch) :
    sketch.map face = items.map face := by
  obtain ⟨out, hout, hguard⟩ := Except.bind_eq_ok.1 h
  rw [ImportCall.result_guardCalls] at hguard
  rw [ImportCall.map_face_of_guardFrom hguard, map_face_of_replaceAll hout]

/-! ## the support import -/

/-- compiled items are lowered items, behind the support import if that was not there -/
def Supported (items out : List Item) : Prop :=
  out = items ∨ out = supportItems ++ items.head?.elim [] fun i => i.onNewLine :: items.tail

theorem supported_of_withSupport {q : Program}
    (h : (⟨items, none⟩ : Program).withSupport {} = .ok q) : Supported items q.items := by
  rcases withSupport_eq_ok h with ⟨-, rfl⟩ | ⟨support, hsupport, rfl⟩
  · exact .inl rfl
  · rw [items_eq_supportItems] at hsupport
    obtain rfl := Except.ok.inj hsupport
    exact .inr rfl

/-- a block on a line of its own is created on a line of its own -/
theorem artifactOf_onNewLine {block : Item} {first : Item} {rest : List Item}
    (hblock : block.isBlock = true) (h : artifactOf {} block = first :: rest) :
    artifactOf {} block.onNewLine = first.onNewLine :: rest := by
  cases block with
  | block items m c =>
    rw [artifactOf] at h
    split at h
    · rename_i out plans hlower
      obtain ⟨body, inner, plan, artifact, hbody, hplan, hartifact, -, rfl⟩ :=
        lowerItem_block_eq_ok.1 hlower
      have hlower' : (lowerItem {} (.block items ⟨none, true⟩ c)).result = .ok (_, _) :=
        lowerItem_block_eq_ok.2 ⟨body, inner, plan, artifact, hbody, hplan, hartifact, rfl, rfl⟩
      obtain ⟨parts, -, rfl⟩ := artifact_eq_ok.1 hartifact
      obtain ⟨rfl, rfl⟩ := List.cons.inj h
      rw [Item.onNewLine, artifactOf, hlower']
      cases m with
      | mk range newline => cases newline <;> rfl
    · cases h
  | _ => cases hblock

theorem filled_onNewLine {i : Item} (hcreates : CreatesAll (artifactOf {}) [i]) :
    ∃ first rest, filled (artifactOf {}) i = first :: rest ∧
    filled (artifactOf {}) i.onNewLine = first.onNewLine :: rest ∧
      CreatesAll (artifactOf {}) [i.onNewLine] := by
  cases i with
  | block items m c =>
    obtain ⟨inner, hinner⟩ := hcreates (.block items m c) List.mem_cons_self
    have hline := artifactOf_onNewLine rfl hinner
    refine ⟨_, _, hinner, hline, fun block hblock => ?_⟩
    obtain rfl := List.mem_singleton.1 hblock
    exact ⟨inner, hline⟩
  | leaf k t m => exact ⟨_, _, rfl, rfl, hcreates⟩
  | group b items m c => exact ⟨_, _, rfl, rfl, hcreates⟩
  | template q rest m => exact ⟨_, _, rfl, rfl, hcreates⟩

/-- the support import goes in front of an outline as it goes in front of what is lowered -/
theorem supported_filledAll (hcreates : CreatesAll (artifactOf {}) sketch)
    (h : Supported (filledAll (artifactOf {}) sketch) out) :
    ∃ sketch', Supported sketch sketch' ∧ out = filledAll (artifactOf {}) sketch' ∧
    CreatesAll (artifactOf {}) sketch' := by
  rcases h with rfl | rfl
  · exact ⟨sketch, .inl rfl, rfl, hcreates⟩
  · cases sketch with
    | nil => exact ⟨supportItems, .inr rfl, rfl, fun block hblock => by cases hblock⟩
    | cons i r =>
      obtain ⟨first, rest, hfirst, hline, hi⟩ := filled_onNewLine hcreates.of_cons.1
      refine ⟨supportItems ++ i.onNewLine :: r, .inr rfl, ?_, fun block hblock => ?_⟩
      · rw [filledAll_append, filledAll, filledAll, hfirst, hline]
        rfl
      · rw [outerBlocksAll_append] at hblock
        rcases List.mem_append.1 hblock with hblock | hblock
        · cases hblock
        · refine (List.mem_append.1 hblock).elim
            (fun hblock => hi block ?_) (hcreates.of_cons.2 block)
          exact List.mem_append_left _ hblock

/-- a compiled program is the outline of the program, behind the support import if need be, with
artifacts for blocks -/
theorem program_outline {p q : Program} (h : (program {} p).result = .ok q) :
    ∃ sketch sketch', outline p.items = .ok sketch ∧ Supported sketch sketch' ∧
      q.items = filledAll (artifactOf {}) sketch' ∧ CreatesAll (artifactOf {}) sketch' := by
  simp only [program, Noted.result_bind, Noted.result_lift] at h
  obtain ⟨⟨items, plans⟩, hlower, h⟩ := Except.bind_eq_ok.1 h
  obtain ⟨sketch, hsketch, houtlines, hcreates⟩ := lower_outline hlower
  have hsupported := supported_of_withSupport h
  rw [houtlines.filled] at hsupported
  obtain ⟨sketch', hsupport, hfilled, hcreates'⟩ :=
    supported_filledAll (houtlines.createsAll hcreates) hsupported
  exact ⟨sketch, sketch', hsketch, hsupport, hfilled, hcreates'⟩

end Compile

end Relocation
