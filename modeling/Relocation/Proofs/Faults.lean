import Relocation.Proofs.Lowering
import Relocation.Proofs.Unplaced

/-!
# Faults of literals

Most passes fail only where they ask for the value of a string literal that has none.  Scanning for
splits fails in a second way, at a block that was left in the tree (`Split.isEscape_scanFrom`).
-/

namespace Relocation

namespace Failure

/-- the failure is that of a string literal without a value -/
def IsEscape (e : Failure) : Prop := ∃ literal, Literal.value literal = .error e

end Failure

variable {e : Failure}

namespace Split

open Item (outerBlocks outerBlocksAll outerBlocksRest)

theorem isEscape_ofSpecifier {s : Item} (h : ofSpecifier s = .error e) : e.IsEscape := by
  unfold ofSpecifier at h
  split at h
  · cases h
  · rcases Except.bind_eq_error.1 h with h | ⟨_, -, h⟩
    · exact ⟨_, h⟩
    · cases h

/-- the split that a declaration with head `i` and rest `r` claims -/
def claimed (afterDot : Bool) (i : Item) (r : List Item) : Except Failure (List Split) :=
  match if afterDot then none else specifier? i r with
  | some s => ofSpecifier s
  | none => .ok []

theorem scanFrom_cons (afterDot : Bool) (i : Item) (r : List Item) : scanFrom afterDot 0 (i :: r) =
    match if i.isName "import" && !afterDot then metaMember? r else none with
    | some (n, last) => scanFrom false n r >>= fun rest => .ok (between .metaUrl i last ++ rest)
    | none =>
      claimed afterDot i r >>= fun own => scanInside i >>= fun inner =>
        scanFrom i.isMemberDot 0 r >>= fun rest =>
        .ok (own ++ inner ++ rest) := by
  rw [scanFrom, claimed]
  cases hm : (if i.isName "import" && !afterDot then metaMember? r else none) with
  | some m => rfl
  | none => cases hs : (if afterDot then none else specifier? i r) <;> rfl

theorem isEscape_claimed {afterDot : Bool} {i : Item} {r : List Item}
    (h : claimed afterDot i r = .error e) : e.IsEscape := by
  unfold claimed at h
  split at h
  · exact isEscape_ofSpecifier h
  · cases h

mutual
/-- without blocks, scanning fails at literals only -/
theorem isEscape_scanFrom : ∀ {items : List Item}, outerBlocksAll items = [] →
    ∀ (afterDot : Bool) (skip : Nat) (e : Failure), scanFrom afterDot skip items = .error e →
    e.IsEscape
  | [], _ => by
    intro afterDot skip e h
    rw [scanFrom] at h
    cases h
  | i :: r, hb => by
    intro afterDot skip e h
    obtain ⟨hi, hr⟩ := List.append_eq_nil_iff.1 hb
    have ih := isEscape_scanFrom hr
    cases skip with
    | succ skip =>
      rw [scanFrom] at h
      exact ih false skip e h
    | zero =>
      rw [scanFrom_cons] at h
      split at h
      · rcases Except.bind_eq_error.1 h with h | ⟨_, -, h⟩
        · exact ih false _ e h
        · cases h
      · rcases Except.bind_eq_error.1 h with h | ⟨_, -, h⟩
        · exact isEscape_claimed h
        rcases Except.bind_eq_error.1 h with h | ⟨_, -, h⟩
        · exact isEscape_scanInside hi e h
        rcases Except.bind_eq_error.1 h with h | ⟨_, -, h⟩
        · exact ih _ 0 e h
        · cases h

theorem isEscape_scanInside : ∀ {i : Item}, outerBlocks i = [] → ∀ e : Failure,
    scanInside i = .error e → e.IsEscape
  | .leaf _ _ _, _ => by
    intro e h
    rw [scanInside] at h
    cases h
  | .group _ items _ _, hb => by
    intro e h
    rw [scanInside] at h
    exact isEscape_scanFrom hb false 0 e h
  | .template _ rest _, hb => by
    intro e h
    rw [scanInside] at h
    exact isEscape_scanRest hb e h
  | .block _ _ _, hb => by cases hb

theorem isEscape_scanRest : ∀ {rest : List (List Item × Text)}, outerBlocksRest rest = [] →
    ∀ e : Failure, scanRest rest = .error e → e.IsEscape
  | [], _ => by
    intro e h
    rw [scanRest] at h
    cases h
  | (items, _) :: r, hb => by
    intro e h
    obtain ⟨hitems, hr⟩ := List.append_eq_nil_iff.1 hb
    rw [scanRest] at h
    rcases Except.bind_eq_error.1 h with h | ⟨_, -, h⟩
    · exact isEscape_scanFrom hitems false 0 e h
    rcases Except.bind_eq_error.1 h with h | ⟨_, -, h⟩
    · exact isEscape_scanRest hr e h
    · cases h
end

end Split

/-! ## passes over items -/

namespace ImportCall

variable {options : Options}

theorem isEscape_localLiteral? {items : List Item} (h : localLiteral? items = .error e) :
    e.IsEscape := by
  unfold localLiteral? at h
  split at h
  · split at h
    · cases h
    · rcases Except.bind_eq_error.1 h with h | ⟨_, -, h⟩
      · exact ⟨_, h⟩
      · cases h
  · cases h

theorem isEscape_guardArguments {items : List Item} (h : guardArguments options items = .error e) :
    e.IsEscape := by
  unfold guardArguments at h
  split at h
  · rcases Except.bind_eq_error.1 h with h | ⟨o, -, h⟩
    · exact isEscape_localLiteral? h
    · cases o with
      | some literal => cases h
      | none =>
        simp only at h
        split at h <;> cases h
  · cases h

theorem isEscape_guardGroup? {i : Item} (h : guardGroup? options i = .error e) : e.IsEscape := by
  unfold guardGroup? at h
  split at h
  · rcases Except.bind_eq_error.1 h with h | ⟨_, -, h⟩
    · exact isEscape_guardArguments h
    · cases h
  · cases h

theorem isEscape_replacements {items : List Item} : ∀ {before previous : Option Item},
    (replacements options before previous items).result = .error e → e.IsEscape := by
  induction items with
  | nil =>
    intro before previous h
    cases h
  | cons i r ih =>
    intro before previous h
    rw [result_replacements_cons] at h
    rcases Except.bind_eq_error.1 h with h | ⟨own, -, h⟩
    · split at h
      · exact isEscape_guardGroup? h
      · cases h
    rcases Except.bind_eq_error.1 h with h | ⟨_, -, h⟩
    · exact ih h
    · cases h

theorem isEscape_guardCalls {items : List Item} (h : (guardCalls options items).result = .error e) :
    e.IsEscape := by
  simp only [guardCalls, Noted.result_bind, Noted.result_pure] at h
  rcases Except.bind_eq_error.1 h with h | ⟨_, -, h⟩
  · exact isEscape_replacements h
  · cases h

end ImportCall

namespace Support.Import

variable {options : Options}

theorem isEscape_leads {items : List Item} (h : leads options items = .error e) : e.IsEscape := by
  unfold leads at h
  split at h
  · simp only at h
    split_ifs at h
    split at h
    · rcases Except.bind_eq_error.1 h with h | ⟨_, -, h⟩
      · exact ⟨_, h⟩
      · cases h
    · cases h
  · cases h

theorem isEscape_isPresent {items : List Item} (h : isPresent options items = .error e) :
    e.IsEscape := by
  induction items with
  | nil => cases h
  | cons i r ih =>
    rw [isPresent] at h
    rcases Except.bind_eq_error.1 h with h | ⟨b, -, h⟩
    · exact isEscape_leads h
    · cases b with
      | true => cases h
      | false => exact ih h

end Support.Import

/-! ## plans -/

namespace Substitution

theorem isEscape_ofSplit {source : Text} {s : Split} (hs : ∀ label, s.kind ≠ .other label)
    (h : ofSplit source s = .error e) : e.IsEscape := by
  unfold ofSplit at h
  cases hk : s.kind with
  | metaUrl => rw [hk] at h; cases h
  | staticImport =>
    rw [hk] at h
    rcases Except.bind_eq_error.1 h with h | ⟨_, -, h⟩
    · exact ⟨_, h⟩
    · cases h
  | other label => exact absurd hk (hs label)

/-- a substitution that a split gives has code -/
theorem code_of_isKnown {s : Substitution} (hs : s.IsKnown) : ∃ items, s.code = .ok items := by
  match s, hs with
  | .metaUrl, _ => exact ⟨_, rfl⟩
  | .staticImport (some _), _ => exact ⟨_, rfl⟩

/-- its value may only be missing because the reference is no URL -/
theorem value_of_isKnown {s : Substitution} (hs : s.IsKnown) {metaUrl : Text}
    (h : s.valueAt metaUrl = .error e) : ∃ v, e = .value v := by
  match s, hs with
  | .metaUrl, _ => cases h
  | .staticImport (some t), _ =>
    simp only [valueAt] at h
    split at h
    · cases h
    · exact ⟨_, (Except.error.inj h).symm⟩

end Substitution

namespace Plan

theorem artifact_of_isKnown {p : Plan} (h : p.IsKnown) (options : Options) :
    ∃ items, p.artifact options = .ok items := by
  obtain ⟨rest, hrest⟩ := exists_templateRest fun s hs => Substitution.code_of_isKnown (h s hs)
  exact ⟨_, by rw [artifact, hrest]; rfl⟩

theorem value_of_fillRest {rest : List (Substitution × Text)} (hk : ∀ s ∈ rest, s.1.IsKnown)
    {metaUrl : Text} (h : fillRest (·.valueAt metaUrl) rest = .error e) : ∃ v, e = .value v := by
  induction rest with
  | nil => cases h
  | cons s rest ih =>
    rw [fillRest] at h
    rcases Except.bind_eq_error.1 h with h | ⟨_, -, h⟩
    · exact Substitution.value_of_isKnown (hk s (by simp)) h
    rcases Except.bind_eq_error.1 h with h | ⟨_, -, h⟩
    · exact ih (fun s' hs' => hk s' (by simp [hs'])) h
    · cases h

theorem value_of_textAt {p : Plan} (hp : p.IsKnown) {metaUrl : Text}
    (h : p.textAt metaUrl = .error e) : ∃ v, e = .value v := by
  rcases Except.bind_eq_error.1 h with h | ⟨_, -, h⟩
  · exact value_of_fillRest hp h
  · cases h

end Plan

namespace Compile

theorem value_of_fillAll {plans : List Plan} (hp : ∀ p ∈ plans, p.IsKnown) {metaUrl : Text}
    (h : fillAll (·.valueAt metaUrl) plans = .error e) : ∃ v, e = .value v := by
  induction plans with
  | nil => cases h
  | cons p plans ih =>
    rw [fillAll] at h
    rcases Except.bind_eq_error.1 h with h | ⟨_, -, h⟩
    · exact Plan.value_of_textAt (hp p (by simp)) h
    rcases Except.bind_eq_error.1 h with h | ⟨_, -, h⟩
    · exact ih (fun p' hp' => hp p' (by simp [hp'])) h
    · cases h

end Compile

end Relocation
