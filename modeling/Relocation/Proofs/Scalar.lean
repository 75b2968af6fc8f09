import Relocation.Url
import Relocation.Proofs.Outcome
import Mathlib.Data.List.TakeDrop
import Mathlib.Data.List.Infix
import Mathlib.Tactic.Common

/-!
# References of scalar values

Resolving a reference takes texts apart and puts them together again; the only characters that it
adds are delimiters.  So a reference without surrogates resolves to one without, if the base has
none (`Url.scalar_resolve`).
-/

namespace Relocation

namespace Text

/-- no character is half of a surrogate pair -/
def Scalar (t : Text) : Prop := ∀ c ∈ t, c.isScalar = true

variable {s t : Text}

theorem scalar_nil : Scalar [] := List.forall_mem_nil _

theorem scalar_cons {c : CodePoint} : Scalar (c :: t) ↔ c.isScalar = true ∧ Scalar t :=
  List.forall_mem_cons

theorem scalar_singleton {c : CodePoint} (h : c.isScalar = true) : Scalar [c] :=
  List.forall_mem_singleton.2 h

theorem scalar_append : Scalar (s ++ t) ↔ Scalar s ∧ Scalar t := List.forall_mem_append

theorem scalar_ofString (s : String) : Scalar (ofString s) := by
  intro c hc
  obtain ⟨d, -, rfl⟩ := List.mem_map.1 hc
  rfl

/-- A literal as a list of characters.  It comes before the evaluation of long literals: taking a
string apart costs the kernel a time that grows with the square of its length. -/
theorem ofString_ofList (l : List Char) : ofString (String.ofList l) = l.map CodePoint.char := by
  rw [ofString, String.toList_ofList]

theorem Scalar.of_subset (ht : Scalar t) (h : s ⊆ t) : Scalar s := fun c hc => ht c (h hc)

theorem scalar_getD {o : Option Text} (h : ∀ t ∈ o, Scalar t) : Scalar (o.getD []) := by
  cases o with
  | none => exact scalar_nil
  | some t => exact h t rfl

theorem scalar_cut (sep : CodePoint) (h : Scalar t) : Scalar (cut sep t).1 ∧ ∀ r ∈ (cut sep t).2,
    Scalar r := by
  induction t with
  | nil => exact ⟨scalar_nil, fun r hr => by cases hr⟩
  | cons c t ih =>
    obtain ⟨hc, ht⟩ := scalar_cons.1 h
    rw [cut]
    split_ifs
    · refine ⟨scalar_nil, fun r hr => ?_⟩
      obtain rfl := Option.some.inj hr
      exact ht
    · exact ⟨scalar_cons.2 ⟨hc, (ih ht).1⟩, (ih ht).2⟩

theorem scalar_splitOn (sep : CodePoint) (h : Scalar t) : ∀ part ∈ splitOn sep t, Scalar part := by
  induction t with
  | nil => exact List.forall_mem_singleton.2 scalar_nil
  | cons c t ih =>
    obtain ⟨hc, ht⟩ := scalar_cons.1 h
    have ih := ih ht
    rw [splitOn]
    split
    · exact List.forall_mem_singleton.2 (scalar_cons.2 ⟨hc, scalar_nil⟩)
    · rename_i p ps hps
      rw [hps] at ih
      obtain ⟨hp, hps⟩ := List.forall_mem_cons.1 ih
      split_ifs
      · exact List.forall_mem_cons.2 ⟨scalar_nil, ih⟩
      · exact List.forall_mem_cons.2 ⟨scalar_cons.2 ⟨hc, hp⟩, hps⟩

theorem scalar_join {parts : List Text} (hs : Scalar s) (h : ∀ part ∈ parts, Scalar part) :
    Scalar (join s parts) := by
  induction parts using join.induct with
  | case1 => exact scalar_nil
  | case2 p => exact h p (by simp)
  | case3 p q r ih =>
    obtain ⟨hp, hr⟩ := List.forall_mem_cons.1 h
    rw [join]
    exact scalar_append.2 ⟨scalar_append.2 ⟨hp, hs⟩, ih hr⟩

end Text

namespace Url

open Text

variable {otherwise t : Text}

/-! ## parts -/

/-- all parts are made of scalar values -/
structure Parts.Scalar (p : Parts) : Prop where
  scheme : Text.Scalar p.scheme
  authority : Text.Scalar p.authority
  path : Text.Scalar p.path
  params : Text.Scalar p.params
  query : Text.Scalar p.query
  fragment : Text.Scalar p.fragment

theorem scalar_cleaned (h : Scalar t) : Scalar (cleaned t) :=
  h.of_subset (List.Subset.trans (List.filter_subset_self _) (List.dropWhile_sublist _).subset)

theorem isScalar_lowerAscii {c : CodePoint} (h : c.isScalar = true) :
    (lowerAscii c).isScalar = true := by
  cases c with
  | char c => rfl
  | surrogate n => cases h

theorem scalar_splitScheme (ho : Scalar otherwise) (h : Scalar t) :
    Scalar (splitScheme otherwise t).1 ∧ Scalar (splitScheme otherwise t).2 := by
  have hcut := scalar_cut (.char ':') h
  unfold splitScheme
  split
  · rename_i c s rest hrest
    rw [hrest] at hcut
    split_ifs
    · refine ⟨fun d hd => ?_, hcut.2 rest rfl⟩
      obtain ⟨d', hd', rfl⟩ := List.mem_map.1 hd
      exact isScalar_lowerAscii (hcut.1 d' hd')
    · exact ⟨ho, h⟩
  · exact ⟨ho, h⟩

theorem scalar_splitAuthority (h : Scalar t) : Scalar (splitAuthority t).1 ∧
    Scalar (splitAuthority t).2 := by
  unfold splitAuthority
  split
  · have hr := (scalar_cons.1 (scalar_cons.1 h).2).2
    rw [List.span_eq_takeWhile_dropWhile]
    exact ⟨hr.of_subset (List.takeWhile_sublist _).subset,
      hr.of_subset (List.dropWhile_sublist _).subset⟩
  · exact ⟨scalar_nil, h⟩

theorem scalar_getLast? {parts : List Text} (h : ∀ part ∈ parts, Scalar part) :
    Scalar (parts.getLast?.getD []) :=
  scalar_getD fun part hpart => h part (List.mem_of_getLast? hpart)

theorem scalar_splitParams (h : Scalar t) : Scalar (splitParams t).1 ∧
    Scalar (splitParams t).2 := by
  have hsegments := scalar_splitOn (.char '/') h
  have hcut := scalar_cut (.char ';') (scalar_getLast? hsegments)
  unfold splitParams
  simp only
  split
  · exact ⟨h, scalar_nil⟩
  · rename_i last params heq
    rw [heq] at hcut
    refine ⟨scalar_join (scalar_singleton rfl) fun part hpart => ?_, hcut.2 params rfl⟩
    rcases List.mem_append.1 hpart with hpart | hpart
    · exact hsegments part (List.mem_of_mem_dropLast hpart)
    · rw [List.mem_singleton.1 hpart]
      exact hcut.1

theorem scalar_split {p : Parts} (ho : Scalar otherwise) (ht : Scalar t)
    (h : split otherwise t = .ok p) : p.Scalar := by
  obtain ⟨hscheme, hrest⟩ := scalar_splitScheme ho (scalar_cleaned ht)
  obtain ⟨hauthority, hrest⟩ := scalar_splitAuthority hrest
  obtain ⟨hrest, hfragment⟩ := scalar_cut (.char '#') hrest
  obtain ⟨hpath, hquery⟩ := scalar_cut (.char '?') hrest
  obtain ⟨hpath', hparams⟩ := scalar_splitParams hpath
  unfold split at h
  simp only at h
  cases hcheck : checkAuthority (splitAuthority (splitScheme otherwise (cleaned t)).2).1 with
  | error e =>
    rw [hcheck] at h
    cases h
  | ok =>
    rw [hcheck] at h
    obtain rfl := Except.ok.inj h
    split_ifs
    · exact ⟨hscheme, hauthority, hpath', hparams, scalar_getD hquery, scalar_getD hfragment⟩
    · exact ⟨hscheme, hauthority, hpath, scalar_nil, scalar_getD hquery, scalar_getD hfragment⟩

theorem scalar_marked (mark : Char) (h : Scalar t) : Scalar (marked mark t) := by
  unfold marked
  split_ifs
  · exact scalar_nil
  · exact scalar_cons.2 ⟨rfl, h⟩

theorem Parts.Scalar.text {p : Parts} (h : p.Scalar) : Text.Scalar p.text := by
  have hpath : Text.Scalar (p.path ++ marked ';' p.params) :=
    scalar_append.2 ⟨h.path, scalar_marked ';' h.params⟩
  unfold Parts.text
  simp only
  refine scalar_append.2 ⟨scalar_append.2 ⟨?_, scalar_marked '?' h.query⟩,
    scalar_marked '#' h.fragment⟩
  have hlocated : ∀ located : Text, Text.Scalar located →
      Text.Scalar (if p.scheme = [] then located else p.scheme ++ .char ':' :: located) := by
    intro located hlocated
    split_ifs
    · exact hlocated
    · exact scalar_append.2 ⟨h.scheme, scalar_cons.2 ⟨rfl, hlocated⟩⟩
  refine hlocated _ ?_
  split
  · refine scalar_append.2 ⟨scalar_append.2 ⟨scalar_ofString _, h.authority⟩, ?_⟩
    split
    · exact hpath
    · exact scalar_cons.2 ⟨rfl, hpath⟩
  · exact hpath

/-! ## paths -/

theorem keepEnds_subset (segments : List Text) : keepEnds segments ⊆ segments := by
  unfold keepEnds
  split
  · exact List.Subset.refl _
  · exact List.Subset.refl _
  · intro part hpart
    rcases List.mem_cons.1 hpart with rfl | hpart
    · exact List.mem_cons_self
    · rcases List.mem_append.1 hpart with hpart | hpart
      · exact List.mem_cons_of_mem _ (List.mem_of_mem_dropLast (List.mem_of_mem_filter hpart))
      · rw [List.mem_singleton.1 hpart]
        exact List.mem_cons_of_mem _ (List.getLast_mem _)

theorem removeDots_subset (segments : List Text) :
    ∀ done : List Text, removeDots done segments ⊆ done ++ segments := by
  induction segments with
  | nil =>
    intro done part hpart
    simpa [removeDots] using hpart
  | cons segment segments ih =>
    intro done part hpart
    rw [removeDots] at hpart
    split_ifs at hpart
    · have := ih done.tail hpart
      rcases List.mem_append.1 this with h | h
      · exact List.mem_append_left _ (List.mem_of_mem_tail h)
      · simp [h]
    · have := ih done hpart
      rcases List.mem_append.1 this with h | h
      · simp [h]
      · simp [h]
    · have := ih (segment :: done) hpart
      simp only [List.mem_append, List.mem_cons] at this ⊢
      tauto

theorem scalar_resolvePath {base path : Text} (hb : Scalar base) (hp : Scalar path) :
    Scalar (resolvePath base path) := by
  have hown := scalar_splitOn (.char '/') hp
  have habove := scalar_splitOn (.char '/') hb
  have hsegments : ∀ above : List Text, (∀ part ∈ above, Scalar part) →
      ∀ part ∈ if path.head? = some (.char '/') then splitOn (.char '/') path
        else keepEnds (above ++ splitOn (.char '/') path), Scalar part := by
    intro above habove part hpart
    split_ifs at hpart
    · exact hown part hpart
    · rcases List.mem_append.1 (keepEnds_subset _ hpart) with h | h
      · exact habove part h
      · exact hown part h
  have hresolved : ∀ (segments : List Text) (final : List Text), (∀ part ∈ segments, Scalar part) →
      (∀ part ∈ final, part = []) →
      Scalar (join [.char '/'] (removeDots [] segments ++ final)) := by
    intro segments final hsegments hfinal
    refine scalar_join (scalar_singleton rfl) fun part hpart => ?_
    rcases List.mem_append.1 hpart with h | h
    · exact hsegments part (by simpa using removeDots_subset segments [] h)
    · rw [hfinal part h]
      exact scalar_nil
  have hrooted : ∀ text : Text, Scalar text → Scalar (if text = [] then [.char '/'] else text) := by
    intro text htext
    split_ifs
    · exact scalar_singleton rfl
    · exact htext
  have hfinal : ∀ (last : Prop) [Decidable last], ∀ part ∈ if last then [([] : Text)] else [],
      part = [] := by
    intro last _ part hpart
    split_ifs at hpart
    · exact List.mem_singleton.1 hpart
    · cases hpart
  unfold resolvePath
  refine hrooted _ (hresolved _ _ (hsegments _ fun part hpart => ?_) (hfinal _))
  split at hpart
  · exact habove part hpart
  · exact habove part (List.mem_of_mem_dropLast hpart)

/-! ## references -/

/-- a reference resolves to a text without surrogates, if neither the reference nor the base has
any -/
theorem scalar_resolve {base reference url : Text} (hb : Scalar base) (hr : Scalar reference)
    (h : resolve base reference = .ok url) : Scalar url := by
  unfold resolve at h
  split_ifs at h
  · obtain rfl := Except.ok.inj h
    exact hr
  · obtain rfl := Except.ok.inj h
    exact hb
  · cases hb' : split [] base with
    | error e => rw [hb'] at h; cases h
    | ok b =>
      have hbase := scalar_split scalar_nil hb hb'
      cases hr' : split b.scheme reference with
      | error e => rw [hb'] at h; simp only [bind, Except.bind, hr'] at h; cases h
      | ok r =>
        have hreference := scalar_split hbase.scheme hr hr'
        rw [hb'] at h
        simp only [bind, Except.bind, hr'] at h
        split_ifs at h
        · obtain rfl := Except.ok.inj h
          exact hr
        · obtain rfl := Except.ok.inj h
          exact hreference.text
        · obtain rfl := Except.ok.inj h
          exact Parts.Scalar.text ⟨hbase.scheme, hbase.authority, hbase.path, hbase.params,
            hbase.query, hreference.fragment⟩
        · obtain rfl := Except.ok.inj h
          exact Parts.Scalar.text ⟨hbase.scheme, hbase.authority, hbase.path, hbase.params,
            hreference.query, hreference.fragment⟩
        · obtain rfl := Except.ok.inj h
          exact Parts.Scalar.text ⟨hreference.scheme, hbase.authority,
            scalar_resolvePath hbase.path hreference.path,
            hreference.params, hreference.query, hreference.fragment⟩

end Url

end Relocation
