import Mathlib.Data.List.Induction
import Relocation.Proofs.Resumption

/-!
# Braces and templates

`Leaves` matches the braces among tokens as brackets, and says which of them stay open; it does not
mention a scanner.  What a context keeps of the tokens before it is just that, whether the text goes
on to be read or not (`TokenStream.braces_ofText`).
-/

namespace Relocation

namespace Token

namespace Kind

/-- the kinds that open a brace, close one, or stand between two substitutions -/
def isBrace : Kind → Bool
  | .openBrace | .closeBrace | .templateHead | .templateMiddle | .templateTail => true
  | _ => false

end Kind

/-- the braces among tokens -/
def bracesOf (ts : List Token) : List Kind := (ts.map (·.kind)).filter Kind.isBrace

namespace Brace

/-- what opens a brace -/
def opener : Brace → Kind
  | .block => .openBrace
  | .template => .templateHead

/-- what closes a brace -/
def closer : Brace → Kind
  | .block => .closeBrace
  | .template => .templateTail

/-- Braces that are all closed again, where `around` is the innermost open one.  A middle stands in
a template, and a closing brace closes nothing only where nothing is open. -/
inductive Closed : (around : Option Brace) → List Kind → Prop
  | nil {around : Option Brace} : Closed around []
  | pair {around : Option Brace} {b : Brace} {inner rest : List Kind}
    (hinner : Closed (some b) inner) (hrest : Closed around rest) :
    Closed around (b.opener :: (inner ++ b.closer :: rest))
  | middle {rest : List Kind} (hrest : Closed (some .template) rest) :
    Closed (some .template) (.templateMiddle :: rest)
  | stray {rest : List Kind} (hrest : Closed none rest) : Closed none (.closeBrace :: rest)

/-- braces that leave some open, innermost first -/
inductive Leaves : List Kind → List Brace → Prop
  | outside {ks : List Kind} (h : Closed none ks) : Leaves ks []
  | inside {ks inner : List Kind} {b : Brace} {stack : List Brace} (h : Leaves ks stack)
    (hinner : Closed (some b) inner) : Leaves (ks ++ b.opener :: inner) (b :: stack)

variable {around : Option Brace} {b : Brace} {ks more : List Kind} {stack : List Brace}

theorem head?_ne_template : stack.head? ≠ some .template ↔ stack.head? = some .block ∨
    stack = [] := by
  cases stack with
  | nil => simp
  | cons b stack => cases b <;> simp

/-! ## what is open behind one more brace -/

theorem Closed.append (h : Closed around ks) (hmore : Closed around more) :
    Closed around (ks ++ more) := by
  induction h with
  | nil => exact hmore
  | pair hinner _ _ ih =>
    rw [List.cons_append, List.append_assoc, List.cons_append]
    exact .pair hinner (ih hmore)
  | middle _ ih => exact .middle (ih hmore)
  | stray _ ih => exact .stray (ih hmore)

theorem Leaves.append (h : Leaves ks stack) (hmore : Closed stack.head? more) :
    Leaves (ks ++ more) stack := by
  cases h with
  | outside h => exact .outside (h.append hmore)
  | inside h hinner =>
    rw [List.append_assoc, List.cons_append]
    exact .inside h (hinner.append hmore)

theorem Leaves.opens (h : Leaves ks stack) (b : Brace) : Leaves (ks ++ [b.opener]) (b :: stack) :=
  .inside h .nil

theorem Leaves.closes (h : Leaves ks (b :: stack)) : Leaves (ks ++ [b.closer]) stack := by
  cases h with
  | inside h hinner =>
    rw [List.append_assoc, List.cons_append]
    exact h.append (.pair hinner .nil)

/-! ## only one answer -/

/-- what a token changes in the open braces -/
def step (stack : List Brace) : Kind → List Brace
  | .openBrace => .block :: stack
  | .templateHead => .template :: stack
  | .closeBrace | .templateTail => stack.tail
  | _ => stack

@[simp] theorem step_opener (stack : List Brace) (b : Brace) :
    step stack b.opener = b :: stack := by cases b <;> rfl

@[simp] theorem step_closer (stack : List Brace) (b : Brace) :
    step stack b.closer = stack.tail := by cases b <;> rfl

theorem Closed.foldl_step (h : Closed around ks) (hhead : stack.head? = around) :
    ks.foldl step stack = stack := by
  induction h generalizing stack with
  | nil => rfl
  | @pair around b inner rest _ _ ihinner ihrest =>
    calc (b.opener :: (inner ++ b.closer :: rest)).foldl step stack
        = rest.foldl step (step (inner.foldl step (b :: stack)) b.closer) := by simp
      _ = rest.foldl step stack := by rw [ihinner rfl, step_closer, List.tail_cons]
      _ = stack := ihrest hhead
  | middle _ ih => exact ih hhead
  | stray _ ih =>
    obtain rfl := List.head?_eq_none_iff.1 hhead
    exact ih rfl

theorem Leaves.foldl_step (h : Leaves ks stack) : ks.foldl step [] = stack := by
  induction h with
  | outside h => exact h.foldl_step rfl
  | inside _ hinner ih =>
    rw [List.foldl_append, ih, List.foldl_cons, step_opener]
    exact hinner.foldl_step rfl

theorem Leaves.unique {stack' : List Brace} (h : Leaves ks stack) (h' : Leaves ks stack') :
    stack' = stack := by
  rw [← h.foldl_step, ← h'.foldl_step]

end Brace

/-! ## what a context keeps -/

namespace Context

open Brace

variable {ctx : Context} {c : CodePoint} {t r : Text} {kind : Kind} {n : Nat} {ks : List Kind}

/-- at a closing brace template text is read if a template is innermost, else the brace alone -/
theorem Reads.kind_of_closing (h : Reads ctx (.char '\x7d') r (.token kind) n) :
    ctx.braces.head? = some .template ∧ (kind = .templateMiddle ∨ kind = .templateTail) ∨
      ctx.braces.head? ≠ some .template ∧ kind = .closeBrace := by
  have hfront := front_of_reads h
  rw [front_closeBrace] at hfront
  split_ifs at hfront with hb
  · obtain ⟨opens, -, hkind⟩ := templateFront_eq_ok.1 hfront
    cases opens
    · exact .inl ⟨hb, .inr (Front.token.inj hkind)⟩
    · exact .inl ⟨hb, .inl (Front.token.inj hkind)⟩
  · exact .inr ⟨hb, (Front.token.inj (Prod.mk.inj (Except.ok.inj hfront)).1).symm⟩

/-- the kinds that begin with a closing brace -/
theorem Reads.closing (h : Reads ctx c (t ++ r) (.token kind) t.length)
    (hk : kind = .templateMiddle ∨ kind = .templateTail ∨ kind = .closeBrace) :
    c = .char '\x7d' := by
  have hshaped := h.shaped
  rcases hk with rfl | rfl | rfl
  · obtain ⟨q, hq⟩ := hshaped
    exact (List.cons.inj hq).1
  · obtain ⟨q, hq⟩ := hshaped
    exact (List.cons.inj hq).1
  · exact (List.cons.inj hshaped).1

/-- what begins with a closing brace depends on the innermost open brace -/
theorem Reads.closing_iff (h : Reads ctx c (t ++ r) (.token kind) t.length) :
    ((kind = .templateMiddle ∨ kind = .templateTail) ↔ c = .char '\x7d' ∧
      ctx.braces.head? = some .template) ∧
      (kind = .closeBrace ↔ c = .char '\x7d' ∧ ctx.braces.head? ≠ some .template) := by
  refine ⟨⟨fun hk => ?_, ?_⟩, fun hk => ?_, ?_⟩
  · refine ⟨h.closing (by tauto), ?_⟩
    rcases hk with rfl | rfl
    · exact h.place.1
    · exact h.place.1
  · rintro ⟨rfl, hb⟩
    rcases h.kind_of_closing with ⟨-, hk⟩ | ⟨hb', -⟩
    · exact hk
    · exact absurd hb hb'
  · refine ⟨h.closing (by tauto), ?_⟩
    subst hk
    exact h.place.1
  · rintro ⟨rfl, hb⟩
    rcases h.kind_of_closing with ⟨hb', -⟩ | ⟨-, hk⟩
    · exact absurd hb' hb
    · exact hk

/-- the step over a token -/
theorem leaves_after (h : Reads ctx c (t ++ r) (.token kind) t.length) (hks : Leaves ks ctx.braces)
    (text : Text) : Leaves (ks ++ [kind].filter Kind.isBrace) (ctx.after kind text).braces := by
  have hadmits := h.place.1
  cases kind with
  | openBrace => exact hks.opens .block
  | templateHead => exact hks.opens .template
  | closeBrace =>
    have hb : ctx.braces.head? ≠ some .template := hadmits
    show Leaves (ks ++ [.closeBrace]) ctx.braces.tail
    generalize ctx.braces = stack at hks hb ⊢
    cases stack with
    | nil => exact hks.append (.stray .nil)
    | cons b stack =>
      cases b with
      | block => exact hks.closes
      | template => exact absurd rfl hb
  | templateMiddle =>
    have hb : ctx.braces.head? = some .template := hadmits
    exact hks.append (hb ▸ .middle .nil)
  | templateTail =>
    obtain ⟨stack, hstack⟩ := List.head?_eq_some_iff.1 hadmits
    show Leaves (ks ++ [.templateTail]) ctx.braces.tail
    rw [hstack] at hks ⊢
    exact hks.closes
  | _ => exact (List.append_nil ks).symm ▸ hks

end Context

end Token

namespace TokenStream

open Token Token.Brace Lexical

variable {source : Text} {before rest : List Token}

/-- a prefix of the tokens leaves those braces open that the context behind it keeps -/
theorem leaves_behind (h : (ofText source).tokens = before ++ rest) :
    Leaves (bracesOf before) (Context.behind before).braces := by
  induction before using List.reverseRecOn generalizing rest with
  | nil => exact .outside .nil
  | append_singleton before k ih =>
    rw [List.append_assoc, List.singleton_append] at h
    obtain ⟨c, t, -, hread⟩ := reads_of_tokens h
    have hbraces : bracesOf (before ++ [k]) = bracesOf before ++ [k.kind].filter Kind.isBrace := by
      rw [bracesOf, List.map_append, List.filter_append]
      rfl
    rw [hbraces, Context.behind, List.foldl_append]
    exact Context.leaves_after hread (ih h) k.text

/-- Behind every prefix of the tokens the context in which cutting goes on keeps the braces that are
open there.  A closing brace is template text just where a template is the innermost of them.  In
every other place it closes a block, or nothing where none is open. -/
theorem braces_ofText (h : (ofText source).tokens = before ++ rest) : ∃ stack : List Brace,
    (∀ s, Leaves (bracesOf before) s ↔ s = stack) ∧ (Context.behind before).braces = stack ∧
    (∃ p : Position, p.offset = reach (interpreterLine source).length before ∧
      Resumes source (.behind before) p rest) ∧
    (∀ k ∈ rest.head?,
      ((k.kind = .templateMiddle ∨ k.kind = .templateTail) ↔
        k.text.head? = some (.char '\x7d') ∧ stack.head? = some .template) ∧
      (k.kind = .closeBrace ↔
        k.text.head? = some (.char '\x7d') ∧ (stack.head? = some .block ∨ stack = []))) ∧
    ∀ gap r, source.drop (reach (interpreterLine source).length before) = gap ++ .char '\x7d' :: r →
      IsGap (.char '\x7d' :: r) gap →
      ∃ p : Position, p.Exact source ∧ source.drop p.offset = .char '\x7d' :: r ∧
        ((∃ k after, rest = k :: after ∧ k.start = p ∧ k.text.head? = some (.char '\x7d')) ∨
          stack.head? = some .template ∧ rest = [] ∧
            (ofText source).failure = some (.sourceAt p .unterminatedTemplate)) := by
  refine ⟨(Context.behind before).braces, fun s => ⟨(leaves_behind h).unique, ?_⟩, rfl, ?_, ?_, ?_⟩
  · rintro rfl
    exact leaves_behind h
  · obtain ⟨p, -, hoffset, hresumes⟩ := exists_resumes h (List.nil_append _).symm .nil
    exact ⟨p, hoffset, hresumes⟩
  · intro k hk
    obtain ⟨after, rfl⟩ := List.head?_eq_some_iff.1 hk
    obtain ⟨c, t, htext, hread⟩ := reads_of_tokens h
    rw [htext, List.head?_cons, Option.some_inj, ← head?_ne_template]
    exact hread.closing_iff
  · intro gap r hdrop hgap
    obtain ⟨p, hleft, -, hresumes⟩ := exists_resumes h hdrop hgap
    refine ⟨p, hresumes.exact, hleft, ?_⟩
    by_cases hb : (Context.behind before).braces.head? = some .template
    · cases hlength : templateLength? r with
      | none => exact .inr ⟨hb, hresumes.eq_nil hleft (.resume rfl hb hlength)⟩
      | some found =>
        obtain ⟨after, hrest⟩ := hresumes.eq_cons hleft (.resume rfl hb hlength)
        exact .inl ⟨_, after, hrest, rfl, rfl⟩
    · obtain ⟨after, hrest⟩ := hresumes.eq_cons hleft (.closeBrace rfl hb)
      exact .inl ⟨_, after, hrest, rfl, rfl⟩

/-- A template in a block in a template, and a brace in front that closes nothing.  The inner
template goes on behind its first substitution, and ends with the text behind the second. -/
def nested : Text := "\x7d \x60a$\x7b \x7b \x60b$\x7bc\x7d$\x7bd \x7d"

theorem braces_ofText_nested :
    (∀ s, Leaves [.closeBrace, .templateHead, .openBrace, .templateHead] s ↔
      s = [.template, .block, .template]) ∧
    (∃ k ∈ ((ofText nested).tokens.drop 5).head?,
      k.kind = .templateMiddle ∧ k.text.head? = some (.char '\x7d')) ∧
    ∃ p : Position, p.Exact nested ∧ nested.drop p.offset = [.char '\x7d'] ∧
      (ofText nested).failure = some (.sourceAt p .unterminatedTemplate) := by
  have hopen :
      bracesOf ((ofText nested).tokens.take 5) = [.closeBrace, .templateHead, .openBrace,
        .templateHead] := by
    decide +kernel
  have hkept :
      (Context.behind ((ofText nested).tokens.take 5)).braces = [.template, .block, .template] := by
    decide +kernel
  have hmiddle : ((ofText nested).tokens.drop 5).head?.any (·.kind = .templateMiddle) = true := by
    decide +kernel
  obtain ⟨k, hk, hkind⟩ := (Option.any_eq_true _ _).1 hmiddle
  obtain ⟨stack, hleaves, hbraces, -, hnext, -⟩ :=
    braces_ofText (List.take_append_drop 5 (ofText nested).tokens).symm
  rw [hopen, ← hbraces, hkept] at hleaves
  have hresumed := (hnext k hk).1.1 (.inl (of_decide_eq_true hkind))
  -- behind all tokens a blank is left, and the last brace
  obtain ⟨_, -, -, -, -, hlast⟩ := braces_ofText (List.append_nil (ofText nested).tokens).symm
  have hgap : IsGap [.char '\x7d'] [.char ' '] :=
    (IsFiller.blanks (by decide) (by decide) (stops_cons.2 (by decide))).isGap
  obtain ⟨p, hexact, hdrop, ⟨k', after, hrest, -⟩ | ⟨-, -, hfailure⟩⟩ :=
    hlast [.char ' '] [] (by decide +kernel) hgap
  · cases hrest
  · exact ⟨hleaves, ⟨k, hk, of_decide_eq_true hkind, hresumed.1⟩, p, hexact, hdrop, hfailure⟩

end TokenStream

end Relocation
