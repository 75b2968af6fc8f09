import Relocation.Proofs.Cutting

/-!
# What tokens look like

Brackets, the word `module` and the chunks of templates are known by their kind up to the raw text
between a chunk's delimiters (`Reads.shaped`).
-/

namespace Relocation

namespace Token

/-- the text of a token as its kind has it -/
def Shaped (kind : Kind) (text : Text) : Prop :=
  match kind with
  | .openParen => text = Text.ofString "("
  | .closeParen => text = Text.ofString ")"
  | .openSquare => text = Text.ofString "["
  | .closeSquare => text = Text.ofString "]"
  | .openBrace => text = Text.ofString "\x7b"
  | .closeBrace => text = Text.ofString "\x7d"
  | .module => text = Text.ofString "module"
  | .template => ∃ q, text = Text.ofString "\x60" ++ q ++ Text.ofString "\x60"
  | .templateHead => ∃ q, text = Text.ofString "\x60" ++ q ++ Text.ofString "$\x7b"
  | .templateMiddle => ∃ q, text = Text.ofString "\x7d" ++ q ++ Text.ofString "$\x7b"
  | .templateTail => ∃ q, text = Text.ofString "\x7d" ++ q ++ Text.ofString "\x60"
  | _ => True

end Token

namespace Lexical

theorem templateLength?_take {t : Text} :
    ∀ {n : Nat} {opens : Bool}, templateLength? t = some (n, opens) →
    ∃ q, t.take n = q ++ if opens then Text.ofString "$\x7b" else Text.ofString "\x60" := by
  fun_induction templateLength? t with
  | case1 => intro n opens h; cases h
  | case2 x t ih =>
    intro n opens h
    obtain ⟨⟨m, o⟩, hm, he⟩ := Option.map_eq_some_iff.1 h
    cases he
    obtain ⟨q, hq⟩ := ih hm
    exact ⟨.char '\\' :: x :: q, by simp [hq]⟩
  | case3 t => intro n opens h; cases h; exact ⟨[], rfl⟩
  | case4 t => intro n opens h; cases h; exact ⟨[], rfl⟩
  | case5 c t h1 h2 hc ih =>
    intro n opens h
    obtain ⟨⟨m, o⟩, hm, he⟩ := Option.map_eq_some_iff.1 h
    cases he
    obtain ⟨q, hq⟩ := ih hm
    exact ⟨c :: q, by simp [hq]⟩

end Lexical

namespace Token.Context

open Lexical

variable {ctx : Context} {c : CodePoint} {t rest : Text} {kind : Kind}

theorem Reads.shaped (h : Reads ctx c (t ++ rest) (.token kind) t.length) :
    Shaped kind (c :: t) := by
  generalize hn : t.length = n at h
  generalize hr : t ++ rest = r at h
  generalize hf : Front.token kind = f at h
  cases h with
  | blanks => cases hf
  | terminator => cases hf
  | line => cases hf
  | comment => cases hf
  | bracket hk =>
    cases hf
    obtain rfl : t = [] := List.length_eq_zero_iff.1 hn
    unfold bracketKind? at hk
    grind [Shaped, Text.ofString]
  | closeBrace hc hb =>
    cases hf
    obtain rfl : t = [] := List.length_eq_zero_iff.1 hn
    rw [hc]
    rfl
  | resume hc hb hm =>
    rename_i opens
    obtain ⟨q, hq⟩ := templateLength?_take hm
    rw [← hr, ← hn, List.take_left] at hq
    subst hc hq
    cases opens
    · cases hf; exact ⟨q, rfl⟩
    · cases hf; exact ⟨q, rfl⟩
  | template hc hm =>
    rename_i opens
    obtain ⟨q, hq⟩ := templateLength?_take hm
    rw [← hr, ← hn, List.take_left] at hq
    subst hc hq
    cases opens
    · cases hf; exact ⟨q, rfl⟩
    · cases hf; exact ⟨q, rfl⟩
  | string => cases hf; trivial
  | number => cases hf; trivial
  | word hc hd hs =>
    subst hr
    rw [← hn, List.take_left, List.drop_left] at hf
    obtain rfl := Front.token.inj hf
    rcases nameKind_cases ctx (c :: t) rest with hk | hk
    · rw [hk]
      exact (nameKind_eq_module.1 hk).1
    · rw [hk]
      trivial
  | hidden => cases hf; trivial
  | regex => cases hf; trivial
  | slash => cases hf; trivial
  | punct => cases hf; trivial

end Token.Context

namespace Lexeme

variable {ctx : Token.Context} {ls : List Lexeme} {rest : Text}

theorem shaped_of_cuts (h : Cuts ctx ls rest) : ∀ l ∈ ls, ∀ kind, l.front = .token kind →
    Token.Shaped kind l.text := by
  induction ls generalizing ctx with
  | nil => intro l hl; cases hl
  | cons l ls ih =>
    obtain ⟨⟨c, t, ht, hr⟩, hls⟩ := h
    intro l' hl' kind hkind
    rcases List.mem_cons.1 hl' with rfl | hl'
    · rw [hkind] at hr
      rw [ht]
      exact hr.shaped
    · exact ih hls l' hl' kind hkind

/-- every word is the token of a lexeme -/
theorem exists_of_mem_words {broken : Option Bool} {w : Word} (h : w ∈ words broken ls) :
    ∃ l ∈ ls, l.front = .token w.kind ∧ l.text = w.text := by
  induction ls generalizing broken with
  | nil => cases h
  | cons l ls ih =>
    have skip : ∀ {broken : Option Bool}, w ∈ words broken ls → ∃ l' ∈ l :: ls,
        l'.front = .token w.kind ∧ l'.text = w.text := by
      intro broken hw
      obtain ⟨l', hl', hw⟩ := ih hw
      exact ⟨l', List.mem_cons_of_mem l hl', hw⟩
    unfold words at h
    split at h
    · exact skip h
    · rcases List.mem_cons.1 h with rfl | h
      · exact ⟨l, List.mem_cons_self, ‹_›, rfl⟩
      · exact skip h

theorem shaped_of_mem_words {broken : Option Bool}
    (h : ∀ l ∈ ls, ∀ kind, l.front = .token kind → Token.Shaped kind l.text) :
    ∀ w ∈ words broken ls, Token.Shaped w.kind w.text := by
  intro w hw
  obtain ⟨l, hl, hfront, htext⟩ := exists_of_mem_words hw
  rw [← htext]
  exact h l hl w.kind hfront

end Lexeme

end Relocation
