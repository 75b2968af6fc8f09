import Relocation.Proofs.Standalone

/-!
# Texts that are laid out differently

`Relaid`: two texts have the same tokens and break lines between the same ones; blanks, comments,
line terminators and places may differ.  `Compile.result_of_relaid`: they are compiled to the same
text, and their blocks to the same bodies.
-/

namespace Relocation

namespace TokenStream

/-- for each two tokens that are neighbours, whether a line of the source ends between them -/
def breaksBetween (source : Text) (ts : List Token) : List Bool :=
  (ts.zip ts.tail).map fun (a, b) =>
    Position.endsLine ((source.take b.start.offset).drop a.stop.offset)

/-- the texts have the same tokens and break lines between the same ones -/
structure Relaid (source source' : Text) : Prop where
  tokens : (ofText source).tokens.map Token.face = (ofText source').tokens.map Token.face
  breaks :
    breaksBetween source (ofText source).tokens = breaksBetween source' (ofText source').tokens

theorem breaksBetween_cons_cons (source : Text) (a b : Token) (ts : List Token) :
    breaksBetween source (a :: b :: ts) =
      Position.endsLine ((source.take b.start.offset).drop a.stop.offset) ::
      breaksBetween source (b :: ts) := rfl

end TokenStream

/-! ## words -/

namespace Word

theorem ext_map : ∀ {ws ws' : List Word}, ws.map face = ws'.map face →
    ws.map (·.newline) = ws'.map (·.newline) → ws = ws'
  | [], [], _, _ => rfl
  | [], _ :: _, h, _ => by cases h
  | _ :: _, [], h, _ => by cases h
  | ⟨k, t, n⟩ :: ws, ⟨k', t', n'⟩ :: ws', h, hn => by
    obtain ⟨hfirst, hrest⟩ := List.cons.inj h
    obtain ⟨hnewline, hnewlines⟩ := List.cons.inj hn
    obtain ⟨rfl, rfl⟩ := Prod.mk.inj hfirst
    rw [ext_map hrest hnewlines, show n = n' from hnewline]

end Word

namespace Lexeme

open TokenStream (breaksBetween breaksBetween_cons_cons)

variable {ls : List Lexeme} {source front rest : Text} {p : Position}

theorem endsLine_append (a b : Text) :
    Position.endsLine (a ++ b) = (Position.endsLine a || Position.endsLine b) :=
  List.any_append

/-- behind a token, a word begins a line where a line ends between the tokens -/
theorem newlines_words_behind (hsource : source = front ++ (textOf ls ++ rest))
    (hp : p.offset = front.length) {k : Token} (hk : k.stop.offset ≤ front.length) :
    (words (some (Position.endsLine (front.drop k.stop.offset))) ls).map (·.newline) =
      breaksBetween source (k :: tokens p ls) := by
  induction ls generalizing front p k with
  | nil => rfl
  | cons l ls ih =>
    have hnext : source = (front ++ l.text) ++ (textOf ls ++ rest) := by simp [hsource]
    have hoffset : (p.advance l.text).offset = (front ++ l.text).length := by
      rw [Position.offset_advance, hp, List.length_append]
    rw [words, tokens]
    cases l.front with
    | gap =>
      have hle : k.stop.offset ≤ (front ++ l.text).length := by
        rw [List.length_append]
        omega
      have := ih hnext hoffset hle
      rw [List.drop_append_of_le_length hk, endsLine_append] at this
      exact this
    | token kind =>
      have hbetween : source.take p.offset = front := by rw [hsource, hp, List.take_left]
      have := ih hnext hoffset (k := ⟨kind, l.text, p, p.advance l.text⟩) (Nat.le_of_eq hoffset)
      simp only [hoffset, List.drop_length] at this
      simp only [List.map_cons, breaksBetween_cons_cons, hbetween, Option.getD_some]
      exact congrArg _ this

/-- the first word begins no line -/
theorem newlines_words (hsource : source = front ++ (textOf ls ++ rest))
    (hp : p.offset = front.length) : (words none ls).map (·.newline) =
      match tokens p ls with
      | [] => []
      | k :: ks => false :: breaksBetween source (k :: ks) := by
  induction ls generalizing front p with
  | nil => rfl
  | cons l ls ih =>
    have hnext : source = (front ++ l.text) ++ (textOf ls ++ rest) := by simp [hsource]
    have hoffset : (p.advance l.text).offset = (front ++ l.text).length := by
      rw [Position.offset_advance, hp, List.length_append]
    rw [words, tokens]
    cases l.front with
    | gap => exact ih hnext hoffset
    | token kind =>
      have :=
        newlines_words_behind hnext hoffset (k := ⟨kind, l.text, p, p.advance l.text⟩)
          (Nat.le_of_eq hoffset)
      simp only [hoffset, List.drop_length] at this
      exact congrArg (false :: ·) this

/-- texts that are laid out differently are cut into the same words -/
theorem words_of_relaid {source' : Text} {ls ls' : List Lexeme} (hcut : cut source = (ls, none))
    (hcut' : cut source' = (ls', none)) (htext : textOf ls = source) (htext' : textOf ls' = source')
    (h : TokenStream.Relaid source source') : words none ls = words none ls' := by
  obtain ⟨htokens, hbreaks⟩ := h
  simp only [TokenStream.ofText, hcut, hcut'] at htokens hbreaks
  have hnewlines := @newlines_words ls source [] [] .start (by simp [htext]) rfl
  have hnewlines' := @newlines_words ls' source' [] [] .start (by simp [htext']) rfl
  refine Word.ext_map (by rw [map_face_words _ .start, map_face_words _ .start, htokens]) ?_
  rw [hnewlines, hnewlines']
  cases hts : tokens .start ls with
  | nil =>
    rw [hts, List.map_nil] at htokens
    rw [List.map_eq_nil_iff.1 htokens.symm]
  | cons k ks =>
    cases hts' : tokens .start ls' with
    | nil =>
      rw [hts'] at htokens
      exact absurd (List.map_eq_nil_iff.1 htokens) (by simp [hts])
    | cons k' ks' =>
      rw [hts, hts'] at hbreaks
      exact congrArg (false :: ·) hbreaks

end Lexeme

/-! ## trees -/

namespace Program

/-- texts that are laid out differently are read as the same tree, up to ranges -/
theorem unplacedAll_of_relaid {source source' : Text} {p p' : Program} (h : read source = .ok p)
    (h' : read source' = .ok p') (hr : TokenStream.Relaid source source') :
    Item.unplacedAll p.items = Item.unplacedAll p'.items := by
  obtain ⟨-, line, ls, hcut, htext, hline, hcuts, hspans⟩ := cuts_of_read h
  obtain ⟨-, line', ls', hcut', htext', hline', hcuts', hspans'⟩ := cuts_of_read h'
  have hspells := Item.spellsAll_of_spansAll (shaped_of_read hline hcuts) hspans
  have hspells' := Item.spellsAll_of_spansAll (shaped_of_read hline' hcuts') hspans'
  rw [Lexeme.map_marked] at hspells hspells'
  rw [← Lexeme.words_of_relaid hcut hcut' (by rw [Lexeme.textOf_append, htext])
    (by rw [Lexeme.textOf_append, htext']) hr]
      at hspells'
  rw [Lexeme.words_gaps hline] at hspells hspells'
  -- one tree is read from these words, and both are it
  obtain ⟨items, hread, hun, -⟩ := read_of_spells hcuts hspells
  obtain ⟨items', hread', hun', -⟩ := read_of_spells hcuts hspells'
  obtain rfl : items = items' := by
    rw [hread] at hread'
    exact (Program.mk.inj (Except.ok.inj hread')).1
  exact hun.symm.trans hun'

end Program

namespace Compile

open Item (unplacedAll)

variable {options : Options} {a b : List Item}

/-- sequences that differ in ranges only are lowered to sequences that do, with the same plans, or
fail alike -/
theorem lower_cases_of_unplaced (options : Options) (h : unplacedAll a = unplacedAll b) :
    (∃ e, (lower options a).result = .error e ∧ (lower options b).result = .error e) ∨
      ∃ out out' plans, (lower options a).result = .ok (out, plans) ∧
      (lower options b).result = .ok (out', plans) ∧
        Item.Alike out out' := by
  have halike : Item.Alike a b := Item.alike_append (s := []) h
  cases hb : (lower options b).result with
  | error e => exact .inl ⟨e, error_of_alike halike hb, rfl⟩
  | ok lowered =>
    obtain ⟨out', plans⟩ := lowered
    obtain ⟨out, ha, hout⟩ := lower_of_alike halike hb
    exact .inr ⟨out, out', plans, ha, rfl, hout⟩

theorem result_bodies (options : Options) (source metaUrl : Text) :
    (bodies options source metaUrl).result = Program.read source >>= fun p =>
      (lower options p.items).result >>= fun lowered => fillAll (·.valueAt metaUrl) lowered.2 := by
  simp only [bodies, bodiesFilled, Noted.result_bind, Noted.result_lift]

/-- Texts that are laid out differently are compiled alike: to the same text and the same bodies, or
with the same failure. -/
theorem result_of_relaid {source source' : Text} {p p' : Program} (h : Program.read source = .ok p)
    (h' : Program.read source' = .ok p') (hr : TokenStream.Relaid source source')
    (options : Options) (metaUrl : Text) :
    (text options source).result = (text options source').result ∧
      (bodies options source metaUrl).result = (bodies options source' metaUrl).result := by
  simp only [result_text, result_bodies, h, h', bind, Except.bind]
  rcases lower_cases_of_unplaced options (Program.unplacedAll_of_relaid h h' hr) with
    ⟨e, ha, hb⟩ | ⟨out, out', plans, ha, hb, hout⟩
  · simp only [ha, hb, and_self]
  · simp only [ha, hb, printed_of_alike hout, and_self]

/-- a call with a block -/
def plain : Text := "f(\n module \x7b import(a) \x7d )"

/-- the same call with other blanks, comments and line terminators -/
def scattered : Text := "#!x\r\n/*y*/ f(\u2028//z\r\rmodule\x7bimport( a)\x7d)"

theorem result_of_relaid_block : ∃ p p', Program.read plain = .ok p ∧
    Program.read scattered = .ok p' ∧ TokenStream.Relaid plain scattered ∧
    (text {} plain).result = (text {} scattered).result ∧
      (bodies {} plain (Text.ofString "https://h/m.js")).result =
        (bodies {} scattered (Text.ofString "https://h/m.js")).result := by
  have hread : (Program.read plain).toOption.any (fun _ => true) = true := by decide +kernel
  have hread' : (Program.read scattered).toOption.any (fun _ => true) = true := by decide +kernel
  have hrelaid : TokenStream.Relaid plain scattered := ⟨by decide +kernel, by decide +kernel⟩
  obtain ⟨p, hp, -⟩ := Except.exists_of_any hread
  obtain ⟨p', hp', -⟩ := Except.exists_of_any hread'
  exact ⟨p, p', hp, hp', hrelaid, result_of_relaid hp hp' hrelaid {} _⟩

end Compile

end Relocation
