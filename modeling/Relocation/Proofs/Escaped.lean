import Relocation.Artifact
import Relocation.Token.Lexical
import Relocation.Proofs.Quotation

/-!
# Escaped text is literal text

What compilation makes up can be read: a JSON literal is a string literal
(`stringLength?_quotedBody`), and escaped raw text is text of a template
(`templateLength?_escapeRaw`).
-/

namespace Relocation

namespace Lexical

theorem stringLength?_backslash {d : CodePoint} (hd : d ≠ .char '\r') (r : Text) :
    stringLength? (.char '"') (.char '\\' :: d :: r) = (stringLength? (.char '"') r).map (· + 2) :=
  stringLength?.eq_3 _ _ _ fun _ h _ => hd h

/-- does the character stand for itself in a literal? -/
def isLiteral (c : CodePoint) : Bool :=
  !List.contains [.char '\\', .char '"', .char '\n', .char '\r'] c

theorem stringLength?_literal {c : CodePoint} (hc : isLiteral c = true) (r : Text) :
    stringLength? (.char '"') (c :: r) = (stringLength? (.char '"') r).map (· + 1) := by
  simp only [isLiteral, Bool.not_eq_true', List.contains_eq_mem, decide_eq_false_iff_not,
    List.mem_cons, not_or] at hc
  obtain ⟨hb, hq, hn, hr, -⟩ := hc
  rw [stringLength?.eq_4 _ _ _ (fun _ h => (hb h).elim) (fun _ _ h => (hb h).elim),
    if_neg hq, if_neg]
  simp [hn, hr]

theorem stringLength?_literals {a : Text} (ha : a.all isLiteral = true) (r : Text) :
    stringLength? (.char '"') (a ++ r) = (stringLength? (.char '"') r).map (· + a.length) := by
  induction a with
  | nil => simp
  | cons c a ih =>
    simp only [List.all_cons, Bool.and_eq_true] at ha
    rw [List.cons_append, stringLength?_literal ha.1, ih ha.2]
    cases stringLength? (.char '"') r <;> simp [Nat.add_assoc]

/-- what stands for a character in a literal does not end the literal -/
theorem stringLength?_escaped (c : CodePoint) (r : Text) :
    stringLength? (.char '"') ((Json.escaped c).getD [c] ++ r) =
      (stringLength? (.char '"') r).map (· + ((Json.escaped c).getD [c]).length) := by
  cases he : Json.escaped c with
  | none =>
    unfold Json.escaped at he
    split_ifs at he with h1 h2 h3 h4
    exact stringLength?_literal (by simp [isLiteral, h1, h2, h3, h4]) r
  | some e =>
    unfold Json.escaped at he
    split_ifs at he with h1 h2 h3 h4 h5 h6 h7 h8 <;> obtain rfl := Option.some.inj he
    iterate 7 exact stringLength?_backslash (by decide) r
    have hdigits : ∀ n < 32, (Text.hexDigits 4 n).all isLiteral = true := by decide
    show stringLength? (.char '"') (.char '\\' :: .char 'u' :: (Text.hexDigits 4 c.value ++ r)) = _
    rw [stringLength?_backslash (by decide), stringLength?_literals (hdigits _ h8)]
    cases stringLength? (.char '"') r <;> simp [Text.ofString]; omega

theorem stringLength?_quotedBody (t r : Text) :
    stringLength? (.char '"')
      (Literal.quotedBody t ++ .char '"' :: r) = some ((Literal.quotedBody t).length + 1) := by
  induction t with
  | nil => rfl
  | cons c t ih =>
    unfold Literal.quotedBody at ih ⊢
    rw [List.flatMap_cons, List.append_assoc, stringLength?_escaped, ih]
    simp; omega

/-- escaped text begins with a brace only if the text does -/
theorem head_escapeRaw {t d : Text} (ht : t.head? ≠ some (.char '\x7b'))
    (hd : d.head? ≠ some (.char '\x7b')) : (escapeRaw t ++ d).head? ≠ some (.char '\x7b') := by
  unfold escapeRaw
  split
  · exact hd
  · simp
  · split_ifs
    · simp
    · simp
    · exact ht

theorem templateLength?_plain {c : CodePoint} {r : Text} (hb : c ≠ .char '\\')
    (hq : c ≠ .char '\x60') (hd : c = .char '$' → r.head? ≠ some (.char '\x7b')) :
    templateLength? (c :: r) = (templateLength? r).map fun (n, o) => (n + 1, o) := by
  rw [templateLength?.eq_4 _ _ (fun _ _ h => (hb h).elim) (fun r' h h' => hd h (by rw [h']; rfl)),
    if_neg hq]

/-- escaping adds nothing that ends a template, and takes away what does -/
theorem templateLength?_escapeRaw {d : Text} (hd : d.head? ≠ some (.char '\x7b')) (t : Text) :
    templateLength? (escapeRaw t ++ d) = (templateLength? d).map fun (n, o) =>
    ((escapeRaw t).length + n, o) := by
  have hmap : ∀ (k n : Nat) (m : Option (Nat × Bool)),
      ((m.map fun (i, o) => (n + i, o)).map fun (i, o) => (i + k, o)) = m.map fun (i, o) =>
      (n + k + i, o) := by
    intro k n m
    cases m with
    | none => rfl
    | some m => simp only [Option.map_some, Option.some.injEq, Prod.mk.injEq, and_true]; omega
  fun_induction escapeRaw t with
  | case1 => simp
  | case2 r ih =>
    simp only [List.cons_append, List.length_cons]
    rw [templateLength?.eq_2, templateLength?_plain (by decide) (by decide) (by simp), ih,
      hmap, hmap]
  | case3 c r _ hc ih =>
    simp only [List.cons_append, List.length_cons]
    rw [templateLength?.eq_2, ih, hmap]
  | case4 r _ _ ih =>
    simp only [List.cons_append, List.length_cons]
    rw [templateLength?.eq_2, ih, hmap]
  | case5 c r hbrace hc _ ih =>
    simp only [Bool.or_eq_true, decide_eq_true_eq, not_or] at hc
    have hhead : c = .char '$' → (escapeRaw r ++ d).head? ≠ some (.char '\x7b') := by
      rintro rfl
      refine head_escapeRaw (fun h => ?_) hd
      obtain ⟨r', rfl⟩ := List.head?_eq_some_iff.1 h
      exact hbrace r' rfl rfl
    simp only [List.cons_append, List.length_cons]
    rw [templateLength?_plain hc.1 hc.2 hhead, ih, hmap]

end Lexical

end Relocation
