import Relocation.Text.Utf8
import Relocation.Proofs.Scalar

/-!
# Texts and their bytes

A text has bytes just when no character of it is half of a surrogate pair (`Text.utf8?_eq_none`),
and its bytes are read as the text again (`Text.ofUtf8?_of_utf8?`).
-/

namespace Relocation.Text

variable {t : Text} {cs : List Char} {bytes : List UInt8}

theorem mapM_toChar?_eq_some : t.mapM CodePoint.toChar? = some cs ↔ t = cs.map .char := by
  induction t generalizing cs with
  | nil => cases cs <;> simp
  | cons c t ih =>
    cases c with
    | surrogate n =>
      cases cs <;> simp [List.mapM_cons, CodePoint.toChar?]
    | char c =>
      rw [List.mapM_cons]
      constructor
      · intro h
        obtain ⟨d, hd, h⟩ := Option.bind_eq_some_iff.1 h
        obtain ⟨ds, hds, h⟩ := Option.bind_eq_some_iff.1 h
        obtain rfl := Option.some.inj hd
        obtain rfl := Option.some.inj h
        rw [ih.1 hds, List.map_cons]
      · intro h
        cases cs with
        | nil => cases h
        | cons d ds =>
          obtain ⟨hd, hds⟩ := List.cons.inj h
          obtain rfl := CodePoint.char.inj hd
          rw [ih.2 hds]
          rfl

theorem utf8?_eq_some :
    t.utf8? = some bytes ↔
      ∃ cs : List Char, t = cs.map .char ∧ bytes = cs.flatMap String.utf8EncodeChar := by
  simp only [utf8?, Option.map_eq_some_iff, mapM_toChar?_eq_some, eq_comm (a := bytes)]

theorem Scalar.exists_utf8? (h : t.Scalar) : ∃ bytes, t.utf8? = some bytes := by
  suffices ∃ cs : List Char, t = cs.map .char by
    obtain ⟨cs, hcs⟩ := this
    exact ⟨_, utf8?_eq_some.2 ⟨cs, hcs, rfl⟩⟩
  induction t with
  | nil => exact ⟨[], rfl⟩
  | cons c t ih =>
    obtain ⟨hc, ht⟩ := scalar_cons.1 h
    obtain ⟨cs, rfl⟩ := ih ht
    cases c with
    | char c => exact ⟨c :: cs, rfl⟩
    | surrogate n => cases hc

theorem utf8?_eq_none : t.utf8? = none ↔ ∃ c ∈ t, c.isScalar = false := by
  constructor
  · intro h
    by_contra hne
    have hscalar : t.Scalar := by
      intro c hc
      by_contra hs
      exact hne ⟨c, hc, by simpa using hs⟩
    obtain ⟨bytes, hbytes⟩ := hscalar.exists_utf8?
    rw [h] at hbytes
    cases hbytes
  · rintro ⟨c, hc, hs⟩
    by_contra hne
    obtain ⟨bytes, hbytes⟩ := Option.ne_none_iff_exists'.1 hne
    obtain ⟨cs, rfl, -⟩ := utf8?_eq_some.1 hbytes
    obtain ⟨d, -, rfl⟩ := List.mem_map.1 hc
    cases hs

/-- bytes are read as the text that they were made of -/
theorem ofUtf8?_of_utf8? (h : t.utf8? = some bytes) : ofUtf8? bytes = some t := by
  obtain ⟨cs, rfl, rfl⟩ := utf8?_eq_some.1 h
  have hbytes : ByteArray.mk (cs.flatMap String.utf8EncodeChar).toArray = cs.utf8Encode := by
    apply ByteArray.ext
    apply Array.toList_inj.1
    simp [List.utf8Encode]
  rw [ofUtf8?, hbytes, List.utf8Decode?_utf8Encode]
  simp

end Relocation.Text
