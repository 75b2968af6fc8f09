import Relocation.Block
import Relocation.Proofs.Bytes

/-!
# Bodies in URLs

`Base64.decode?` reads padded Base64 strictly: it takes exactly the texts that bytes are encoded as
(`Base64.decode?_eq_some`).  So a body can be read back from its URL, character by character
(`Depot.dataUrl_carries`).
-/

namespace Relocation

namespace Base64

/-- the digits in the order of their numbers -/
def alphabet : Text := "ABCDEFGHIJKLMNOPQRSTUVWXYZabcdefghijklmnopqrstuvwxyz0123456789+/"

/-- the number that a digit stands for -/
def number? (c : CodePoint) : Option Nat := alphabet.findIdx? (· = c)

/-- a number of twelve bits as a byte, if nothing is left over -/
def oneByte? (n : Nat) : Option (List UInt8) :=
  if n % 16 = 0 then some [UInt8.ofNat (n / 16)] else none

/-- a number of 18 bits as two bytes, if nothing is left over -/
def twoBytes? (n : Nat) : Option (List UInt8) :=
  if n % 4 = 0 then some [UInt8.ofNat (n / 1024), UInt8.ofNat (n / 4 % 256)] else none

/-- a number of 24 bits as bytes -/
def threeBytes (n : Nat) : List UInt8 :=
  [UInt8.ofNat (n / 65536), UInt8.ofNat (n / 256 % 256), UInt8.ofNat (n % 256)]

/-- The bytes that padded Base64 stands for.  Four digits of six bits each are three bytes; a last
group with one or two equals signs is two bytes or one. -/
def decode? : Text → Option (List UInt8)
  | [] => some []
  | [a, b, .char '=', .char '='] => do oneByte? ((← number? a) * 64 + (← number? b))
  | [a, b, c, .char '='] => do twoBytes? (((← number? a) * 64 + (← number? b)) * 64 + (← number? c))
  | a :: b :: c :: d :: r => do
    let n := (((← number? a) * 64 + (← number? b)) * 64 + (← number? c)) * 64 + (← number? d)
    (decode? r).map (threeBytes n ++ ·)
  | _ => none

/-- digits in groups of four, the last one filled up with at most two equals signs -/
def IsPadded (t : Text) : Prop :=
  4 ∣ t.length ∧ ∃ digits fill, t = digits ++ List.replicate fill (.char '=') ∧ fill ≤ 2 ∧
    ∀ c ∈ digits, c ∈ alphabet

variable {t : Text} {bytes : List UInt8} {c : CodePoint} {n : Nat}

/-! ## digits -/

theorem alphabet_eq : alphabet = (List.range 64).map digit := by decide +kernel

theorem digit_mem (h : n < 64) : digit n ∈ alphabet := by
  rw [alphabet_eq]
  exact List.mem_map_of_mem (List.mem_range.2 h)

theorem digit_ne (h : n < 64) : digit n ≠ .char '=' := by
  have hdigit : ∀ n < 64, digit n ≠ .char '=' := by decide
  exact hdigit n h

theorem number?_digit (h : n < 64) : number? (digit n) = some n := by
  have hnumber : ∀ n < 64, ((List.range 64).map digit).findIdx? (· = digit n) = some n := by
    decide +kernel
  rw [number?, alphabet_eq]
  exact hnumber n h

theorem eq_digit_of_number? (h : number? c = some n) : n < 64 ∧ c = digit n := by
  rw [number?, alphabet_eq] at h
  obtain ⟨hlt, hn, -⟩ := List.findIdx?_eq_some_iff_getElem.1 h
  rw [List.getElem_map, List.getElem_range] at hn
  rw [List.length_map, List.length_range] at hlt
  exact ⟨hlt, (of_decide_eq_true hn).symm⟩

/-! ## groups

The digits of one to three bytes are put together to these bytes, and bytes that are put together
from digits have these digits. -/

variable {i j k l : Nat}

theorem threeBytes_eq (a b c : UInt8) :
    threeBytes (((a.toNat / 4 * 64 + (a.toNat % 4 * 16 + b.toNat / 16)) * 64 +
      (b.toNat % 16 * 4 + c.toNat / 64)) * 64 + c.toNat % 64) = [a, b, c] := by
  generalize hn : ((a.toNat / 4 * 64 + (a.toNat % 4 * 16 + b.toNat / 16)) * 64 +
    (b.toNat % 16 * 4 + c.toNat / 64)) * 64 + c.toNat % 64 = n
  have hb := b.toNat_lt
  have hc := c.toNat_lt
  have h₁ : n / 65536 = a.toNat := by omega
  have h₂ : n / 256 % 256 = b.toNat := by omega
  have h₃ : n % 256 = c.toNat := by omega
  rw [threeBytes, h₁, h₂, h₃, UInt8.ofNat_toNat, UInt8.ofNat_toNat, UInt8.ofNat_toNat]

theorem twoBytes?_eq (a b : UInt8) :
    twoBytes? ((a.toNat / 4 * 64 + (a.toNat % 4 * 16 + b.toNat / 16)) * 64 + b.toNat % 16 * 4) =
      some [a, b] := by
  generalize hn : (a.toNat / 4 * 64 + (a.toNat % 4 * 16 + b.toNat / 16)) * 64 + b.toNat % 16 * 4 = n
  have hb := b.toNat_lt
  have h₁ : n / 1024 = a.toNat := by omega
  have h₂ : n / 4 % 256 = b.toNat := by omega
  rw [twoBytes?, if_pos (by omega), h₁, h₂, UInt8.ofNat_toNat, UInt8.ofNat_toNat]

theorem oneByte?_eq (a : UInt8) : oneByte? (a.toNat / 4 * 64 + a.toNat % 4 * 16) = some [a] := by
  have h₁ : (a.toNat / 4 * 64 + a.toNat % 4 * 16) / 16 = a.toNat := by omega
  rw [oneByte?, if_pos (by omega), h₁, UInt8.ofNat_toNat]

theorem encode_threeBytes (hi : i < 64) (hj : j < 64) (hk : k < 64) (hl : l < 64) (r : List UInt8) :
    encode (threeBytes (((i * 64 + j) * 64 + k) * 64 + l) ++ r) =
      digit i :: digit j :: digit k :: digit l :: encode r := by
  generalize hn : ((i * 64 + j) * 64 + k) * 64 + l = n
  have h₁ : n / 65536 < 256 := by omega
  have h₂ : n / 256 % 256 < 256 := by omega
  have h₃ : n % 256 < 256 := by omega
  have hi : n / 65536 / 4 = i := by omega
  have hj : n / 65536 % 4 * 16 + n / 256 % 256 / 16 = j := by omega
  have hk : n / 256 % 256 % 16 * 4 + n % 256 / 64 = k := by omega
  have hl : n % 256 % 64 = l := by omega
  show encode (UInt8.ofNat _ :: UInt8.ofNat _ :: UInt8.ofNat _ :: r) = _
  rw [encode, UInt8.toNat_ofNat_of_lt' h₁, UInt8.toNat_ofNat_of_lt' h₂, UInt8.toNat_ofNat_of_lt' h₃,
    hi, hj, hk, hl]

theorem encode_of_twoBytes? (hi : i < 64) (hj : j < 64) (hk : k < 64)
    (h : twoBytes? ((i * 64 + j) * 64 + k) = some bytes) :
    encode bytes = [digit i, digit j, digit k, .char '='] := by
  generalize hn : (i * 64 + j) * 64 + k = n at h
  unfold twoBytes? at h
  split_ifs at h with hfill
  obtain rfl := Option.some.inj h
  have h₁ : n / 1024 < 256 := by omega
  have h₂ : n / 4 % 256 < 256 := by omega
  have hi : n / 1024 / 4 = i := by omega
  have hj : n / 1024 % 4 * 16 + n / 4 % 256 / 16 = j := by omega
  have hk : n / 4 % 256 % 16 * 4 = k := by omega
  rw [encode, UInt8.toNat_ofNat_of_lt' h₁, UInt8.toNat_ofNat_of_lt' h₂, hi, hj, hk]

theorem encode_of_oneByte? (hi : i < 64) (hj : j < 64) (h : oneByte? (i * 64 + j) = some bytes) :
    encode bytes = [digit i, digit j, .char '=', .char '='] := by
  generalize hn : i * 64 + j = n at h
  unfold oneByte? at h
  split_ifs at h with hfill
  obtain rfl := Option.some.inj h
  have h₁ : n / 16 < 256 := by omega
  have hi : n / 16 / 4 = i := by omega
  have hj : n / 16 % 4 * 16 = j := by omega
  rw [encode, UInt8.toNat_ofNat_of_lt' h₁, hi, hj]

/-! ## whole texts -/

/-- what is encoded is decoded again -/
theorem decode?_encode (bytes : List UInt8) : decode? (encode bytes) = some bytes := by
  fun_induction encode bytes with
  | case1 a b c r ih =>
    have ha := a.toNat_lt
    have hb := b.toNat_lt
    have hc := c.toNat_lt
    have hd := digit_ne (show c.toNat % 64 < 64 by omega)
    rw [decode?.eq_4 _ _ _ _ _ (fun _ h => absurd h hd) (fun h => absurd h hd),
      number?_digit (by omega), number?_digit (by omega), number?_digit (by omega),
      number?_digit (by omega), ih]
    show some (threeBytes _ ++ r) = _
    rw [threeBytes_eq]
    rfl
  | case2 a b =>
    have ha := a.toNat_lt
    have hb := b.toNat_lt
    have hc := digit_ne (show b.toNat % 16 * 4 < 64 by omega)
    rw [decode?.eq_3 _ _ _ (fun h => absurd h hc), number?_digit (by omega),
      number?_digit (by omega), number?_digit (by omega)]
    exact twoBytes?_eq a b
  | case3 a =>
    have ha := a.toNat_lt
    rw [decode?.eq_2, number?_digit (by omega), number?_digit (by omega)]
    exact oneByte?_eq a
  | case4 => rfl

/-- only what bytes are encoded as is decoded to them -/
theorem eq_encode_of_decode? (h : decode? t = some bytes) : t = encode bytes := by
  fun_induction decode? t generalizing bytes with
  | case1 =>
    obtain rfl := Option.some.inj h
    rfl
  | case2 a b =>
    obtain ⟨i, hni, h₁⟩ := Option.bind_eq_some_iff.1 h
    obtain ⟨j, hnj, h₂⟩ := Option.bind_eq_some_iff.1 h₁
    obtain ⟨hi, rfl⟩ := eq_digit_of_number? hni
    obtain ⟨hj, rfl⟩ := eq_digit_of_number? hnj
    exact (encode_of_oneByte? hi hj h₂).symm
  | case3 a b c hc =>
    obtain ⟨i, hni, h₁⟩ := Option.bind_eq_some_iff.1 h
    obtain ⟨j, hnj, h₂⟩ := Option.bind_eq_some_iff.1 h₁
    obtain ⟨k, hnk, h₃⟩ := Option.bind_eq_some_iff.1 h₂
    obtain ⟨hi, rfl⟩ := eq_digit_of_number? hni
    obtain ⟨hj, rfl⟩ := eq_digit_of_number? hnj
    obtain ⟨hk, rfl⟩ := eq_digit_of_number? hnk
    exact (encode_of_twoBytes? hi hj hk h₃).symm
  | case4 a b c d r hpair hsingle ih =>
    obtain ⟨i, hni, h₁⟩ := Option.bind_eq_some_iff.1 h
    obtain ⟨j, hnj, h₂⟩ := Option.bind_eq_some_iff.1 h₁
    obtain ⟨k, hnk, h₃⟩ := Option.bind_eq_some_iff.1 h₂
    obtain ⟨l, hnl, h₄⟩ := Option.bind_eq_some_iff.1 h₃
    obtain ⟨rest, hrest, rfl⟩ := Option.map_eq_some_iff.1 h₄
    obtain ⟨hi, rfl⟩ := eq_digit_of_number? hni
    obtain ⟨hj, rfl⟩ := eq_digit_of_number? hnj
    obtain ⟨hk, rfl⟩ := eq_digit_of_number? hnk
    obtain ⟨hl, rfl⟩ := eq_digit_of_number? hnl
    rw [ih hrest]
    exact (encode_threeBytes hi hj hk hl rest).symm
  | case5 t => cases h

theorem decode?_eq_some : decode? t = some bytes ↔ t = encode bytes := by
  constructor
  · exact eq_encode_of_decode?
  · rintro rfl
    exact decode?_encode bytes

theorem isPadded_encode (bytes : List UInt8) : IsPadded (encode bytes) := by
  fun_induction encode bytes with
  | case1 a b c r ih =>
    have ha := a.toNat_lt
    have hb := b.toNat_lt
    have hc := c.toNat_lt
    obtain ⟨hlength, digits, fill, hr, hfill, hdigits⟩ := ih
    rw [hr] at hlength ⊢
    refine ⟨by simp only [List.length_cons]; omega, _ :: _ :: _ :: _ :: digits, fill, rfl, hfill, ?_⟩
    simp only [List.forall_mem_cons]
    exact ⟨digit_mem (by omega), digit_mem (by omega), digit_mem (by omega),
      digit_mem (by omega), hdigits⟩
  | case2 a b =>
    have ha := a.toNat_lt
    have hb := b.toNat_lt
    refine ⟨by simp, [_, _, _], 1, rfl, by omega, ?_⟩
    simp only [List.mem_cons, List.not_mem_nil, or_false, forall_eq_or_imp, forall_eq]
    exact ⟨digit_mem (by omega), digit_mem (by omega), digit_mem (by omega)⟩
  | case3 a =>
    have ha := a.toNat_lt
    refine ⟨by simp, [_, _], 2, rfl, by omega, ?_⟩
    simp only [List.mem_cons, List.not_mem_nil, or_false, forall_eq_or_imp, forall_eq]
    exact ⟨digit_mem (by omega), digit_mem (by omega)⟩
  | case4 => exact ⟨by simp, [], 0, rfl, by omega, by simp⟩

end Base64

namespace Depot

variable {body url : Text}

theorem dataUrl_eq_ok : dataUrl body = .ok url ↔
    ∃ bytes, body.utf8? = some bytes ∧ url = dataUrlPrefix ++ Base64.encode bytes := by
  unfold dataUrl
  cases body.utf8? with
  | none => simp
  | some bytes => simp [eq_comm]

/-- A body has a URL unless half of a surrogate pair is in it.  Behind the name of the media type
stands Base64, the only one of the bytes that are read as the body; so bodies that differ have URLs
that differ. -/
theorem dataUrl_carries (body : Text) :
    (∀ e, dataUrl body = .error e ↔ e = .notEncodable ∧ ∃ c ∈ body, c.isScalar = false) ∧
    (∀ url, dataUrl body = .ok url →
      ∃ digits bytes, url = Text.ofString "data:text/javascript;base64," ++ digits ∧
        Base64.IsPadded digits ∧ (∀ t, Base64.decode? t = some bytes ↔ t = digits) ∧
        Text.ofUtf8? bytes = some body) ∧
    ∀ other url, dataUrl body = .ok url → dataUrl other = .ok url → other = body := by
  refine ⟨fun e => ?_, fun url h => ?_, fun other url h h' => ?_⟩
  · rw [← Text.utf8?_eq_none, dataUrl]
    cases body.utf8? with
    | none => simp [eq_comm]
    | some bytes => simp
  · obtain ⟨bytes, hbytes, rfl⟩ := dataUrl_eq_ok.1 h
    exact ⟨Base64.encode bytes, bytes, rfl, Base64.isPadded_encode bytes, fun t =>
      Base64.decode?_eq_some, Text.ofUtf8?_of_utf8? hbytes⟩
  · obtain ⟨bytes, hbytes, rfl⟩ := dataUrl_eq_ok.1 h
    obtain ⟨bytes', hbytes', hurl⟩ := dataUrl_eq_ok.1 h'
    -- what is read from the digits is read from both bodies
    have hdecoded := Base64.decode?_encode bytes'
    rw [← List.append_cancel_left hurl, Base64.decode?_encode] at hdecoded
    obtain rfl := Option.some.inj hdecoded
    have hread := Text.ofUtf8?_of_utf8? hbytes'
    rw [Text.ofUtf8?_of_utf8? hbytes] at hread
    exact (Option.some.inj hread).symm

/-- characters of one byte, two, three and four: ten bytes, one more than fills groups of three -/
def varied : Text := "a\u017c\u20ac😀"

theorem dataUrl_carries_varied :
    dataUrl varied = .ok (Text.ofString "data:text/javascript;base64,YcW84oKs8J+YgA==") ∧
      ∃ digits bytes,
        Text.ofString "data:text/javascript;base64,YcW84oKs8J+YgA==" =
          Text.ofString "data:text/javascript;base64," ++ digits ∧
        Base64.IsPadded digits ∧ (∀ t, Base64.decode? t = some bytes ↔ t = digits) ∧
        Text.ofUtf8? bytes = some varied ∧
        ∀ other,
          dataUrl other = .ok (Text.ofString "data:text/javascript;base64,YcW84oKs8J+YgA==") →
          other = varied := by
  have h : dataUrl varied = .ok (Text.ofString "data:text/javascript;base64,YcW84oKs8J+YgA==") := by
    decide +kernel
  obtain ⟨-, hdigits, hbody⟩ := dataUrl_carries varied
  obtain ⟨digits, bytes, hurl, hpadded, hdecode, hread⟩ := hdigits _ h
  exact ⟨h, digits, bytes, hurl, hpadded, hdecode, hread, fun other hother =>
    hbody other _ h hother⟩

end Depot

end Relocation
