import FirmwareIds.Proofs.Text.Reencoding

/-!
# Well-formed bytes

Bytes are well formed in UTF-8 if they are characters one behind the other, and the bytes of a character
are known by their ranges (`Utf8.IsCharacter`). They are well formed in UTF-16 if they are units, none of
them a surrogate but in a pair (`Utf16.WellFormed`). Neither says what the characters are. The bytes that
some text has are exactly these (`Encoding.wellFormed_iff`).

So what was read and is written again is well formed, and bytes that are not do not come back: under a mark
they are read all the same, and what replaces a malformed place has other bytes
(`TextContent.encode_decode?_iff`).
-/

namespace FirmwareIds

namespace Utf8

/-- The bytes of one character. The narrower ranges behind `E0`, `ED`, `F0` and `F4` leave out longer forms
of other characters, the surrogates, and what is above the last code point. -/
inductive IsCharacter : List UInt8 → Prop
  | one {b : UInt8} (hb : b.toNat ≤ 0x7F) : IsCharacter [b]
  | two {b b₁ : UInt8} (hb : 0xC2 ≤ b.toNat ∧ b.toNat ≤ 0xDF) (h₁ : IsTail b₁) :
    IsCharacter [b, b₁]
  | three {b b₁ b₂ : UInt8} (hb : 0xE0 ≤ b.toNat ∧ b.toNat ≤ 0xEF) (h₁ : IsTail b₁) (h₂ : IsTail b₂)
    (hlow : b.toNat = 0xE0 → 0xA0 ≤ b₁.toNat) (hhigh : b.toNat = 0xED → b₁.toNat ≤ 0x9F) :
    IsCharacter [b, b₁, b₂]
  | four {b b₁ b₂ b₃ : UInt8} (hb : 0xF0 ≤ b.toNat ∧ b.toNat ≤ 0xF4) (h₁ : IsTail b₁)
    (h₂ : IsTail b₂) (h₃ : IsTail b₃) (hlow : b.toNat = 0xF0 → 0x90 ≤ b₁.toNat)
    (hhigh : b.toNat = 0xF4 → b₁.toNat ≤ 0x8F) : IsCharacter [b, b₁, b₂, b₃]

/-- Characters one behind the other. -/
inductive WellFormed : List UInt8 → Prop
  | nil : WellFormed []
  | append {c rest : List UInt8} (hc : IsCharacter c) (h : WellFormed rest) : WellFormed (c ++ rest)

theorem isCharacter_encodeChar (c : Char) : IsCharacter (encodeChar c) := by
  have hvalid := toNat_valid c
  unfold encodeChar
  generalize c.toNat = n at hvalid
  dsimp only
  split
  · next h =>
    have hb : n.toUInt8.toNat = n := toNat_toUInt8 (by omega)
    exact .one (by omega)
  · split
    · next h₁ h₂ =>
      have hb : (0xC0 + n / 64).toUInt8.toNat = 0xC0 + n / 64 := toNat_toUInt8 (by omega)
      have ht : (0x80 + n % 64).toUInt8.toNat = 0x80 + n % 64 := toNat_toUInt8 (by omega)
      exact .two (by omega) ⟨by omega, by omega⟩
    · split
      · next h₁ h₂ h₃ =>
        have hb : (0xE0 + n / 4096).toUInt8.toNat = 0xE0 + n / 4096 := toNat_toUInt8 (by omega)
        have ht₁ : (0x80 + n / 64 % 64).toUInt8.toNat = 0x80 + n / 64 % 64 :=
          toNat_toUInt8 (by omega)
        have ht₂ : (0x80 + n % 64).toUInt8.toNat = 0x80 + n % 64 := toNat_toUInt8 (by omega)
        exact .three (by omega) ⟨by omega, by omega⟩ ⟨by omega, by omega⟩ (by omega) (by omega)
      · next h₁ h₂ h₃ =>
        have hb : (0xF0 + n / 262144).toUInt8.toNat = 0xF0 + n / 262144 := toNat_toUInt8 (by omega)
        have ht₁ : (0x80 + n / 4096 % 64).toUInt8.toNat = 0x80 + n / 4096 % 64 :=
          toNat_toUInt8 (by omega)
        have ht₂ : (0x80 + n / 64 % 64).toUInt8.toNat = 0x80 + n / 64 % 64 :=
          toNat_toUInt8 (by omega)
        have ht₃ : (0x80 + n % 64).toUInt8.toNat = 0x80 + n % 64 := toNat_toUInt8 (by omega)
        exact .four (by omega) ⟨by omega, by omega⟩ ⟨by omega, by omega⟩ ⟨by omega, by omega⟩
          (by omega) (by omega)

/-- The number that the bytes of a character make up is the number of a character. -/
theorem IsCharacter.exists_char {bs : List UInt8} (h : IsCharacter bs) :
    ∃ c, encodeChar c = bs := by
  cases h with
  | @one b hb =>
    refine ⟨Char.ofNat b.toNat, ?_⟩
    rw [encodeChar_ofNat (by omega), if_pos (by omega), toUInt8_toNat rfl]
  | @two b b₁ hb h₁ =>
    have hbits : b.toNat = 0xC0 + (b.toNat - 0xC0) := by omega
    exact ⟨_, encodeChar_two hbits h₁ (by omega) (by omega)⟩
  | @three b b₁ b₂ hb h₁ h₂ hlow hhigh =>
    have hbits : b.toNat = 0xE0 + (b.toNat - 0xE0) := by omega
    exact ⟨_, encodeChar_three hbits h₁ h₂ (by omega)
      (fun hzero => hlow (by omega)) (fun hlast => hhigh (by omega))⟩
  | @four b b₁ b₂ b₃ hb h₁ h₂ h₃ hlow hhigh =>
    have hbits : b.toNat = 0xF0 + (b.toNat - 0xF0) := by omega
    exact ⟨_, encodeChar_four hbits h₁ h₂ h₃ (by omega)
      (fun hzero => hlow (by omega)) (fun hlast => hhigh (by omega))⟩

/-- Well-formed bytes are the bytes of a text. -/
theorem wellFormed_iff {bs : List UInt8} : WellFormed bs ↔ ∃ s, encode s = bs := by
  constructor
  · intro h
    induction h with
    | nil => exact ⟨[], rfl⟩
    | append hc _ ih =>
      obtain ⟨c, rfl⟩ := hc.exists_char
      obtain ⟨s, rfl⟩ := ih
      exact ⟨c :: s, encode_cons c s⟩
  · rintro ⟨s, rfl⟩
    induction s with
    | nil => exact .nil
    | cons c s ih => exact .append (isCharacter_encodeChar c) ih

/-- Strict reading accepts well-formed bytes and no others. -/
theorem exists_decode?_iff {bs : List UInt8} : (∃ s, decode? bs = some s) ↔ WellFormed bs := by
  rw [wellFormed_iff]
  constructor
  · rintro ⟨s, hs⟩
    exact ⟨s, encode_of_decode? hs⟩
  · rintro ⟨s, rfl⟩
    exact ⟨s, decode?_encode s⟩

end Utf8

namespace Utf16

/-- Units in this byte order, none of them a surrogate but for a high one in front of a low one. -/
inductive WellFormed (o : ByteOrder) : List UInt8 → Prop
  | nil : WellFormed o []
  | unit {a b : UInt8} {rest : List UInt8} (hhigh : isHigh (o.unit a b) = false)
    (hlow : isLow (o.unit a b) = false) (h : WellFormed o rest) : WellFormed o (a :: b :: rest)
  | pair {a b a' b' : UInt8} {rest : List UInt8} (hhigh : isHigh (o.unit a b) = true)
    (hlow : isLow (o.unit a' b') = true) (h : WellFormed o rest) :
    WellFormed o (a :: b :: a' :: b' :: rest)

theorem encode_cons (o : ByteOrder) (c : Char) (s : Text) :
    encode o (c :: s) = (unitsOfChar c).flatMap o.bytes ++ encode o s :=
  List.flatMap_append

theorem bytes_unit (o : ByteOrder) (a b : UInt8) : o.bytes (o.unit a b) = [a, b] := by
  have ha := a.toNat_lt
  have hb := b.toNat_lt
  cases o with
  | little =>
    have hu : (a.toNat + 256 * b.toNat).toUInt16.toNat = a.toNat + 256 * b.toNat :=
      toNat_toUInt16 (by omega)
    unfold ByteOrder.unit ByteOrder.bytes
    simp only [hu]
    rw [toUInt8_toNat (b := a) (by omega), toUInt8_toNat (b := b) (by omega)]
  | big =>
    have hu : (256 * a.toNat + b.toNat).toUInt16.toNat = 256 * a.toNat + b.toNat :=
      toNat_toUInt16 (by omega)
    unfold ByteOrder.unit ByteOrder.bytes
    simp only [hu]
    rw [toUInt8_toNat (b := a) (by omega), toUInt8_toNat (b := b) (by omega)]

/-- A unit that is no surrogate is the unit of a character. -/
theorem unitsOfChar_ofNat {u : UInt16} (hhigh : isHigh u = false) (hlow : isLow u = false) :
    unitsOfChar (Char.ofNat u.toNat) = [u] := by
  have hlt := u.toNat_lt
  have hvalid : u.toNat < 0xD800 ∨ 0xDFFF < u.toNat ∧ u.toNat < 0x110000 := by
    rw [← Bool.not_eq_true, isHigh_iff] at hhigh
    rw [← Bool.not_eq_true, isLow_iff] at hlow
    omega
  unfold unitsOfChar
  rw [toNat_ofNat hvalid]
  show (if _ then _ else _) = _
  rw [if_pos (by omega)]
  exact congrArg (fun u => [u]) UInt16.ofNat_toNat

/-- A pair of surrogates is the two units of a character. -/
theorem unitsOfChar_charOfPair {u v : UInt16} (hhigh : isHigh u = true) (hlow : isLow v = true) :
    unitsOfChar (charOfPair u v) = [u, v] := by
  obtain ⟨hu, hu'⟩ := isHigh_iff.mp hhigh
  obtain ⟨hv, hv'⟩ := isLow_iff.mp hlow
  have hn : (charOfPair u v).toNat =
      0x10000 + (u.toNat - 0xD800) * 1024 + (v.toNat - 0xDC00) := by
    unfold charOfPair
    exact toNat_ofNat (Or.inr ⟨by omega, by omega⟩)
  have hback : ∀ {m : Nat} {w : UInt16}, m = w.toNat → m.toUInt16 = w := by
    rintro m w rfl
    exact UInt16.ofNat_toNat
  unfold unitsOfChar
  rw [hn]
  show (if _ then _ else _) = _
  rw [if_neg (by omega), hback (w := u) (by omega), hback (w := v) (by omega)]

/-- Well-formed bytes are the bytes of a text. -/
theorem wellFormed_iff {o : ByteOrder} {bs : List UInt8} :
    WellFormed o bs ↔ ∃ s, encode o s = bs := by
  constructor
  · intro h
    induction h with
    | nil => exact ⟨[], rfl⟩
    | @unit a b rest hhigh hlow _ ih =>
      obtain ⟨s, rfl⟩ := ih
      refine ⟨Char.ofNat (o.unit a b).toNat :: s, ?_⟩
      rw [encode_cons, unitsOfChar_ofNat hhigh hlow, List.flatMap_singleton, bytes_unit]
      rfl
    | @pair a b a' b' rest hhigh hlow _ ih =>
      obtain ⟨s, rfl⟩ := ih
      refine ⟨charOfPair (o.unit a b) (o.unit a' b') :: s, ?_⟩
      rw [encode_cons, unitsOfChar_charOfPair hhigh hlow, List.flatMap_cons, List.flatMap_singleton,
        bytes_unit, bytes_unit]
      rfl
  · rintro ⟨s, rfl⟩
    induction s with
    | nil => exact .nil
    | cons c s ih =>
      rw [encode_cons]
      rcases unitsOfChar_eq c with ⟨u, hunits, hhigh, hlow, -⟩ | ⟨u, v, hunits, hhigh, hlow, -⟩
      · obtain ⟨a, b, hbytes, rfl⟩ := bytes_eq o u
        rw [hunits, List.flatMap_singleton, hbytes]
        exact .unit hhigh hlow ih
      · obtain ⟨a, b, hbytes, rfl⟩ := bytes_eq o u
        obtain ⟨a', b', hbytes', rfl⟩ := bytes_eq o v
        rw [hunits, List.flatMap_cons, List.flatMap_singleton, hbytes, hbytes']
        exact .pair hhigh hlow ih

end Utf16

namespace Encoding

/-- Bytes that are well formed in the encoding; the mark is not looked at. -/
def WellFormed : Encoding → List UInt8 → Prop
  | utf8, bs | utf8Marked, bs => Utf8.WellFormed bs
  | utf16Little, bs => Utf16.WellFormed .little bs
  | utf16Big, bs => Utf16.WellFormed .big bs

/-- The bytes that some text has are those that are well formed. -/
theorem wellFormed_iff {e : Encoding} {bs : List UInt8} :
    e.WellFormed bs ↔ ∃ s, e.body s = bs := by
  cases e with
  | utf8 | utf8Marked => exact Utf8.wellFormed_iff
  | utf16Little | utf16Big => exact Utf16.wellFormed_iff

/-- What was read behind the mark has the bytes that it was read from exactly if these are well formed and
no other mark was dropped from them. -/
theorem body_bodyText_dropMark_iff {e : Encoding} (he : e ≠ .utf8) (bs : List UInt8) :
    e.body (e.bodyText (e.dropMark bs)) = bs ↔ e.WellFormed bs ∧ ¬ e.mark <+: bs := by
  rw [wellFormed_iff]
  constructor
  · intro h
    refine ⟨⟨_, h⟩, ?_⟩
    rintro ⟨rest, rfl⟩
    -- the text would be read once more with the dropped mark at its front
    rw [dropMark_mark] at h
    have htwice := congrArg e.bodyText h
    have hmark : e.mark = e.body [markChar] := by
      rw [body_cons_markChar he, show e.body [] = [] by cases e <;> rfl, List.append_nil]
    rw [bodyText_body, hmark, bodyText_append] at htwice
    exact absurd htwice.symm (List.cons_ne_self _ _)
  · rintro ⟨⟨s, rfl⟩, hmark⟩
    rw [dropMark_eq_self fun rest hrest => hmark ⟨rest, hrest.symm⟩, bodyText_body]

end Encoding

namespace TextContent

open Encoding

/-- What writing makes of bytes that were read. Bytes without a mark are read if and only if they are
UTF-8, and come back. Bytes behind a mark are read whatever they are, and come back if and only if they are
well formed and begin with no other mark. -/
theorem encode_decode?_iff :
    (∀ bs : List UInt8, (∀ e, e ≠ utf8 → ¬ e.mark <+: bs) →
      ((∃ c, decode? bs = some c) ↔ Utf8.WellFormed bs) ∧
        ∀ c, decode? bs = some c → c.encoding = utf8 ∧ c.encode = bs) ∧
    ∀ e, e ≠ utf8 → ∀ bs : List UInt8, ∃ c, decode? (e.mark ++ bs) = some c ∧ c.encoding = e ∧
      (c.encode = e.mark ++ bs ↔ e.WellFormed bs ∧ ¬ e.mark <+: bs) := by
  refine ⟨fun bs hmarks => ?_, fun e he bs => ?_⟩
  · have hread : decode? bs = (Utf8.decode? bs).map (⟨·, .utf8⟩) := by
      unfold decode?
      rw [detect_of_no_mark hmarks]
    refine ⟨?_, fun c hc => ?_⟩
    · rw [hread, ← Utf8.exists_decode?_iff]
      simp [Option.map_eq_some_iff]
    · have hutf8 : c.encoding = utf8 := by
        rw [hread] at hc
        obtain ⟨s, -, rfl⟩ := Option.map_eq_some_iff.mp hc
        rfl
      exact ⟨hutf8, encode_of_decode? hc hutf8⟩
  · refine ⟨_, decode?_mark_append he bs, rfl, ?_⟩
    rw [← body_bodyText_dropMark_iff he bs]
    exact List.append_right_inj e.mark

/-- A surrogate without its partner is read, and something else is written; the bytes of a letter are
written as they were. -/
theorem surrogate_replaced :
    (∃ c, decode? [0xFF, 0xFE, 0x00, 0xD8] = some c ∧ c.encode ≠ [0xFF, 0xFE, 0x00, 0xD8]) ∧
      ∃ c, decode? [0xC3, 0xA9] = some c ∧ c.encode = [0xC3, 0xA9] := by
  have hnone : ∀ e, e ≠ utf8 → ¬ e.mark <+: [0xC3, 0xA9] := by
    intro e he
    cases e with
    | utf8 => exact absurd rfl he
    | utf8Marked | utf16Little | utf16Big => decide
  obtain ⟨hplain, hmarked⟩ := encode_decode?_iff
  refine ⟨?_, ?_⟩
  · obtain ⟨c, hc, -, hback⟩ := hmarked .utf16Little nofun [0x00, 0xD8]
    refine ⟨c, hc, fun hsame => ?_⟩
    have hformed : Utf16.WellFormed .little [0x00, 0xD8] := (hback.mp hsame).1
    cases hformed with
    | unit hhigh => exact absurd hhigh (by decide)
  · obtain ⟨hread, hback⟩ := hplain [0xC3, 0xA9] hnone
    have hcharacter : Utf8.IsCharacter [0xC3, 0xA9] := .two (by decide) ⟨by decide, by decide⟩
    obtain ⟨c, hc⟩ := hread.mpr (.append hcharacter .nil)
    exact ⟨c, hc, (hback c hc).2⟩

end TextContent

end FirmwareIds
