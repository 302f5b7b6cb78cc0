import FirmwareIds.Proofs.Text.Encoding

/-!
# Writing what was read

Bytes that hold no mark are read strictly, so writing the text that was read gives them back
(`TextContent.encode_of_decode?`). Under a mark malformed places are replaced and a second mark is
dropped, and then the bytes do not come back.

For a file that text is put behind this decides whether its old bytes are still at the front. They are
if, and only if, they are at the front of the bytes of the text that was read
(`TextContent.prefix_encode_iff`). They may be so without being all of them: a file that ends in the
first two bytes of the replacement character is read as ending in it.
-/

namespace FirmwareIds

theorem toUInt8_toNat {n : Nat} {b : UInt8} (h : n = b.toNat) : n.toUInt8 = b := by
  rw [h]
  exact UInt8.ofNat_toNat

theorem toNat_ofNat {n : Nat} (h : n < 0xD800 ∨ 0xDFFF < n ∧ n < 0x110000) :
    (Char.ofNat n).toNat = n := by
  rw [Char.ofNat, dif_pos h]
  rfl

namespace Utf8

/-- The bytes owed are within their bounds, each in turn. -/
theorem tails_eq_some {owed low high bits n : Nat} {bs rest : List UInt8}
    (h : tails (owed + 1) low high bits bs = (some n, rest)) :
    ∃ b more, bs = b :: more ∧ low ≤ b.toNat ∧ b.toNat ≤ high ∧
      tails owed 0x80 0xBF (bits * 64 + b.toNat % 64) more = (some n, rest) := by
  cases bs with
  | nil => cases h
  | cons b more =>
    rw [tails] at h
    split at h
    · next hbounds => exact ⟨b, more, rfl, hbounds.1, hbounds.2, h⟩
    · cases h

/-- The bytes of the character with this number, if there is one. -/
theorem encodeChar_ofNat {n : Nat} (h : n < 0xD800 ∨ 0xDFFF < n ∧ n < 0x110000) :
    encodeChar (Char.ofNat n) =
      if n < 0x80 then [n.toUInt8]
      else if n < 0x800 then [(0xC0 + n / 64).toUInt8, (0x80 + n % 64).toUInt8]
      else if n < 0x10000 then
        [(0xE0 + n / 4096).toUInt8, (0x80 + n / 64 % 64).toUInt8, (0x80 + n % 64).toUInt8]
      else
        [(0xF0 + n / 262144).toUInt8, (0x80 + n / 4096 % 64).toUInt8,
          (0x80 + n / 64 % 64).toUInt8, (0x80 + n % 64).toUInt8] := by
  unfold encodeChar
  rw [toNat_ofNat h]

/-- A byte that another one may be followed by. -/
def IsTail (b : UInt8) : Prop := 0x80 ≤ b.toNat ∧ b.toNat ≤ 0xBF

variable {b b₁ b₂ b₃ : UInt8} {bits : Nat}

theorem encodeChar_two (hb : b.toNat = 0xC0 + bits) (h₁ : IsTail b₁) (hlow : 2 ≤ bits)
    (hhigh : bits < 32) :
    encodeChar (Char.ofNat (bits * 64 + b₁.toNat % 64)) = [b, b₁] := by
  obtain ⟨hlow₁, hhigh₁⟩ := h₁
  rw [encodeChar_ofNat (by omega), if_neg (by omega), if_pos (by omega)]
  rw [toUInt8_toNat (b := b) (by omega), toUInt8_toNat (b := b₁) (by omega)]

theorem encodeChar_three (hb : b.toNat = 0xE0 + bits) (h₁ : IsTail b₁) (h₂ : IsTail b₂)
    (hbits : bits < 16) (hlow : bits = 0 → 0xA0 ≤ b₁.toNat)
    (hhigh : bits = 13 → b₁.toNat ≤ 0x9F) :
    encodeChar (Char.ofNat ((bits * 64 + b₁.toNat % 64) * 64 + b₂.toNat % 64)) = [b, b₁, b₂] := by
  obtain ⟨hlow₁, hhigh₁⟩ := h₁
  obtain ⟨hlow₂, hhigh₂⟩ := h₂
  have hn : 0x800 ≤ (bits * 64 + b₁.toNat % 64) * 64 + b₂.toNat % 64 := by omega
  rw [encodeChar_ofNat (by omega), if_neg (by omega), if_neg (by omega), if_pos (by omega)]
  rw [toUInt8_toNat (b := b) (by omega), toUInt8_toNat (b := b₁) (by omega),
    toUInt8_toNat (b := b₂) (by omega)]

theorem encodeChar_four (hb : b.toNat = 0xF0 + bits) (h₁ : IsTail b₁) (h₂ : IsTail b₂)
    (h₃ : IsTail b₃) (hbits : bits < 5) (hlow : bits = 0 → 0x90 ≤ b₁.toNat)
    (hhigh : bits = 4 → b₁.toNat ≤ 0x8F) :
    encodeChar (Char.ofNat
      (((bits * 64 + b₁.toNat % 64) * 64 + b₂.toNat % 64) * 64 + b₃.toNat % 64)) =
        [b, b₁, b₂, b₃] := by
  obtain ⟨hlow₁, hhigh₁⟩ := h₁
  obtain ⟨hlow₂, hhigh₂⟩ := h₂
  obtain ⟨hlow₃, hhigh₃⟩ := h₃
  have hn : 0x10000 ≤ ((bits * 64 + b₁.toNat % 64) * 64 + b₂.toNat % 64) * 64 + b₃.toNat % 64 := by
    omega
  rw [encodeChar_ofNat (by omega), if_neg (by omega), if_neg (by omega), if_neg (by omega)]
  rw [toUInt8_toNat (b := b) (by omega), toUInt8_toNat (b := b₁) (by omega),
    toUInt8_toNat (b := b₂) (by omega), toUInt8_toNat (b := b₃) (by omega)]

/-- Two bytes that are owed. -/
theorem tails_two {low high n : Nat} {bs rest : List UInt8}
    (h : tails 2 low high bits bs = (some n, rest)) : ∃ b₁ b₂, bs = b₁ :: b₂ :: rest ∧
      (low ≤ b₁.toNat ∧ b₁.toNat ≤ high) ∧ IsTail b₂ ∧
      n = (bits * 64 + b₁.toNat % 64) * 64 + b₂.toNat % 64 := by
  obtain ⟨b₁, _, rfl, hlow₁, hhigh₁, h⟩ := tails_eq_some h
  obtain ⟨b₂, _, rfl, hlow₂, hhigh₂, h⟩ := tails_eq_some h
  cases h
  exact ⟨b₁, b₂, rfl, ⟨hlow₁, hhigh₁⟩, ⟨hlow₂, hhigh₂⟩, rfl⟩

/-- Three bytes that are owed. -/
theorem tails_three {low high n : Nat} {bs rest : List UInt8}
    (h : tails 3 low high bits bs = (some n, rest)) : ∃ b₁ b₂ b₃, bs = b₁ :: b₂ :: b₃ :: rest ∧
      (low ≤ b₁.toNat ∧ b₁.toNat ≤ high) ∧ IsTail b₂ ∧ IsTail b₃ ∧
      n = ((bits * 64 + b₁.toNat % 64) * 64 + b₂.toNat % 64) * 64 + b₃.toNat % 64 := by
  obtain ⟨b₁, _, rfl, hlow₁, hhigh₁, h⟩ := tails_eq_some h
  obtain ⟨b₂, b₃, rfl, h₂, h₃, rfl⟩ := tails_two h
  exact ⟨b₁, b₂, b₃, rfl, ⟨hlow₁, hhigh₁⟩, h₂, h₃, rfl⟩

/-- What the first byte of a character says: how many bytes it owes, what bits it carries, and how the
next byte is bounded. -/
theorem lead_bounds {l : Lead} (h : lead? b = some l) :
    (l.owed = 0 ∧ b.toNat = l.bits ∧ l.bits < 0x80) ∨
    (l.owed = 1 ∧ b.toNat = 0xC0 + l.bits ∧ 2 ≤ l.bits ∧ l.bits < 32 ∧ 0x80 ≤ l.low ∧ l.high ≤ 0xBF) ∨
    (l.owed = 2 ∧ b.toNat = 0xE0 + l.bits ∧ l.bits < 16 ∧ 0x80 ≤ l.low ∧ l.high ≤ 0xBF ∧
      (l.bits = 0 → 0xA0 ≤ l.low) ∧ (l.bits = 13 → l.high ≤ 0x9F)) ∨
    (l.owed = 3 ∧ b.toNat = 0xF0 + l.bits ∧ l.bits < 5 ∧ 0x80 ≤ l.low ∧ l.high ≤ 0xBF ∧
      (l.bits = 0 → 0x90 ≤ l.low) ∧ (l.bits = 4 → l.high ≤ 0x8F)) := by
  unfold lead? at h
  dsimp only at h
  repeat' split at h
  all_goals cases h <;> dsimp only <;> omega

/-- The bytes that are read as a character are the bytes of this character. -/
theorem encodeChar_of_tails {bs rest : List UInt8} {l : Lead} {n : Nat} (hl : lead? b = some l)
    (ht : tails l.owed l.low l.high l.bits bs = (some n, rest)) :
    encodeChar (Char.ofNat n) ++ rest = b :: bs := by
  rcases lead_bounds hl with ⟨howed, hb, hbits⟩ | ⟨howed, hb, hmin, hmax, hlow, hhigh⟩ |
    ⟨howed, hb, hmax, hlow, hhigh, hzero, hlast⟩ | ⟨howed, hb, hmax, hlow, hhigh, hzero, hlast⟩
  all_goals rw [howed] at ht
  · cases ht
    rw [encodeChar_ofNat (by omega), if_pos hbits, toUInt8_toNat hb.symm]
    rfl
  · obtain ⟨b₁, _, rfl, hlow₁, hhigh₁, ht⟩ := tails_eq_some ht
    cases ht
    rw [encodeChar_two hb ⟨by omega, by omega⟩ hmin hmax]
    rfl
  · obtain ⟨b₁, b₂, rfl, h₁, h₂, rfl⟩ := tails_two ht
    rw [encodeChar_three hb ⟨by omega, by omega⟩ h₂ hmax (by omega) (by omega)]
    rfl
  · obtain ⟨b₁, b₂, b₃, rfl, h₁, h₂, h₃, rfl⟩ := tails_three ht
    rw [encodeChar_four hb ⟨by omega, by omega⟩ h₂ h₃ hmax (by omega) (by omega)]
    rfl

/-- What the first bytes are scanned as. -/
theorem scan_cons {bs : List UInt8} {l : Lead} (hl : lead? b = some l) {n? : Option Nat}
    {rest : List UInt8} (ht : tails l.owed l.low l.high l.bits bs = (n?, rest)) :
    scan (b :: bs) = n?.map Char.ofNat :: scan rest := by
  show scan.go [] (b :: bs) = _
  rw [scan.go, hl]
  dsimp only
  rw [ht, scan_go_eq]
  rfl

theorem scan_cons_of_none {bs : List UInt8} (hl : lead? b = none) :
    scan (b :: bs) = none :: scan bs := by
  show scan.go [] (b :: bs) = _
  rw [scan.go, hl, scan_go_eq]
  rfl

/-- What is scanned without a malformed place is the text whose bytes these are. -/
theorem encode_of_scan : (bs : List UInt8) → (∀ x ∈ scan bs, x.isSome) →
    ∃ s, scan bs = s.map some ∧ encode s = bs
  | [], _ => ⟨[], scan_nil, rfl⟩
  | b :: bs, h => by
    cases hl : lead? b with
    | none =>
      rw [scan_cons_of_none hl] at h
      exact absurd (h none (List.mem_cons_self ..)) Bool.false_ne_true
    | some l =>
      obtain ⟨n?, rest, ht⟩ : ∃ n? rest, tails l.owed l.low l.high l.bits bs = (n?, rest) :=
        ⟨_, _, rfl⟩
      have hlength : rest.length ≤ bs.length := by
        have := length_tails_le l.owed l.low l.high l.bits bs
        rwa [ht] at this
      rw [scan_cons hl ht] at h ⊢
      cases n? with
      | none => exact absurd (h none (List.mem_cons_self ..)) Bool.false_ne_true
      | some n =>
        obtain ⟨s, hs, hencode⟩ := encode_of_scan rest fun x hx => h x (List.mem_cons_of_mem _ hx)
        refine ⟨Char.ofNat n :: s, by rw [hs]; rfl, ?_⟩
        rw [encode_cons, hencode, encodeChar_of_tails hl ht]
termination_by bs => bs.length
decreasing_by exact Nat.lt_succ_of_le hlength

/-- Bytes that are read strictly are the bytes of the text that is read. -/
theorem encode_of_decode? {bs : List UInt8} {s : Text} (h : decode? bs = some s) :
    encode s = bs := by
  unfold decode? at h
  split at h
  · next hall =>
    obtain ⟨s', hs', hencode⟩ := encode_of_scan bs fun x hx => List.all_eq_true.mp hall x hx
    rw [← hencode, decodeLossy_encode] at h
    rw [← Option.some.inj h, hencode]
  · cases h

end Utf8

namespace Encoding

theorem body_append (e : Encoding) (s z : Text) : e.body (s ++ z) = e.body s ++ e.body z := by
  cases e with
  | utf8 | utf8Marked => exact Utf8.encode_append s z
  | utf16Little => exact Utf16.encode_append .little s z
  | utf16Big => exact Utf16.encode_append .big s z

/-- A character of seven bits has one byte, or two where it is held in a unit. -/
theorem body_singleton {c : Char} (hc : c.toNat < 0x80) (e : Encoding) :
    (∃ b, e.body [c] = [b]) ∨ e.isUtf16 = true ∧ ∃ b b', e.body [c] = [b, b'] := by
  have hunits : Utf16.units [c] = [c.toNat.toUInt16] := by
    show Utf16.unitsOfChar c ++ [] = _
    rw [Utf16.unitsOfChar, if_pos (by omega), List.append_nil]
  cases e with
  | utf8 | utf8Marked =>
    refine Or.inl ⟨c.toNat.toUInt8, ?_⟩
    show Utf8.encodeChar c ++ [] = _
    rw [Utf8.encodeChar, if_pos hc, List.append_nil]
  | utf16Little | utf16Big =>
    refine Or.inr ⟨rfl, ?_⟩
    show ∃ b b', (Utf16.units [c]).flatMap _ = [b, b']
    rw [hunits]
    exact ⟨_, _, rfl⟩

/-- A part of the bytes of a text that begins with a character of seven bits is read with this character
at its front, or with a replaced place if it is but one byte of it. -/
theorem bodyText_of_prefix {e : Encoding} {c : Char} (hc : c.toNat < 0x80) {s : Text}
    {bs : List UInt8} (hbs : bs ≠ []) (h : bs <+: e.body (c :: s)) :
    ∃ x more, e.bodyText bs = x :: more ∧ (x = c ∨ x = Utf8.replacement) := by
  have hwhole : ∀ more, bs = e.body [c] ++ more →
      ∃ x more, e.bodyText bs = x :: more ∧ (x = c ∨ x = Utf8.replacement) := by
    rintro more rfl
    exact ⟨c, _, e.bodyText_append [c] more, Or.inl rfl⟩
  rw [show c :: s = [c] ++ s from rfl, body_append] at h
  obtain ⟨b, bs, rfl⟩ := List.exists_cons_of_ne_nil hbs
  rcases body_singleton hc e with ⟨b', hone⟩ | ⟨hutf16, b', b'', htwo⟩
  · rw [hone] at h
    obtain ⟨rfl, -⟩ := List.cons_prefix_cons.mp h
    exact hwhole bs (by rw [hone]; rfl)
  · rw [htwo] at h
    obtain ⟨rfl, hrest⟩ := List.cons_prefix_cons.mp h
    cases bs with
    | nil =>
      refine ⟨Utf8.replacement, [], ?_, Or.inr rfl⟩
      cases e with
      | utf8 | utf8Marked => cases hutf16
      | utf16Little | utf16Big => rfl
    | cons b₂ bs =>
      obtain ⟨rfl, -⟩ := List.cons_prefix_cons.mp hrest
      exact hwhole bs (by rw [htwo]; rfl)

/-- A list that is the same when its last element is put to the front has that element there. -/
theorem eq_of_append_singleton_eq {α : Type} [DecidableEq α] {a b : α} {l : List α}
    (h : l ++ [a] = b :: l) : a = b := by
  have hcount := congrArg (List.count a) h
  rw [List.count_append, List.count_singleton_self, List.count_cons] at hcount
  refine Decidable.byContradiction fun hne => ?_
  rw [if_neg (by simpa using Ne.symm hne)] at hcount
  omega

/-- With more bytes behind its own, a text is not read again: bytes that begin the text `z`, which does
not begin with a mark. -/
theorem bodyText_dropMark_ne {e : Encoding} (he : e ≠ .utf8) {s z : Text} {bs : List UInt8}
    (hz : ∀ c ∈ z.head?, c.toNat < 0x80) (hbs : bs ≠ []) (hpre : bs <+: e.body z) :
    e.bodyText (e.dropMark (e.body s ++ bs)) ≠ s := by
  obtain ⟨c, z, rfl⟩ : ∃ c z', z = c :: z' := by
    refine List.exists_cons_of_ne_nil fun hnil => ?_
    rw [hnil, show e.body [] = [] by cases e <;> rfl] at hpre
    exact hbs (List.prefix_nil.mp hpre)
  have hc : c.toNat < 0x80 := hz c rfl
  have hne : ∀ x, x = c ∨ x = Utf8.replacement → x ≠ markChar := by
    rintro x (rfl | rfl) heq
    · rw [heq] at hc
      exact absurd hc (by decide)
    · exact absurd heq (by decide)
  obtain ⟨x, more, hread, hx⟩ := bodyText_of_prefix hc hbs hpre
  by_cases hs : s.head? = some markChar
  · -- the mark character at the front is dropped, and one other character would have to replace it
    obtain ⟨s, rfl⟩ := List.head?_eq_some_iff.mp hs
    rw [body_cons_markChar he, List.append_assoc, dropMark_mark, bodyText_append, hread]
    intro heq
    have hlength := congrArg List.length heq
    rw [List.length_append, List.length_cons, List.length_cons] at hlength
    obtain rfl : more = [] := List.eq_nil_of_length_eq_zero (by omega)
    exact hne x hx (eq_of_append_singleton_eq heq)
  · -- the bytes begin with no mark
    have hnomark : ∀ rest, e.body s ++ bs ≠ e.mark ++ rest := by
      intro rest hrest
      obtain ⟨after, hafter⟩ := hpre
      have hhead : (s ++ c :: z).head? ≠ some markChar := by
        cases s with
        | nil => exact fun h => hne c (Or.inl rfl) (Option.some.inj h)
        | cons c' s => exact hs
      refine body_ne_mark he hhead (rest ++ after) ?_
      rw [body_append, ← hafter, ← List.append_assoc, hrest, List.append_assoc]
    rw [dropMark_eq_self hnomark, bodyText_append, hread]
    intro heq
    have hlength := congrArg List.length heq
    rw [List.length_append, List.length_cons] at hlength
    omega

/-- The mark that was detected is at the front. -/
theorem mark_of_detect {e : Encoding} (he : e ≠ .utf8) {bs : List UInt8} (h : detect bs = e) :
    ∃ rest, bs = e.mark ++ rest := by
  unfold detect at h
  cases hfind : [utf8Marked, utf16Little, utf16Big].find? fun e => e.mark.isPrefixOf bs with
  | none =>
    rw [hfind] at h
    exact absurd h.symm he
  | some e' =>
    rw [hfind] at h
    obtain rfl : e' = e := h
    have hmark := List.find?_some hfind
    obtain ⟨rest, hrest⟩ := List.isPrefixOf_iff_prefix.mp hmark
    exact ⟨rest, hrest.symm⟩

end Encoding

namespace TextContent

open Encoding

/-- How a text was read: strictly, or under a mark. -/
theorem decode?_cases {bs : List UInt8} {content : TextContent} (h : decode? bs = some content) :
    content.encoding = .utf8 ∧ Utf8.decode? bs = some content.text ∨
      content.encoding ≠ .utf8 ∧ ∃ rest, bs = content.encoding.mark ++ rest ∧
        content.text = content.encoding.bodyText (content.encoding.dropMark rest) := by
  have hmarked : ∀ e, e ≠ .utf8 → detect bs = e →
      TextContent.mk (e.bodyText (e.dropMark (e.dropMark bs))) e = content →
      content.encoding = .utf8 ∧ Utf8.decode? bs = some content.text ∨
        content.encoding ≠ .utf8 ∧ ∃ rest, bs = content.encoding.mark ++ rest ∧
          content.text = content.encoding.bodyText (content.encoding.dropMark rest) := by
    rintro e he hdetect rfl
    obtain ⟨rest, rfl⟩ := mark_of_detect he hdetect
    exact Or.inr ⟨he, rest, rfl, by rw [dropMark_mark]⟩
  unfold decode? at h
  split at h
  · obtain ⟨s, hs, rfl⟩ := Option.map_eq_some_iff.mp h
    exact Or.inl ⟨rfl, hs⟩
  · next hdetect => exact hmarked _ hdetect rfl (Option.some.inj h)

/-- Without a mark, the bytes of the text are those that were read. -/
theorem encode_of_decode? {bs : List UInt8} {content : TextContent}
    (h : decode? bs = some content) (hencoding : content.encoding = .utf8) :
    content.encode = bs := by
  rcases decode?_cases h with ⟨-, hdecode⟩ | ⟨hmarked, -⟩
  · unfold encode
    rw [hencoding]
    exact Utf8.encode_of_decode? hdecode
  · exact absurd hencoding hmarked

/-- The content with text behind its own. -/
def extend (content : TextContent) (z : Text) : TextContent :=
  { content with text := content.text ++ z }

theorem encode_extend (content : TextContent) (z : Text) :
    (content.extend z).encode = content.encode ++ content.encoding.body z := by
  show content.encoding.mark ++ content.encoding.body (content.text ++ z) = _
  rw [body_append, ← List.append_assoc]
  rfl

/-- Where text was put behind a file, its old bytes are at the front exactly if they are at the front of
what was read of them. -/
theorem prefix_encode_iff {old : List UInt8} {content : TextContent}
    (h : decode? old = some content) {z : Text} (hz : ∀ c ∈ z.head?, c.toNat < 0x80) :
    old <+: (content.extend z).encode ↔ old <+: content.encode := by
  rw [encode_extend]
  refine ⟨fun hpre => ?_, fun hpre => hpre.trans (List.prefix_append ..)⟩
  rcases decode?_cases h with ⟨hutf8, -⟩ | ⟨hmarked, rest, rfl, htext⟩
  · exact ⟨[], by rw [List.append_nil, encode_of_decode? h hutf8]⟩
  · unfold encode at hpre ⊢
    rw [List.append_assoc, List.prefix_append_right_inj] at hpre
    rw [List.prefix_append_right_inj]
    rcases List.prefix_or_prefix_of_prefix hpre (List.prefix_append ..) with hshort | ⟨bs, rfl⟩
    · exact hshort
    · by_cases hbs : bs = []
      · exact ⟨[], by rw [hbs, List.append_nil, List.append_nil]⟩
      · -- the bytes behind would have been read as more text
        rw [List.prefix_append_right_inj] at hpre
        exact absurd htext.symm (bodyText_dropMark_ne hmarked hz hbs hpre)

end TextContent

end FirmwareIds
