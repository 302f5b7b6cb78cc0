import FirmwareIds.Text.Encoding
import Mathlib.Data.List.Basic

/-!
# Reading back what was written

A text comes back from its bytes in every encoding: `Utf8.decodeLossy_encode` and
`Utf16.decodeLossy_encode`. A text file comes back with its encoding too, unless its text begins
with the character that serves as the byte order mark. Then reading takes that character for a mark
and drops it, at most twice, and nothing else is lost: `TextContent.decode?_encode`. So a file comes
back as it was if and only if its text does not begin with that character:
`TextContent.decode?_encode_iff`.
-/

namespace FirmwareIds

theorem toNat_toUInt8 {n : Nat} (h : n < 256) : n.toUInt8.toNat = n := Nat.mod_eq_of_lt h

theorem toNat_toUInt16 {n : Nat} (h : n < 65536) : n.toUInt16.toNat = n := Nat.mod_eq_of_lt h

theorem eq_toNat_of_toUInt8 {n : Nat} {b : UInt8} (hn : n < 256) (h : n.toUInt8 = b) :
    n = b.toNat := by
  rw [← h, toNat_toUInt8 hn]

/-- A character is no surrogate and not above the last code point. -/
theorem toNat_valid (c : Char) : c.toNat < 0xD800 ∨ 0xDFFF < c.toNat ∧ c.toNat < 0x110000 :=
  c.valid

namespace Utf8

/-- A byte within the bounds is one that is owed. -/
theorem tails_cons {owed low high bits m : Nat} (hm : m < 256) (hlow : low ≤ m) (hhigh : m ≤ high)
    (bs : List UInt8) :
    tails (owed + 1) low high bits (m.toUInt8 :: bs) =
      tails owed 0x80 0xBF (bits * 64 + m % 64) bs := by
  rw [tails, toNat_toUInt8 hm, if_pos ⟨hlow, hhigh⟩]

theorem lead?_one {n : Nat} (h : n < 0x80) : lead? n.toUInt8 = some ⟨0, n, 0x80, 0xBF⟩ := by
  unfold lead?
  rw [toNat_toUInt8 (by omega)]
  exact if_pos h

theorem lead?_two {n : Nat} (hlow : 0x80 ≤ n) (hhigh : n < 0x800) :
    lead? (0xC0 + n / 64).toUInt8 = some ⟨1, n / 64, 0x80, 0xBF⟩ := by
  unfold lead?
  rw [toNat_toUInt8 (by omega)]
  have h₁ : ¬ 0xC0 + n / 64 < 0x80 := by omega
  have h₂ : ¬ 0xC0 + n / 64 < 0xC2 := by omega
  have h₃ : 0xC0 + n / 64 < 0xE0 := by omega
  simp only [if_neg h₁, if_neg h₂, if_pos h₃, Nat.add_sub_cancel_left]

/-- The first of three bytes. The narrowed ranges of the next byte hold of every character. -/
theorem lead?_three {n : Nat} (hlow : 0x800 ≤ n) (hhigh : n < 0x10000)
    (hvalid : n < 0xD800 ∨ 0xDFFF < n) :
    ∃ low high, lead? (0xE0 + n / 4096).toUInt8 = some ⟨2, n / 4096, low, high⟩ ∧
      low ≤ 0x80 + n / 64 % 64 ∧ 0x80 + n / 64 % 64 ≤ high := by
  unfold lead?
  rw [toNat_toUInt8 (by omega)]
  have h₁ : ¬ 0xE0 + n / 4096 < 0x80 := by omega
  have h₂ : ¬ 0xE0 + n / 4096 < 0xC2 := by omega
  have h₃ : ¬ 0xE0 + n / 4096 < 0xE0 := by omega
  simp only [if_neg h₁, if_neg h₂, if_neg h₃, Nat.add_sub_cancel_left]
  by_cases hzero : n / 4096 = 0
  · refine ⟨0xA0, 0xBF, ?_, by omega, by omega⟩
    rw [hzero]
    rfl
  · by_cases hthirteen : n / 4096 = 13
    · refine ⟨0x80, 0x9F, ?_, by omega, by omega⟩
      rw [hthirteen]
      rfl
    · refine ⟨0x80, 0xBF, ?_, by omega, by omega⟩
      rw [if_neg (by omega), if_neg (by omega), if_pos (by omega)]

/-- The first of four bytes. -/
theorem lead?_four {n : Nat} (hlow : 0x10000 ≤ n) (hhigh : n < 0x110000) :
    ∃ low high, lead? (0xF0 + n / 262144).toUInt8 = some ⟨3, n / 262144, low, high⟩ ∧
      low ≤ 0x80 + n / 4096 % 64 ∧ 0x80 + n / 4096 % 64 ≤ high := by
  unfold lead?
  rw [toNat_toUInt8 (by omega)]
  have h₁ : ¬ 0xF0 + n / 262144 < 0x80 := by omega
  have h₂ : ¬ 0xF0 + n / 262144 < 0xC2 := by omega
  have h₃ : ¬ 0xF0 + n / 262144 < 0xE0 := by omega
  have h₄ : ¬ 0xF0 + n / 262144 = 0xE0 := by omega
  have h₅ : ¬ 0xF0 + n / 262144 = 0xED := by omega
  have h₆ : ¬ 0xF0 + n / 262144 < 0xF0 := by omega
  simp only [if_neg h₁, if_neg h₂, if_neg h₃, if_neg h₄, if_neg h₅, if_neg h₆,
    Nat.add_sub_cancel_left]
  by_cases hzero : n / 262144 = 0
  · refine ⟨0x90, 0xBF, ?_, by omega, by omega⟩
    rw [hzero]
    rfl
  · by_cases hfour : n / 262144 = 4
    · refine ⟨0x80, 0x8F, ?_, by omega, by omega⟩
      rw [hfour]
      rfl
    · refine ⟨0x80, 0xBF, ?_, by omega, by omega⟩
      rw [if_neg (by omega), if_pos (by omega)]

theorem scan_go_cons {acc : List (Option Char)} {b : UInt8} {bs rest : List UInt8} {l : Lead}
    {n : Nat} (hl : lead? b = some l)
    (ht : tails l.owed l.low l.high l.bits bs = (some n, rest)) :
    scan.go acc (b :: bs) = scan.go (some (Char.ofNat n) :: acc) rest := by
  rw [scan.go, hl]
  simp only [ht, Option.map_some]

/-- The bytes of a character are scanned as that character. -/
theorem scan_go_encodeChar (acc : List (Option Char)) (c : Char) (bs : List UInt8) :
    scan.go acc (encodeChar c ++ bs) = scan.go (some c :: acc) bs := by
  have hc : Char.ofNat c.toNat = c := Char.ofNat_toNat c
  have hvalid := toNat_valid c
  unfold encodeChar
  generalize c.toNat = n at hc hvalid
  subst hc
  dsimp only
  split
  · next h => exact scan_go_cons (lead?_one h) rfl
  · split
    · next h₁ h₂ =>
      refine scan_go_cons (lead?_two (by omega) h₂) ?_
      show tails 1 0x80 0xBF (n / 64) ((0x80 + n % 64).toUInt8 :: bs) = _
      rw [tails_cons (by omega) (by omega) (by omega), tails]
      congr 2
      omega
    · split
      · next h₁ h₂ h₃ =>
        obtain ⟨low, high, hl, hlow, hhigh⟩ := lead?_three (by omega) h₃ (by omega)
        refine scan_go_cons hl ?_
        show tails 2 low high (n / 4096)
          ((0x80 + n / 64 % 64).toUInt8 :: (0x80 + n % 64).toUInt8 :: bs) = _
        rw [tails_cons (by omega) hlow hhigh, tails_cons (by omega) (by omega) (by omega), tails]
        congr 2
        omega
      · next h₁ h₂ h₃ =>
        obtain ⟨low, high, hl, hlow, hhigh⟩ := lead?_four (n := n) (by omega) (by omega)
        refine scan_go_cons hl ?_
        show tails 3 low high (n / 262144) ((0x80 + n / 4096 % 64).toUInt8 ::
          (0x80 + n / 64 % 64).toUInt8 :: (0x80 + n % 64).toUInt8 :: bs) = _
        rw [tails_cons (by omega) hlow hhigh, tails_cons (by omega) (by omega) (by omega),
          tails_cons (by omega) (by omega) (by omega), tails]
        congr 2
        omega

@[simp] theorem scan_nil : scan [] = [] := by
  unfold scan
  rw [scan.go]
  rfl

/-- What was scanned so far does not matter to what follows. -/
theorem scan_go_append (acc before : List (Option Char)) (bs : List UInt8) :
    scan.go (acc ++ before) bs = before.reverse ++ scan.go acc bs := by
  fun_induction scan.go acc bs with
  | case1 acc => rw [scan.go, List.reverse_append]
  | case2 acc b bs hlead ih => rw [scan.go, hlead, ← ih]; rfl
  | case3 acc b bs l hlead ih => rw [scan.go, hlead, ← ih]; rfl

theorem scan_go_eq (acc : List (Option Char)) (bs : List UInt8) :
    scan.go acc bs = acc.reverse ++ scan bs :=
  scan_go_append [] acc bs

/-- The bytes of a text are scanned as that text, and what is behind them as if it stood alone. -/
theorem scan_encode_append (s : Text) (bs : List UInt8) :
    scan (encode s ++ bs) = s.map some ++ scan bs := by
  induction s with
  | nil => rfl
  | cons c s ih =>
    rw [encode_cons, List.append_assoc, scan, scan_go_encodeChar, scan_go_eq, ih]
    rfl

theorem scan_encode (s : Text) : scan (encode s) = s.map some := by
  have h := scan_encode_append s []
  rwa [List.append_nil, scan_nil, List.append_nil] at h

/-- A text comes back from its bytes. -/
theorem decodeLossy_encode (s : Text) : decodeLossy (encode s) = s := by
  unfold decodeLossy
  rw [scan_encode, List.map_map]
  exact List.map_id s

theorem decode?_encode (s : Text) : decode? (encode s) = some s := by
  unfold decode?
  rw [decodeLossy_encode, scan_encode, if_pos]
  simp

end Utf8

namespace Utf16

/-- The two bytes of a unit make it again. -/
theorem bytes_eq (o : ByteOrder) (u : UInt16) : ∃ a b, o.bytes u = [a, b] ∧ o.unit a b = u := by
  have hlt := u.toNat_lt
  have hlow : (u.toNat % 256).toUInt8.toNat = u.toNat % 256 := toNat_toUInt8 (by omega)
  have hhigh : (u.toNat / 256).toUInt8.toNat = u.toNat / 256 := toNat_toUInt8 (by omega)
  have hsum : (u.toNat % 256 + 256 * (u.toNat / 256)).toUInt16 = u := by
    rw [Nat.mod_add_div]
    exact UInt16.ofNat_toNat
  cases o with
  | little =>
    refine ⟨_, _, rfl, ?_⟩
    unfold ByteOrder.unit
    simp only [hlow, hhigh, hsum]
  | big =>
    refine ⟨_, _, rfl, ?_⟩
    unfold ByteOrder.unit
    simp only [hlow, hhigh]
    rw [Nat.add_comm, hsum]

theorem unit_bytes (o : ByteOrder) (u : UInt16) (bs : List UInt8) (acc : List UInt16) :
    unitsOfBytes.go o acc (o.bytes u ++ bs) = unitsOfBytes.go o (u :: acc) bs := by
  obtain ⟨a, b, hbytes, hunit⟩ := bytes_eq o u
  rw [hbytes]
  show unitsOfBytes.go o (o.unit a b :: acc) bs = _
  rw [hunit]

/-- The bytes of units give these units, and what is behind them gives what it gives alone. -/
theorem unitsOfBytes_append (o : ByteOrder) (us : List UInt16) (bs : List UInt8) :
    unitsOfBytes o (us.flatMap o.bytes ++ bs) =
      (us ++ (unitsOfBytes o bs).1, (unitsOfBytes o bs).2) := by
  have hgo : ∀ acc before : List UInt16, unitsOfBytes.go o (acc ++ before) bs =
      (before.reverse ++ (unitsOfBytes.go o acc bs).1, (unitsOfBytes.go o acc bs).2) := by
    intro acc before
    fun_induction unitsOfBytes.go o acc bs with
    | case1 acc a b bs ih => rw [unitsOfBytes.go, ← ih]; rfl
    | case2 acc b => rw [unitsOfBytes.go, List.reverse_append]
    | case3 acc => rw [unitsOfBytes.go, List.reverse_append]
  have hall : ∀ acc, unitsOfBytes.go o acc (us.flatMap o.bytes ++ bs) =
      (acc.reverse ++ us ++ (unitsOfBytes o bs).1, (unitsOfBytes o bs).2) := by
    induction us with
    | nil => intro acc; rw [List.append_nil]; exact hgo [] acc
    | cons u us ih =>
      intro acc
      rw [List.flatMap_cons, List.append_assoc, unit_bytes, ih, List.reverse_cons]
      simp
  exact hall []

theorem isHigh_iff {u : UInt16} : isHigh u = true ↔ 0xD800 ≤ u.toNat ∧ u.toNat < 0xDC00 := by
  rw [isHigh, Bool.and_eq_true, decide_eq_true_eq, decide_eq_true_eq]

theorem isLow_iff {u : UInt16} : isLow u = true ↔ 0xDC00 ≤ u.toNat ∧ u.toNat < 0xE000 := by
  rw [isLow, Bool.and_eq_true, decide_eq_true_eq, decide_eq_true_eq]

/-- A unit that is a number beyond the surrogates is neither of them. -/
theorem not_surrogate {u : UInt16} (h : u.toNat < 0xD800 ∨ 0xDFFF < u.toNat) :
    isHigh u = false ∧ isLow u = false := by
  rw [← Bool.not_eq_true, ← Bool.not_eq_true, isHigh_iff, isLow_iff]
  omega

/-- A character is one unit that is no surrogate, or a pair of surrogates. -/
theorem unitsOfChar_eq (c : Char) :
    (∃ u, unitsOfChar c = [u] ∧ isHigh u = false ∧ isLow u = false ∧ Char.ofNat u.toNat = c) ∨
      ∃ u v, unitsOfChar c = [u, v] ∧ isHigh u = true ∧ isLow v = true ∧ charOfPair u v = c := by
  have hc : Char.ofNat c.toNat = c := Char.ofNat_toNat c
  have hvalid := toNat_valid c
  unfold unitsOfChar
  generalize c.toNat = n at hc hvalid
  subst hc
  dsimp only
  split
  · next h =>
    have hn : n.toUInt16.toNat = n := toNat_toUInt16 h
    obtain ⟨hhigh, hlow⟩ := not_surrogate (u := n.toUInt16) (by omega)
    exact Or.inl ⟨_, rfl, hhigh, hlow, by rw [hn]⟩
  · next h =>
    have hfirst : (0xD800 + (n - 0x10000) / 1024).toUInt16.toNat = 0xD800 + (n - 0x10000) / 1024 :=
      toNat_toUInt16 (by omega)
    have hsecond : (0xDC00 + (n - 0x10000) % 1024).toUInt16.toNat =
        0xDC00 + (n - 0x10000) % 1024 := toNat_toUInt16 (by omega)
    refine Or.inr ⟨_, _, rfl, isHigh_iff.mpr (by omega), isLow_iff.mpr (by omega), ?_⟩
    have hsum : 0x10000 + (0xD800 + (n - 0x10000) / 1024 - 0xD800) * 1024 +
        (0xDC00 + (n - 0x10000) % 1024 - 0xDC00) = n := by omega
    unfold charOfPair
    rw [hfirst, hsecond, hsum]

/-- The units of a character are scanned as that character. -/
theorem scanUnits_go_unitsOfChar (odd : Bool) (acc : List (Option Char)) (c : Char) (us : List UInt16) :
    scanUnits.go odd acc (unitsOfChar c ++ us) = scanUnits.go odd (some c :: acc) us := by
  rcases unitsOfChar_eq c with ⟨u, hu, hhigh, hlow, hc⟩ | ⟨u, v, hu, hhigh, hlow, hc⟩
  · rw [hu, List.singleton_append, scanUnits.go.eq_def]
    simp only [hhigh, hlow, hc, Bool.false_eq_true, if_false]
  · rw [hu, List.cons_append, List.singleton_append, scanUnits.go, hhigh]
    simp only [if_true, hlow, hc]

/-- The units of a text are scanned as that text, and what is behind them as if it stood alone. -/
theorem scanUnits_append (odd : Bool) (s : Text) (us : List UInt16) :
    scanUnits odd (units s ++ us) = s.map some ++ scanUnits odd us := by
  have hgo : ∀ acc before : List (Option Char), scanUnits.go odd (acc ++ before) us =
      before.reverse ++ scanUnits.go odd acc us := by
    intro acc before
    fun_induction scanUnits.go odd acc us with
    | case1 acc hodd => rw [scanUnits.go, if_pos hodd]; simp
    | case2 acc hodd => rw [scanUnits.go, if_neg hodd, List.reverse_append]
    | case3 acc u hhigh => rw [scanUnits.go, if_pos hhigh]; simp
    | case4 acc u hhigh v rest hlow ih => rw [scanUnits.go, if_pos hhigh, if_pos hlow, ← ih]; rfl
    | case5 acc u hhigh v rest hlow ih => rw [scanUnits.go, if_pos hhigh, if_neg hlow, ← ih]; rfl
    | case6 acc u us hhigh hlow ih =>
      rw [scanUnits.go.eq_def]
      simp only [if_neg hhigh, if_pos hlow]
      exact ih
    | case7 acc u us hhigh hlow ih =>
      rw [scanUnits.go.eq_def]
      simp only [if_neg hhigh, if_neg hlow]
      exact ih
  have hall : ∀ acc, scanUnits.go odd acc (units s ++ us) =
      acc.reverse ++ s.map some ++ scanUnits odd us := by
    induction s with
    | nil => intro acc; rw [List.map_nil, List.append_nil]; exact hgo [] acc
    | cons c s ih =>
      intro acc
      rw [show units (c :: s) = unitsOfChar c ++ units s from rfl, List.append_assoc,
        scanUnits_go_unitsOfChar, ih, List.reverse_cons]
      simp
  exact hall []

theorem scan_encode_append (o : ByteOrder) (s : Text) (bs : List UInt8) :
    scan o (encode o s ++ bs) = s.map some ++ scan o bs := by
  unfold scan encode
  rw [unitsOfBytes_append, scanUnits_append]

/-- A text comes back from its bytes in either order. -/
theorem decodeLossy_encode (o : ByteOrder) (s : Text) : decodeLossy o (encode o s) = s := by
  have h := scan_encode_append o s []
  rw [List.append_nil, show scan o [] = [] from rfl, List.append_nil] at h
  unfold decodeLossy
  rw [h, List.map_map]
  exact List.map_id s

end Utf16

namespace Encoding

/-- The bytes of a text are read as that text, and what is behind them as if it stood alone. -/
theorem bodyText_append (e : Encoding) (s : Text) (bs : List UInt8) :
    e.bodyText (e.body s ++ bs) = s ++ e.bodyText bs := by
  have hmap : ∀ l : List (Option Char), (s.map some ++ l).map (·.getD Utf8.replacement) =
      s ++ l.map (·.getD Utf8.replacement) := fun l => by
    rw [List.map_append, List.map_map]
    exact congrArg (· ++ _) (List.map_id s)
  cases e with
  | utf8 | utf8Marked =>
    exact (congrArg (List.map _) (Utf8.scan_encode_append s bs)).trans (hmap _)
  | utf16Little =>
    exact (congrArg (List.map _) (Utf16.scan_encode_append .little s bs)).trans (hmap _)
  | utf16Big =>
    exact (congrArg (List.map _) (Utf16.scan_encode_append .big s bs)).trans (hmap _)

@[simp] theorem bodyText_nil (e : Encoding) : e.bodyText [] = [] := by
  cases e with
  | utf8 | utf8Marked => exact congrArg (List.map _) Utf8.scan_nil
  | utf16Little | utf16Big => rfl

theorem bodyText_body (e : Encoding) (s : Text) : e.bodyText (e.body s) = s := by
  have h := e.bodyText_append s []
  rwa [bodyText_nil, List.append_nil, List.append_nil] at h

/-- The character whose bytes are the byte order mark. -/
def markChar : Char := '\ufeff'

theorem dropMark_mark (e : Encoding) (bs : List UInt8) : e.dropMark (e.mark ++ bs) = bs := by
  cases e <;> rfl

theorem dropMark_eq_self {e : Encoding} {bs : List UInt8} (h : ∀ rest, bs ≠ e.mark ++ rest) :
    e.dropMark bs = bs := by
  unfold dropMark
  cases hp : e.mark.isPrefixOf? bs with
  | none => rfl
  | some rest => exact absurd (List.append_eq_of_isPrefixOf?_eq_some hp).symm (h rest)

theorem body_cons_markChar {e : Encoding} (he : e ≠ .utf8) (s : Text) :
    e.body (markChar :: s) = e.mark ++ e.body s := by
  cases e with
  | utf8 => exact absurd rfl he
  | utf8Marked => rfl
  | utf16Little => rfl
  | utf16Big => rfl

theorem detect_mark {e : Encoding} (he : e ≠ .utf8) (bs : List UInt8) :
    detect (e.mark ++ bs) = e := by
  cases e with
  | utf8 => exact absurd rfl he
  | utf8Marked => rfl
  | utf16Little => rfl
  | utf16Big => rfl

theorem utf8_eq_mark {c : Char} {bs rest : List UInt8}
    (h : Utf8.encodeChar c ++ bs = 0xEF :: 0xBB :: 0xBF :: rest) : c = markChar := by
  have hvalid := toNat_valid c
  refine Char.toNat_inj.mp (show c.toNat = 0xFEFF from ?_)
  unfold Utf8.encodeChar at h
  generalize c.toNat = n at h hvalid
  dsimp only at h
  split at h
  · have h₁ : n = 0xEF := eq_toNat_of_toUInt8 (by omega) (List.cons.inj h).1
    omega
  · split at h
    · have h₁ : 0xC0 + n / 64 = 0xEF := eq_toNat_of_toUInt8 (by omega) (List.cons.inj h).1
      omega
    · split at h
      · obtain ⟨h₁, h⟩ := List.cons.inj h
        obtain ⟨h₂, h⟩ := List.cons.inj h
        have e₁ : 0xE0 + n / 4096 = 0xEF := eq_toNat_of_toUInt8 (by omega) h₁
        have e₂ : 0x80 + n / 64 % 64 = 0xBB := eq_toNat_of_toUInt8 (by omega) h₂
        have e₃ : 0x80 + n % 64 = 0xBF := eq_toNat_of_toUInt8 (by omega) (List.cons.inj h).1
        omega
      · have h₁ : 0xF0 + n / 262144 = 0xEF := eq_toNat_of_toUInt8 (by omega) (List.cons.inj h).1
        omega

/-- No character of UTF-8 begins with a byte of the other marks. -/
theorem utf8_ne_mark {c : Char} {bs rest : List UInt8} {b : UInt8} (hb : 0xF5 ≤ b.toNat) :
    Utf8.encodeChar c ++ bs ≠ b :: rest := by
  intro h
  have hvalid := toNat_valid c
  unfold Utf8.encodeChar at h
  generalize c.toNat = n at h hvalid
  dsimp only at h
  split at h
  · have := eq_toNat_of_toUInt8 (by omega) (List.cons.inj h).1
    omega
  · split at h
    · have := eq_toNat_of_toUInt8 (by omega) (List.cons.inj h).1
      omega
    · split at h
      · have := eq_toNat_of_toUInt8 (by omega) (List.cons.inj h).1
        omega
      · have := eq_toNat_of_toUInt8 (by omega) (List.cons.inj h).1
        omega

/-- The first unit of a character, which is that of the mark for no other character. -/
theorem unitsOfChar_cases (c : Char) :
    ∃ u us, Utf16.unitsOfChar c = u :: us ∧ (u.toNat = 0xFEFF → c = markChar) := by
  have hvalid := toNat_valid c
  have hc : c.toNat = 0xFEFF → c = markChar := fun h => Char.toNat_inj.mp h
  unfold Utf16.unitsOfChar
  generalize c.toNat = n at hvalid hc
  dsimp only
  split
  · next hn =>
    refine ⟨_, _, rfl, fun hu => hc ?_⟩
    rwa [toNat_toUInt16 hn] at hu
  · refine ⟨_, _, rfl, fun hu => ?_⟩
    rw [toNat_toUInt16 (by omega)] at hu
    omega

/-- Only the character of the mark begins with the bytes of the mark. -/
theorem eq_markChar_of_body {e : Encoding} (he : e ≠ .utf8) {c : Char} {s : Text}
    {rest : List UInt8} (h : e.body (c :: s) = e.mark ++ rest) : c = markChar := by
  obtain ⟨u, us, hunits, hmark⟩ := unitsOfChar_cases c
  have hbytes : ∀ o, Utf16.encode o (c :: s) = o.bytes u ++ (us ++ Utf16.units s).flatMap o.bytes := by
    intro o
    show (Utf16.unitsOfChar c ++ Utf16.units s).flatMap o.bytes = _
    rw [hunits, List.cons_append, List.flatMap_cons]
  have hlt := u.toNat_lt
  cases e with
  | utf8 => exact absurd rfl he
  | utf8Marked => exact utf8_eq_mark h
  | utf16Little =>
    change Utf16.encode .little (c :: s) = 0xFF :: 0xFE :: rest at h
    rw [hbytes] at h
    obtain ⟨h₁, h⟩ := List.cons.inj h
    have e₁ : u.toNat % 256 = 0xFF := eq_toNat_of_toUInt8 (by omega) h₁
    have e₂ : u.toNat / 256 = 0xFE := eq_toNat_of_toUInt8 (by omega) (List.cons.inj h).1
    exact hmark (by omega)
  | utf16Big =>
    change Utf16.encode .big (c :: s) = 0xFE :: 0xFF :: rest at h
    rw [hbytes] at h
    obtain ⟨h₁, h⟩ := List.cons.inj h
    have e₁ : u.toNat / 256 = 0xFE := eq_toNat_of_toUInt8 (by omega) h₁
    have e₂ : u.toNat % 256 = 0xFF := eq_toNat_of_toUInt8 (by omega) (List.cons.inj h).1
    exact hmark (by omega)

/-- A text without the mark at its front has none in its bytes. -/
theorem body_ne_mark {e : Encoding} (he : e ≠ .utf8) {s : Text} (hs : s.head? ≠ some markChar)
    (rest : List UInt8) : e.body s ≠ e.mark ++ rest := by
  intro h
  cases s with
  | nil =>
    cases e with
    | utf8 => exact absurd rfl he
    | utf8Marked => cases h
    | utf16Little => cases h
    | utf16Big => cases h
  | cons c s => exact hs (congrArg some (eq_markChar_of_body he h))

/-- Dropping the mark from the bytes of a text drops one mark character at most. -/
theorem dropMark_body {e : Encoding} (he : e ≠ .utf8) (s : Text) :
    ∃ t, e.dropMark (e.body s) = e.body t ∧ (s = t ∨ s = markChar :: t) ∧
      (s.head? ≠ some markChar → s = t) := by
  by_cases hs : s.head? = some markChar
  · obtain ⟨t, rfl⟩ := List.head?_eq_some_iff.mp hs
    refine ⟨t, ?_, Or.inr rfl, fun h => absurd hs h⟩
    rw [body_cons_markChar he, dropMark_mark]
  · exact ⟨s, dropMark_eq_self (body_ne_mark he hs), Or.inl rfl, fun _ => rfl⟩

/-- Bytes without a mark are UTF-8 or nothing. -/
theorem detect_of_no_mark {bs : List UInt8} (h : ∀ e, e ≠ utf8 → ¬ e.mark <+: bs) :
    detect bs = .utf8 := by
  have hnone : ∀ e ∈ [utf8Marked, utf16Little, utf16Big], ¬ e.mark.isPrefixOf bs = true := by
    intro e he hp
    refine h e (fun hutf8 => ?_) (List.isPrefixOf_iff_prefix.mp hp)
    rw [hutf8] at he
    exact absurd he (by decide)
  unfold detect
  rw [List.find?_eq_none.mpr hnone]
  rfl

/-- Bytes of UTF-8 announce a mark only if the text begins with its character. -/
theorem detect_utf8 {s : Text} (hs : s.head? ≠ some markChar) :
    detect (Utf8.encode s) = .utf8 := by
  refine detect_of_no_mark fun e he hp => ?_
  obtain ⟨rest, hrest⟩ := hp
  cases e with
  | utf8 => exact he rfl
  | utf8Marked => exact body_ne_mark (e := .utf8Marked) nofun hs rest hrest.symm
  | utf16Little | utf16Big =>
    cases s with
    | nil => cases hrest
    | cons c s => exact utf8_ne_mark (by decide) hrest.symm

end Encoding

namespace TextContent

open Encoding

/-- Behind a mark nothing is refused, and one more mark is dropped. -/
theorem decode?_mark_append {e : Encoding} (he : e ≠ .utf8) (bs : List UInt8) :
    decode? (e.mark ++ bs) = some ⟨e.bodyText (e.dropMark bs), e⟩ := by
  unfold decode?
  rw [detect_mark he]
  cases e with
  | utf8 => exact absurd rfl he
  | utf8Marked | utf16Little | utf16Big =>
    dsimp only
    rw [dropMark_mark]

theorem decode?_marked {e : Encoding} (he : e ≠ .utf8) (s : Text) :
    ∃ t, decode? (e.mark ++ e.body s) = some ⟨t, e⟩ ∧ (s = t ∨ s = markChar :: t) ∧
      (s.head? ≠ some markChar → s = t) := by
  obtain ⟨t, ht, hst, hhead⟩ := dropMark_body he s
  refine ⟨t, ?_, hst, hhead⟩
  rw [decode?_mark_append he, ht, bodyText_body]

theorem decode?_utf8 {s : Text} (hs : s.head? ≠ some markChar) :
    decode? (Utf8.encode s) = some ⟨s, .utf8⟩ := by
  unfold decode?
  rw [detect_utf8 hs]
  show (Utf8.decode? (Utf8.encode s)).map _ = _
  rw [Utf8.decode?_encode]
  rfl

/-- A text file comes back as it was written, if its text does not begin with the character of the
mark. -/
theorem decode?_encode_of_head {c : TextContent} (hc : c.text.head? ≠ some markChar) :
    decode? c.encode = some c := by
  obtain ⟨s, e⟩ := c
  by_cases he : e = .utf8
  · subst he
    exact decode?_utf8 hc
  · obtain ⟨t, ht, -, hst⟩ := decode?_marked he s
    rw [hst hc] at ht ⊢
    exact ht

/-- A text that begins with the character of the mark comes back without it, or in another encoding. -/
theorem decode?_encode_ne {c : TextContent} (hc : c.text.head? = some markChar) :
    decode? c.encode ≠ some c := by
  obtain ⟨s, e⟩ := c
  obtain ⟨s, rfl⟩ := List.head?_eq_some_iff.mp hc
  intro h
  by_cases he : e = .utf8
  · subst he
    change decode? (mark .utf8Marked ++ Utf8.encode s) = _ at h
    rw [decode?_mark_append (e := .utf8Marked) nofun] at h
    exact nomatch congrArg encoding (Option.some.inj h)
  · change decode? (e.mark ++ e.body (markChar :: s)) = _ at h
    rw [body_cons_markChar he, decode?_mark_append he, dropMark_mark, bodyText_body] at h
    have htext : s = markChar :: s := congrArg text (Option.some.inj h)
    exact absurd htext (List.cons_ne_self _ _).symm

/-- The encoding of a text file shows in its bytes, unless its text begins with the character of the mark
and is held without one. -/
theorem detect_encode_iff (c : TextContent) :
    detect c.encode = c.encoding ↔ (c.encoding = .utf8 → c.text.head? ≠ some markChar) := by
  obtain ⟨s, e⟩ := c
  by_cases he : e = .utf8
  · subst he
    refine ⟨fun h _ hs => ?_, fun h => detect_utf8 (h rfl)⟩
    obtain ⟨s, rfl⟩ := List.head?_eq_some_iff.mp hs
    have hmark : detect (mark .utf8Marked ++ Utf8.encode s) = .utf8Marked :=
      detect_mark (e := .utf8Marked) nofun _
    exact nomatch hmark.symm.trans h
  · exact ⟨fun _ hutf8 => absurd hutf8 he, fun _ => detect_mark he _⟩

/-- Reading undoes writing, in each encoding, for exactly the texts that do not begin with the character of
the mark. -/
theorem decode?_encode_iff (c : TextContent) :
    (decode? c.encode = some c ↔ c.text.head? ≠ some markChar) ∧
      (detect c.encode = c.encoding ↔ (c.encoding = .utf8 → c.text.head? ≠ some markChar)) :=
  ⟨⟨fun h hc => decode?_encode_ne hc h, decode?_encode_of_head⟩, detect_encode_iff c⟩

/-- A text file comes back with all its characters, but for mark characters at its front. -/
theorem decode?_encode (c : TextContent) :
    ∃ marks t e, c.text = marks ++ t ∧ (∀ x ∈ marks, x = markChar) ∧
      decode? c.encode = some ⟨t, e⟩ := by
  obtain ⟨s, e⟩ := c
  by_cases he : e = .utf8
  · subst he
    by_cases hs : s.head? = some markChar
    · -- the character at the front is read as the mark of another encoding
      obtain ⟨s, rfl⟩ := List.head?_eq_some_iff.mp hs
      obtain ⟨t, ht, hst, -⟩ := decode?_marked (e := .utf8Marked) nofun s
      rcases hst with rfl | rfl
      · exact ⟨[markChar], s, .utf8Marked, rfl, by simp, ht⟩
      · exact ⟨[markChar, markChar], t, .utf8Marked, rfl, by simp, ht⟩
    · exact ⟨[], s, .utf8, rfl, nofun, decode?_utf8 hs⟩
  · obtain ⟨t, ht, hst, -⟩ := decode?_marked he s
    rcases hst with rfl | rfl
    · exact ⟨[], s, e, rfl, nofun, ht⟩
    · exact ⟨[markChar], t, e, rfl, by simp, ht⟩

end TextContent

end FirmwareIds
