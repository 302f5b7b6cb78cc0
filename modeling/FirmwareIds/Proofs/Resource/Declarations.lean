import FirmwareIds.Proofs.Text.LineStarts
import FirmwareIds.Proofs.Text.Reading
import FirmwareIds.Resource.Grammar

/-!
# Declarations in string resources

Definitions, definition lines and blocks all begin with the word `#string`, and none of them holds
another line that begins with it: `declares_definition`, `declares_definitionLine` and
`declares_block`. So the cuttings along these three patterns are read off the line starts of a
text.

A definition is closed as well: it ends at its closing quotation mark, and no text behind it makes
it longer or shorter. A definition line and a block are not. The one goes on to the last quotation
mark of its line, the other takes all variants that follow.
-/

namespace FirmwareIds.Resource

open Pattern

theorem isBlank_of_isWordChar {c : Char} (h : isWordChar c = true) : isBlank c = false := by
  have := isGap_of_isWordChar h
  unfold isGap at this
  simp only [Bool.or_eq_false_iff] at this
  exact this.1.1

theorem isWordChar_of_isGap {c : Char} (h : isGap c = true) : isWordChar c = false := by
  rw [Bool.eq_false_iff]
  intro hw
  rw [isGap_of_isWordChar hw] at h
  cases h

theorem isBlank_of_isTagChar {c : Char} (h : isTagChar c = true) : isBlank c = false := by
  rw [Bool.eq_false_iff]
  intro hb
  simp only [isBlank, Bool.or_eq_true, beq_iff_eq] at hb
  rcases hb with rfl | rfl <;> exact absurd h (by decide)

theorem isGap_of_isBlank {c : Char} (h : isBlank c = true) : isGap c = true := by
  unfold isGap
  rw [h]
  rfl

/-! ## The front of a definition -/

/-- The front of a definition in its parts. -/
structure DefinitionHead where
  /-- The blanks before the identifier. -/
  before : RunOf isBlank
  identifier : RunOf isWordChar
  /-- The blanks behind the identifier. -/
  behind : RunOf isBlank
  /-- The blanks before the language. -/
  inner : RunOf isBlank
  /-- The gap between the language and the quotation mark. -/
  gap : RunOf isGap

namespace DefinitionHead

/-- The parts put together, without the word that all declarations begin with. -/
def body (w : DefinitionHead) : Text :=
  w.before.text ++ (w.identifier.text ++ (w.behind.text ++ ("#language".toList ++
    (w.inner.text ++ ("uqi".toList ++ (w.gap.text ++ ['"']))))))

/-- The front of the definition. -/
def text (w : DefinitionHead) : Text := declarationWord ++ w.body

theorem read_append (w : DefinitionHead) (z : Text) :
    definitionHead.read (w.text ++ z) = some ⟨w.identifier.text, w.text, z⟩ := by
  have h : definitionHead.read (w.text ++ z) =
      some ⟨w.identifier.text, declarationWord ++ (w.before.text ++ (w.identifier.text ++
        (w.behind.text ++ ("#language".toList ++ (w.inner.text ++ ("uqi".toList ++
          (w.gap.text ++ (['"'] ++ [])))))))), z⟩ := by
    simp only [text, body, List.append_assoc]
    refine read_bind_of (read_word_append _ _) ?_
    refine read_bind_of (read_many1_append w.before ?_) ?_
    · exact endsRun_of_run w.identifier (fun c => isBlank_of_isWordChar) _
    refine read_bind_of (read_many1_append w.identifier ?_) ?_
    · exact endsRun_of_run w.behind (fun c h => isWordChar_of_isGap (isGap_of_isBlank h)) _
    refine read_bind_of (read_many1_append w.behind (endsRun_cons (by decide) _)) ?_
    refine read_bind_of (read_word_append _ _) ?_
    refine read_bind_of (read_many1_append w.inner (endsRun_cons (by decide) _)) ?_
    refine read_bind_of (read_word_append _ _) ?_
    refine read_bind_of (read_many1_append w.gap (endsRun_cons (by decide) _)) ?_
    exact read_bind_of (read_word_append ['"'] z) (read_pure _ _)
  exact h

/-- Nothing in the front of a definition looks like another declaration, and it ends within a
line. -/
theorem quiet_body (w : DefinitionHead) : Quiet false w.body ∧ freshAfter false w.body = false := by
  have hfront : '\n' ∉ w.before.text ++ (w.identifier.text ++ (w.behind.text ++
      ("#language".toList ++ (w.inner.text ++ "uqi".toList)))) := by
    simp [w.before.not_mem (c := '\n') (by decide), w.identifier.not_mem (c := '\n') (by decide),
      w.behind.not_mem (c := '\n') (by decide), w.inner.not_mem (c := '\n') (by decide)]
  have hback : '#' ∉ w.gap.text ++ ['"'] := by
    simp [w.gap.not_mem (c := '#') (by decide)]
  have hbody : w.body = (w.before.text ++ (w.identifier.text ++ (w.behind.text ++
      ("#language".toList ++ (w.inner.text ++ "uqi".toList))))) ++ (w.gap.text ++ ['"']) := by
    simp only [body, List.append_assoc]
  rw [hbody]
  refine ⟨quiet_append (quiet_of_not_mem hfront) (quiet_of_hash_not_mem hback), ?_⟩
  rw [freshAfter_append, freshAfter_append]
  rfl

end DefinitionHead

theorem read_definitionHead_inv {s : Text} {r : Reading Text} (h : definitionHead.read s = some r) :
    ∃ w : DefinitionHead, s = w.text ++ r.rest ∧ r = ⟨w.identifier.text, w.text, r.rest⟩ := by
  obtain ⟨_, _, rfl, h, htaken⟩ := read_word_bind_inv h
  obtain ⟨before, _, _, rfl, -, h, rfl⟩ := read_many1_bind_inv h
  obtain ⟨identifier, _, _, rfl, -, h, rfl⟩ := read_many1_bind_inv h
  obtain ⟨behind, _, _, rfl, -, h, rfl⟩ := read_many1_bind_inv h
  obtain ⟨_, _, rfl, h, rfl⟩ := read_word_bind_inv h
  obtain ⟨inner, _, _, rfl, -, h, rfl⟩ := read_many1_bind_inv h
  obtain ⟨_, _, rfl, h, rfl⟩ := read_word_bind_inv h
  obtain ⟨gap, _, _, rfl, -, h, rfl⟩ := read_many1_bind_inv h
  obtain ⟨_, _, rfl, h, rfl⟩ := read_word_bind_inv h
  obtain ⟨note, taken, rest⟩ := r
  cases h
  refine ⟨⟨before, identifier, behind, inner, gap⟩, ?_, ?_⟩
  · simp only [DefinitionHead.text, DefinitionHead.body, List.append_assoc]
    rfl
  · rw [show taken = _ from htaken, List.append_nil]
    rfl

/-! ## Definitions -/

theorem read_codeValue_append {lead digits : Text} (hlead : ∀ c ∈ lead, (!isWhite c) = true)
    (hdigits : ∀ c ∈ digits, isHexDigit c = true) (z : Text) :
    (codeValue lead.length digits.length).read (lead ++ (digits ++ '"' :: z)) =
      some ⟨(lead, digits), lead ++ (digits ++ ['"']), z⟩ := by
  refine read_bind_of (read_exactly_append hlead rfl _) ?_
  refine read_bind_of (read_exactly_append hdigits rfl _) ?_
  exact read_bind_of (read_word_append ['"'] z) (read_pure _ _)

theorem read_codeValue_inv {leads count : Nat} {s : Text} {r : Reading (Text × Text)}
    (h : (codeValue leads count).read s = some r) :
    ∃ lead digits, lead.length = leads ∧ digits.length = count ∧
      (∀ c ∈ lead, (!isWhite c) = true) ∧ (∀ c ∈ digits, isHexDigit c = true) ∧
      s = lead ++ (digits ++ '"' :: r.rest) ∧
      r = ⟨(lead, digits), lead ++ (digits ++ ['"']), r.rest⟩ := by
  obtain ⟨lead, _, _, rfl, hlead, hleads, h, htaken⟩ := read_exactly_bind_inv h
  obtain ⟨digits, _, _, rfl, hdigits, hcount, h, rfl⟩ := read_exactly_bind_inv h
  obtain ⟨_, _, rfl, h, rfl⟩ := read_word_bind_inv h
  obtain ⟨note, taken, rest⟩ := r
  cases h
  refine ⟨lead, digits, hleads, hcount, hlead, hdigits, rfl, ?_⟩
  rw [show taken = _ from htaken, List.append_nil]

theorem closed_codeValue (leads count : Nat) : (codeValue leads count).Closed := by
  intro s r h z
  obtain ⟨lead, digits, rfl, rfl, hlead, hdigits, -, hr⟩ := read_codeValue_inv h
  rw [hr, List.append_assoc, List.append_assoc]
  exact read_codeValue_append hlead hdigits z

/-- A form of the value that was refused is not read later either: the closing quotation mark of
the form that was read stands where it wants a digit, or behind all that it wants. -/
theorem yieldsTo_codeValue {leads count leads' count' : Nat} (hlead : leads' ≤ leads + count) :
    (codeValue leads' count').YieldsTo (codeValue leads count) := by
  intro s r h hnone z
  rw [Option.eq_none_iff_forall_ne_some]
  intro r' h'
  have hs := (codeValue leads count).taken_append_rest h
  have hs' := (codeValue leads' count').taken_append_rest h'
  have hp : r.taken <+: r.taken ++ z := List.prefix_append ..
  have hp' : r'.taken <+: r.taken ++ z := ⟨_, hs'⟩
  rcases Nat.lt_or_ge r.taken.length r'.taken.length with hlen | hlen
  · obtain ⟨u, hu⟩ := List.prefix_of_prefix_length_le hp hp' (Nat.le_of_lt hlen)
    obtain ⟨lead, digits, rfl, rfl, -, -, -, hr⟩ := read_codeValue_inv h
    obtain ⟨lead', digits', rfl, rfl, -, hdigits', -, hr'⟩ := read_codeValue_inv h'
    have htaken : lead ++ (digits ++ '"' :: u) = lead' ++ (digits' ++ ['"']) := by
      rw [hr, hr'] at hu
      simpa using hu
    have hcount : lead.length + digits.length < lead'.length + digits'.length := by
      rw [hr, hr'] at hlen
      simp only [List.length_append, List.length_cons, List.length_nil] at hlen
      omega
    have hquote : (lead' ++ (digits' ++ ['"']))[lead.length + digits.length]? = some '"' := by
      rw [← htaken, List.getElem?_append_right (by omega), List.getElem?_append_right (by omega)]
      simp
    rw [List.getElem?_append_right hlead, List.getElem?_append_left (by omega)] at hquote
    have := hdigits' '"' (List.mem_of_getElem? hquote)
    exact absurd this (by decide)
  · -- all that the other form took is in what this one took
    obtain ⟨u, hu⟩ := List.prefix_of_prefix_length_le hp' hp hlen
    have hread := closed_codeValue leads' count' h' (u ++ r.rest)
    rw [← List.append_assoc, hu, hs, hnone] at hread
    cases hread

/-- The value of a definition, in the first form that fits. -/
def anyCode : Pattern (Text × Text) :=
  oneOf [codeValue 1 5, codeValue 1 4, codeValue 2 5, codeValue 2 4]

theorem definition_eq :
    definition = definitionHead >>= fun identifier => anyCode >>= fun (lead, digits) =>
      pure ⟨identifier, lead, digits⟩ := rfl

theorem closed_anyCode : anyCode.Closed := by
  refine closed_oneOf ?_ ?_
  · intro p hp
    simp only [List.mem_cons, List.not_mem_nil, or_false] at hp
    rcases hp with rfl | rfl | rfl | rfl <;> exact closed_codeValue _ _
  · simp only [List.pairwise_cons, List.mem_cons, List.not_mem_nil, or_false, forall_eq_or_imp,
      forall_eq, false_imp_iff, implies_true, and_true, List.Pairwise.nil]
    exact ⟨⟨yieldsTo_codeValue (by decide), yieldsTo_codeValue (by decide),
      yieldsTo_codeValue (by decide)⟩, ⟨yieldsTo_codeValue (by decide),
      yieldsTo_codeValue (by decide)⟩, yieldsTo_codeValue (by decide)⟩

/-- A value is of one line and ends at its closing quotation mark. -/
theorem taken_anyCode {s : Text} {r : Reading (Text × Text)} (h : anyCode.read s = some r) :
    '\n' ∉ r.taken ∧ r.taken.getLast? = some '"' := by
  obtain ⟨p, hp, hread⟩ := read_oneOf_inv h
  have hform : ∃ leads count, p = codeValue leads count := by
    simp only [List.mem_cons, List.not_mem_nil, or_false] at hp
    rcases hp with rfl | rfl | rfl | rfl <;> exact ⟨_, _, rfl⟩
  obtain ⟨leads, count, rfl⟩ := hform
  obtain ⟨lead, digits, -, -, hlead, hdigits, -, hr⟩ := read_codeValue_inv hread
  rw [hr, ← List.append_assoc, List.getLast?_concat]
  refine ⟨?_, rfl⟩
  simp only [List.mem_append, List.mem_singleton, not_or]
  refine ⟨⟨fun hm => ?_, fun hm => ?_⟩, by decide⟩
  · exact absurd (hlead _ hm) (by decide)
  · exact absurd (hdigits _ hm) (by decide)

theorem closed_definitionHead : definitionHead.Closed := by
  intro s r h z
  obtain ⟨w, -, hr⟩ := read_definitionHead_inv h
  rw [hr]
  exact w.read_append z

theorem closed_definition : definition.Closed :=
  closed_definitionHead.bind fun _ => closed_anyCode.bind fun _ => closed_pure _

/-- A definition is the front of one and a value. -/
theorem read_definition_inv {s : Text} {r : Reading DefinitionParts}
    (h : definition.read s = some r) :
    ∃ (w : DefinitionHead) (lead digits value : Text),
      anyCode.read (value ++ r.rest) = some ⟨(lead, digits), value, r.rest⟩ ∧
      r = ⟨⟨w.identifier.text, lead, digits⟩, w.text ++ value, r.rest⟩ := by
  rw [definition_eq] at h
  obtain ⟨r₁, _, h₁, h, htaken⟩ := read_bind_inv h
  obtain ⟨w, -, hr₁⟩ := read_definitionHead_inv h₁
  obtain ⟨r₂, _, h₂, h, rfl⟩ := read_bind_inv h
  obtain ⟨note, taken, rest⟩ := r
  obtain ⟨⟨lead, digits⟩, value, rest₂⟩ := r₂
  cases h
  refine ⟨w, lead, digits, value, closed_anyCode h₂ _, ?_⟩
  rw [show taken = _ from htaken, List.append_nil, hr₁]

theorem taken_definition {s : Text} {r : Reading DefinitionParts} (h : definition.read s = some r) :
    r.taken.getLast? = some '"' := by
  obtain ⟨w, lead, digits, value, hvalue, hr⟩ := read_definition_inv h
  rw [hr, List.getLast?_append, (taken_anyCode hvalue).2]
  rfl

theorem declares_definition : definition.Declares where
  opens := by
    intro s r h
    obtain ⟨w, lead, digits, value, hvalue, hr⟩ := read_definition_inv h
    obtain ⟨hquiet, hfresh⟩ := w.quiet_body
    refine ⟨w.body ++ value, ?_, quiet_append hquiet ?_⟩
    · rw [hr, DefinitionHead.text, List.append_assoc]
    · rw [hfresh]
      exact quiet_of_not_mem (taken_anyCode hvalue).1

/-! ## Definition lines -/

/-- What ends a line is blanks and line ends. -/
theorem taken_lineEnd {s : Text} {r : Reading Unit} (h : lineEnd.read s = some r) :
    ∀ c ∈ r.taken, isGap c = true := by
  obtain ⟨r₁, _, h₁, h, htaken⟩ := read_bind_inv h
  obtain ⟨_, _, _, -, hcr, -, -, h, rfl⟩ := read_between_bind_inv h
  obtain ⟨_, _, _, -, hlf, -, -, h, rfl⟩ := read_between_bind_inv h
  obtain ⟨-, hblank, -, -⟩ := read_many_inv h₁
  cases h
  rw [htaken]
  intro c hc
  simp only [List.mem_append, List.not_mem_nil, or_false] at hc
  rcases hc with hc | hc | hc
  · exact isGap_of_isBlank (hblank c hc)
  · rw [eq_of_beq (hcr c hc)]; decide
  · rw [eq_of_beq (hlf c hc)]; decide

theorem hash_not_mem_lineEnd {s : Text} {r : Reading Unit} (h : lineEnd.read s = some r) :
    '#' ∉ r.taken := fun hm => absurd (taken_lineEnd h _ hm) (by decide)

/-- A definition line is the front of a definition, the line up to its last quotation mark, and
the end of the line. -/
theorem read_definitionLine_inv {s : Text} {r : Reading Unit} (h : definitionLine.read s = some r) :
    ∃ (w : DefinitionHead) (q e : Text),
      throughLastQuote.read (q ++ (e ++ r.rest)) = some ⟨(), q, e ++ r.rest⟩ ∧
      lineEnd.read (e ++ r.rest) = some ⟨(), e, r.rest⟩ ∧ r = ⟨(), w.text ++ (q ++ e), r.rest⟩ := by
  obtain ⟨r₁, _, h₁, h, htaken⟩ := read_bind_inv h
  obtain ⟨w, -, hr₁⟩ := read_definitionHead_inv h₁
  obtain ⟨⟨⟨⟩, q, z⟩, e, h₂, h, rfl⟩ := read_bind_inv h
  have hs : q ++ z = r₁.rest := throughLastQuote.taken_append_rest h₂
  have hz : e ++ r.rest = z := lineEnd.taken_append_rest h
  refine ⟨w, q, e, ?_, ?_, ?_⟩
  · rw [hz, hs]; exact h₂
  · rw [hz]; exact h
  · obtain ⟨⟨⟩, taken, rest⟩ := r
    rw [show taken = _ from htaken, hr₁]

theorem declares_definitionLine : definitionLine.Declares where
  opens := by
    intro s r h
    obtain ⟨w, q, e, hq, he, hr⟩ := read_definitionLine_inv h
    obtain ⟨hquiet, hfresh⟩ := w.quiet_body
    obtain ⟨-, hnl, -, -, -⟩ := read_throughLastQuote_inv hq
    refine ⟨w.body ++ (q ++ e), ?_, quiet_append hquiet ?_⟩
    · rw [hr, DefinitionHead.text, List.append_assoc]
    · rw [hfresh]
      exact quiet_append (quiet_of_not_mem hnl) (quiet_of_hash_not_mem (hash_not_mem_lineEnd he))

/-- The end of a line is always read. -/
theorem read_lineEnd (s : Text) : ∃ e z, lineEnd.read s = some ⟨(), e, z⟩ := by
  obtain ⟨r₁, h₁⟩ := read_optional (· == '\r') (s.dropWhile isBlank)
  obtain ⟨⟨lf, t, z⟩, h₂⟩ := read_optional (· == '\n') r₁.rest
  exact ⟨_, z, read_bind_of rfl (read_bind_of h₁ (read_bind_of h₂ (read_pure _ _)))⟩

/-- Behind the front of a definition, a value of one line is enough for a definition line. -/
theorem read_definitionLine_append (w : DefinitionHead) {value : Text} (hnl : '\n' ∉ value)
    (hlast : value.getLast? = some '"') (z : Text) :
    ∃ r, definitionLine.read (w.text ++ (value ++ z)) = some r ∧ w.text ++ value <+: r.taken := by
  obtain ⟨u, y, -, hquote⟩ := read_throughLastQuote_of_mem hnl hlast z
  obtain ⟨e, x, hend⟩ := read_lineEnd y
  refine ⟨_, read_bind_of (w.read_append _) (read_bind_of hquote hend), u ++ e, ?_⟩
  simp only [List.append_assoc]

/-- Where a definition stands, its line is a definition line. -/
theorem read_definitionLine_of_definition {s : Text} {r : Reading DefinitionParts}
    (h : definition.read s = some r) :
    ∃ r', definitionLine.read s = some r' ∧ r.taken <+: r'.taken := by
  obtain ⟨w, lead, digits, value, hvalue, hr⟩ := read_definition_inv h
  obtain ⟨hnl, hlast⟩ := taken_anyCode hvalue
  have hs : s = w.text ++ (value ++ r.rest) := by
    rw [← definition.taken_append_rest h, hr, List.append_assoc]
  rw [hs, hr]
  exact read_definitionLine_append w hnl hlast r.rest

/-! ## Blocks -/

/-- The language of a variant may stand at a line start, but no declaration begins with it. -/
theorem quiet_language {fresh : Bool} : Quiet fresh "#language".toList := by
  intro u hu z
  have hmem : u ∈ lineStarts true "#language".toList := by
    cases fresh with
    | true => exact hu
    | false => exact List.mem_append_right _ hu
  have : u = "#language".toList := by
    have hstarts : lineStarts true "#language".toList = ["#language".toList] := by decide
    rw [hstarts] at hmem
    exact List.mem_singleton.mp hmem
  rw [this]
  rintro ⟨t, ht⟩
  cases ht

/-- A variant in its parts. -/
structure VariantParts where
  /-- The gap before the variant. -/
  before : RunOf isGap
  /-- The blanks before the language tag. -/
  inner : RunOf isBlank
  tag : Text
  /-- The gap between the tag and the quotation mark. -/
  gap : RunOf isGap
  /-- The value with its closing quotation mark. -/
  value : Text
  /-- What ends the line. -/
  ending : Text

namespace VariantParts

/-- The variant up to its opening quotation mark. -/
def front (v : VariantParts) : Text :=
  v.before.text ++ ("#language".toList ++ (v.inner.text ++ (v.tag ++ (v.gap.text ++ ['"']))))

/-- The variant. -/
def text (v : VariantParts) : Text := v.front ++ (v.value ++ v.ending)

/-- What makes the parts a variant before the text `z`. -/
structure Fits (v : VariantParts) (z : Text) : Prop where
  tag : ∀ c ∈ v.tag, isTagChar c = true
  two_le : 2 ≤ v.tag.length
  le_five : v.tag.length ≤ 5
  value : throughLastQuote.read (v.value ++ (v.ending ++ z)) = some ⟨(), v.value, v.ending ++ z⟩
  ending : lineEnd.read (v.ending ++ z) = some ⟨(), v.ending, z⟩

theorem Fits.read {v : VariantParts} {z : Text} (h : v.Fits z) :
    variant.read (v.text ++ z) = some ⟨v.tag, v.text, z⟩ := by
  have htag : EndsRun isTagChar (v.gap.text ++ (['"'] ++ (v.value ++ (v.ending ++ z)))) :=
    endsRun_of_run v.gap (fun c hc => by
      simp only [isGap, isBlank, Bool.or_eq_true, beq_iff_eq] at hc
      rcases hc with ((rfl | rfl) | rfl) | rfl <;> decide) _
  have hinner : EndsRun isBlank
      (v.tag ++ (v.gap.text ++ (['"'] ++ (v.value ++ (v.ending ++ z))))) := by
    cases ht : v.tag with
    | nil => exact absurd h.two_le (by rw [ht]; decide)
    | cons c tag =>
      exact endsRun_cons (isBlank_of_isTagChar (h.tag c (by rw [ht]; exact List.mem_cons_self ..))) _
  have hread : variant.read (v.text ++ z) = some ⟨v.tag, v.before.text ++ ("#language".toList ++
      (v.inner.text ++ (v.tag ++ (v.gap.text ++ (['"'] ++ (v.value ++ (v.ending ++ []))))))), z⟩ := by
    simp only [text, front, List.append_assoc]
    refine read_bind_of (read_many1_append v.before (endsRun_cons (by decide) _)) ?_
    refine read_bind_of (read_word_append _ _) ?_
    refine read_bind_of (read_many1_append v.inner hinner) ?_
    refine read_bind_of (read_between_append h.tag h.two_le h.le_five (Or.inr htag)) ?_
    refine read_bind_of (read_many1_append v.gap (endsRun_cons (by decide) _)) ?_
    refine read_bind_of (read_word_append ['"'] _) ?_
    refine read_bind_of h.value (read_bind_of h.ending (read_pure _ _))
  rw [hread]
  simp only [text, front, List.append_assoc, List.append_nil]

/-- Every line of a variant goes on with the variant. -/
theorem Fits.quiet {v : VariantParts} {z : Text} (h : v.Fits z) (fresh : Bool) :
    Quiet fresh v.text := by
  obtain ⟨-, hnl, -, -, -⟩ := read_throughLastQuote_inv h.value
  have hmiddle : '#' ∉ v.inner.text ++ (v.tag ++ (v.gap.text ++ ['"'])) := by
    have htag : '#' ∉ v.tag := fun hm => absurd (h.tag _ hm) (by decide)
    simp [v.inner.not_mem (c := '#') (by decide), v.gap.not_mem (c := '#') (by decide), htag]
  have hending : '#' ∉ v.ending := hash_not_mem_lineEnd h.ending
  have hbefore : '#' ∉ v.before.text := v.before.not_mem (by decide)
  have htext : v.text = v.before.text ++ ("#language".toList ++
      ((v.inner.text ++ (v.tag ++ (v.gap.text ++ ['"']))) ++ (v.value ++ v.ending))) := by
    simp only [text, front, List.append_assoc]
  rw [htext]
  refine quiet_append (quiet_of_hash_not_mem hbefore) (quiet_append quiet_language ?_)
  refine quiet_append (quiet_of_hash_not_mem hmiddle) ?_
  have hfresh : ∀ fresh, freshAfter fresh (v.inner.text ++ (v.tag ++ (v.gap.text ++ ['"']))) = false := by
    intro fresh
    simp only [freshAfter_append]
    rfl
  rw [hfresh]
  exact quiet_append (quiet_of_not_mem hnl) (quiet_of_hash_not_mem hending)

theorem Fits.text_ne_nil {v : VariantParts} {z : Text} (_h : v.Fits z) : v.text ≠ [] := by
  unfold text front
  simp [v.before.text_ne_nil]

end VariantParts

theorem read_variant_inv {s : Text} {r : Reading Text} (h : variant.read s = some r) :
    ∃ v : VariantParts, v.Fits r.rest ∧ r = ⟨v.tag, v.text, r.rest⟩ := by
  obtain ⟨before, _, _, rfl, -, h, htaken⟩ := read_many1_bind_inv h
  obtain ⟨_, _, rfl, h, rfl⟩ := read_word_bind_inv h
  obtain ⟨inner, _, _, rfl, -, h, rfl⟩ := read_many1_bind_inv h
  obtain ⟨tag, _, _, rfl, htag, htwo, hfive, h, rfl⟩ := read_between_bind_inv h
  obtain ⟨gap, _, _, rfl, -, h, rfl⟩ := read_many1_bind_inv h
  obtain ⟨_, _, rfl, h, rfl⟩ := read_word_bind_inv h
  obtain ⟨⟨⟨⟩, value, y⟩, _, hvalue, h, rfl⟩ := read_bind_inv h
  obtain ⟨⟨⟨⟩, ending, z⟩, _, hending, h, rfl⟩ := read_bind_inv h
  simp only [read_pure, Option.some.injEq, Reading.mk.injEq] at h
  obtain ⟨hnote, rfl, hrest⟩ := h
  have hy : ending ++ z = y := lineEnd.taken_append_rest hending
  have hs := throughLastQuote.taken_append_rest hvalue
  rw [← hrest]
  refine ⟨⟨before, inner, tag, gap, value, ending⟩, ⟨htag, htwo, hfive, ?_, ?_⟩, ?_⟩
  · rw [hy, hs]; exact hvalue
  · rw [hy]; exact hending
  · obtain ⟨note, taken, rest⟩ := r
    rw [show taken = _ from htaken, ← show tag = note from hnote]
    simp only [VariantParts.text, VariantParts.front, List.append_assoc, List.append_nil]
    rw [hrest]

theorem quiet_row_variant (fresh : Bool) (s : Text) : Quiet fresh (row variant s).taken := by
  fun_induction row variant s generalizing fresh with
  | case1 => exact quiet_nil fresh
  | case2 => exact quiet_nil fresh
  | case3 s r h _ _ more ih =>
    obtain ⟨v, hv, hr⟩ := read_variant_inv h
    rw [hr]
    exact quiet_append (hv.quiet fresh) (ih _)

/-- A block is its word, its identifier and the row of variants behind that. -/
theorem read_block_inv {s : Text} {r : Reading Text} (h : block.read s = some r) :
    ∃ (blanks : RunOf isBlank) (identifier : RunOf isWordChar) (z : Text),
      s = declarationWord ++ (blanks.text ++ (identifier.text ++ z)) ∧ EndsRun isWordChar z ∧
      r = ⟨identifier.text, declarationWord ++ (blanks.text ++ (identifier.text ++
        (row variant z).taken)), (row variant z).rest⟩ := by
  obtain ⟨_, _, rfl, h, htaken⟩ := read_word_bind_inv h
  obtain ⟨blanks, _, _, rfl, -, h, rfl⟩ := read_many1_bind_inv h
  obtain ⟨identifier, z, _, rfl, hend, h, rfl⟩ := read_many1_bind_inv h
  obtain ⟨note, taken, rest⟩ := r
  cases h
  refine ⟨blanks, identifier, z, rfl, hend, ?_⟩
  rw [show taken = _ from htaken]
  simp only [List.append_nil]
  rfl

theorem read_block_append (blanks : RunOf isBlank) (identifier : RunOf isWordChar) {z : Text}
    (hz : EndsRun isWordChar z) :
    block.read (declarationWord ++ (blanks.text ++ (identifier.text ++ z))) =
      some ⟨identifier.text, declarationWord ++ (blanks.text ++ (identifier.text ++
        (row variant z).taken)), (row variant z).rest⟩ := by
  have h : block.read (declarationWord ++ (blanks.text ++ (identifier.text ++ z))) =
      some ⟨identifier.text, declarationWord ++ (blanks.text ++ (identifier.text ++
        ((row variant z).taken ++ []))), (row variant z).rest⟩ := by
    refine read_bind_of (read_word_append _ _) ?_
    refine read_bind_of (read_many1_append blanks ?_) ?_
    · exact endsRun_of_run identifier (fun c => isBlank_of_isWordChar) _
    refine read_bind_of (read_many1_append identifier hz) ?_
    exact read_bind_of rfl (read_pure _ _)
  rw [h, List.append_nil]

theorem declares_block : block.Declares where
  opens := by
    intro s r h
    obtain ⟨blanks, identifier, z, -, -, hr⟩ := read_block_inv h
    refine ⟨_, by rw [hr], ?_⟩
    rw [← List.append_assoc]
    have hnl : '\n' ∉ blanks.text ++ identifier.text := by
      simp [blanks.not_mem (c := '\n') (by decide), identifier.not_mem (c := '\n') (by decide)]
    exact quiet_append (quiet_of_not_mem hnl) (quiet_row_variant _ z)

end FirmwareIds.Resource
