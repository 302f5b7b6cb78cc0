import FirmwareIds.Proofs.Resource.Definitions

/-!
# Written lines, read again

A definition is written as one line, and the line is read as some definition or as none. It is read as
the one that it was written for if and only if the identifier and the lead are such as a definition can
have: `all_line_iff`. What is read decides this half of the statement: every definition of a text has
an identifier of word characters and a lead of one or two characters that are not white.

The lead of new lines is taken over from the first definition of a list. It was told from the digits
there by their number, and new lines have four of them. So the lead can be told from them too, unless
the list has five digits behind two characters of which the second could be a digit itself:
`line_behind_firstLead_iff`, and `line_lost_behind_five_digits` for such a list.
-/

namespace FirmwareIds.Definition

open Pattern Resource

/-! ## What a definition can be -/

theorem read_anyCode_inv {s : Text} {r : Reading (Text × Text)} (h : anyCode.read s = some r) :
    ∃ lead digits, r.note = (lead, digits) ∧ s = lead ++ (digits ++ '"' :: r.rest) ∧
      (∀ c ∈ lead, isWhite c = false) ∧ (∀ c ∈ digits, isHexDigit c = true) ∧
      (lead.length = 1 ∨ lead.length = 2) ∧ (digits.length = 5 ∨ digits.length = 4) := by
  obtain ⟨p, hp, hread⟩ := read_oneOf_inv h
  have hform : ∃ leads count, p = codeValue leads count ∧ (leads = 1 ∨ leads = 2) ∧
      (count = 5 ∨ count = 4) := by
    simp only [List.mem_cons, List.not_mem_nil, or_false] at hp
    rcases hp with rfl | rfl | rfl | rfl <;> exact ⟨_, _, rfl, by decide, by decide⟩
  obtain ⟨leads, count, rfl, hleads, hcount⟩ := hform
  obtain ⟨lead, digits, rfl, rfl, hlead, hdigits, hs, hr⟩ := read_codeValue_inv hread
  exact ⟨lead, digits, by rw [hr], hs, fun c hc => by simpa using hlead c hc, hdigits, hleads, hcount⟩

/-- The lead is as short as it can be. So its second character is a digit only where five more follow:
before four, it would be the first of five. -/
theorem length_digits_of_read_anyCode {s digits : Text} {first second : Char}
    {r : Reading (Text × Text)} (h : anyCode.read s = some r)
    (hnote : r.note = ([first, second], digits)) (hsecond : isHexDigit second = true) :
    digits.length = 5 := by
  obtain ⟨lead, digits', hnote', hs, hwhite, hdigits, -, hlength⟩ := read_anyCode_inv h
  rw [hnote] at hnote'
  cases hnote'
  refine hlength.resolve_right fun hfour => ?_
  have hfirst : ∀ c ∈ [first], (!isWhite c) = true := fun c hc => by
    rw [List.mem_singleton.mp hc, hwhite first (List.mem_cons_self ..)]
    rfl
  have hall : ∀ c ∈ second :: digits, isHexDigit c = true := List.forall_mem_cons.mpr ⟨hsecond, hdigits⟩
  have hshort := read_codeValue_append hfirst hall r.rest
  rw [show (second :: digits).length = 5 by rw [List.length_cons, hfour]] at hshort
  have hother := read_orElse_left
    (q := oneOf [codeValue 1 4, codeValue 2 5, codeValue 2 4]) hshort
  rw [show [first] ++ (second :: digits ++ '"' :: r.rest) = s from hs.symm] at hother
  rw [show anyCode.read s = _ from hother] at h
  rw [← Option.some.inj h] at hnote
  cases hnote

/-- What is read as a definition has an identifier and a lead as definitions have them. -/
theorem parts_of_read {s : Text} {r : Reading DefinitionParts} (h : definition.read s = some r) :
    IsIdentifier r.note.identifier ∧ ∃ t q, anyCode.read t = some q ∧
      q.note = (r.note.lead, r.note.digits) := by
  obtain ⟨w, lead, digits, value, hvalue, hr⟩ := read_definition_inv h
  rw [hr]
  exact ⟨⟨w.identifier.text_ne_nil, fun c => w.identifier.class_of_mem⟩, _, _, hvalue, rfl⟩

theorem parts_of_ofParts? {parts : DefinitionParts} {d : Definition} (h : ofParts? parts = some d) :
    d.identifier = parts.identifier ∧ d.lead = parts.lead := by
  unfold ofParts? at h
  simp only at h
  split at h
  · cases h
    exact ⟨rfl, rfl⟩
  · cases h

theorem parts_of_mem_all {s : Text} {d : Definition} (h : d ∈ all s) :
    IsIdentifier d.identifier ∧ (∀ c ∈ d.lead, isWhite c = false) ∧
      (d.lead.length = 1 ∨ d.lead.length = 2) := by
  rw [all_eq] at h
  obtain ⟨u, -, hu⟩ := List.mem_filterMap.mp h
  obtain ⟨r, hr, hd⟩ := Option.bind_eq_some_iff.mp hu
  obtain ⟨hidentifier, t, q, hq, hnote⟩ := parts_of_read hr
  obtain ⟨lead, digits, hparts, -, hwhite, -, hlength, -⟩ := read_anyCode_inv hq
  rw [hnote] at hparts
  cases hparts
  obtain ⟨hsame, hlead⟩ := parts_of_ofParts? hd
  rw [hsame, hlead]
  exact ⟨hidentifier, hwhite, hlength⟩

/-! ## Which definitions read back -/

/-- Where the second character of the lead is a digit, it is read as one. -/
theorem all_line_of_digit {identifier : Text} (hidentifier : IsIdentifier identifier)
    {first second : Char} (hfirst : isWhite first = false) (hsecond : isHexDigit second = true)
    (code : UInt16) :
    all (line ⟨identifier, [first, second], code⟩) =
      (ofParts? ⟨identifier, [first], second :: Text.hex4 code⟩).toList := by
  have hlead : ∀ c ∈ [first], (!isWhite c) = true := fun c hc => by
    rw [List.mem_singleton.mp hc, hfirst]
    rfl
  have hdigits : ∀ c ∈ second :: Text.hex4 code, isHexDigit c = true := by
    intro c hc
    rcases List.mem_cons.mp hc with rfl | hc
    · exact hsecond
    · exact isHexDigit_of_mem_hex4 code c hc
  have hfeed : '\n' ∉ [first, second] := by
    simp only [List.mem_cons, List.not_mem_nil, or_false, not_or]
    refine ⟨?_, ?_⟩ <;> rintro rfl
    · exact absurd hfirst (by decide)
    · exact absurd hsecond (by decide)
  exact all_line_of_read hidentifier hfeed
    (read_orElse_left (read_codeValue_append hlead hdigits "\r\n".toList))

/-- A written line that reads back has an identifier, and a lead that can be told from the digits. -/
theorem of_all_line {d : Definition} (h : all (line d) = [d]) :
    IsIdentifier d.identifier ∧ IsLead d.lead := by
  have hmem : d ∈ all (line d) := by rw [h]; exact List.mem_singleton.mpr rfl
  obtain ⟨hidentifier, hwhite, hlength⟩ := parts_of_mem_all hmem
  refine ⟨hidentifier, hwhite, hlength.imp id fun htwo => ⟨htwo, ?_⟩⟩
  obtain ⟨identifier, lead, code⟩ := d
  obtain ⟨first, second, rfl⟩ := List.length_eq_two.mp htwo
  cases hsecond : isHexDigit second with
  | false => exact fun c hc => Option.some.inj hc ▸ hsecond
  | true =>
    -- the line is read with one character of lead, or not at all
    exfalso
    rw [all_line_of_digit hidentifier (hwhite first (List.mem_cons_self ..)) hsecond,
      Option.mem_toList] at hmem
    have := (parts_of_ofParts? hmem).2
    cases this

/-- A written line reads back as its definition if and only if the identifier is one, and the lead can
be told from the digits behind it. -/
theorem all_line_iff (d : Definition) :
    all (line d) = [d] ↔ IsIdentifier d.identifier ∧ IsLead d.lead :=
  ⟨of_all_line, fun h => all_line h.1 h.2⟩

/-! ## The lead of a list -/

/-- The first definition of a text has five digits behind two characters of lead, and the second of
these could be a digit as well. -/
def RunsOn (s : Text) : Prop :=
  ∃ parts, definition.first? .lineStart s = some parts ∧ parts.digits.length = 5 ∧
    parts.lead.length = 2 ∧ parts.lead.getLast?.any isHexDigit = true

instance (s : Text) : Decidable (RunsOn s) :=
  match h : definition.first? .lineStart s with
  | none => .isFalse fun ⟨_, hparts, _⟩ => nomatch h.symm.trans hparts
  | some parts =>
    decidable_of_iff (parts.digits.length = 5 ∧ parts.lead.length = 2 ∧
        parts.lead.getLast?.any isHexDigit = true)
      ⟨fun hruns => ⟨parts, h, hruns⟩, fun ⟨_, hparts, hruns⟩ => by
        cases h.symm.trans hparts
        exact hruns⟩

theorem isLead_iff_of_firstLead? {s lead : Text} (h : firstLead? s = some lead) :
    IsLead lead ↔ ¬ RunsOn s := by
  obtain ⟨parts, hparts, rfl⟩ := Option.map_eq_some_iff.mp h
  obtain ⟨⟨hit, rest⟩, hfirst, hnote⟩ := Option.map_eq_some_iff.mp hparts
  obtain ⟨u, r, hr, -, hrnote⟩ := exists_read_of_firstFrom hfirst
  rw [hnote] at hrnote
  obtain ⟨-, t, q, hq, hqnote⟩ := parts_of_read hr
  rw [hrnote] at hqnote
  obtain ⟨lead, digits, hsame, -, hwhite, -, hlength, -⟩ := read_anyCode_inv hq
  rw [hqnote] at hsame
  cases hsame
  constructor
  · rintro ⟨-, hlead⟩ ⟨parts', hparts', -, htwo, hdigit⟩
    rw [hparts] at hparts'
    cases hparts'
    obtain ⟨first, second, he⟩ := List.length_eq_two.mp htwo
    rw [he] at hdigit hlead
    obtain ⟨-, hnone⟩ := hlead.resolve_left (by simp)
    change isHexDigit second = true at hdigit
    rw [hnone second rfl] at hdigit
    cases hdigit
  · intro hruns
    refine ⟨hwhite, hlength.imp id fun htwo => ⟨htwo, fun c hc => ?_⟩⟩
    rw [← Bool.not_eq_true]
    intro hdigit
    obtain ⟨first, second, he⟩ := List.length_eq_two.mp htwo
    rw [he] at hc hqnote
    cases hc
    refine hruns ⟨parts, hparts, length_digits_of_read_anyCode hq hqnote hdigit, htwo, ?_⟩
    rw [he]
    exact hdigit

/-- A line with the lead of the first definition of a list reads back as its definition, whatever its
identifier and its code, if and only if that definition does not run on. -/
theorem line_behind_firstLead_iff {s lead identifier : Text} (h : firstLead? s = some lead)
    (hidentifier : IsIdentifier identifier) (code : UInt16) :
    all (line ⟨identifier, lead, code⟩) = [⟨identifier, lead, code⟩] ↔ ¬ RunsOn s := by
  rw [← isLead_iff_of_firstLead? h]
  exact ⟨fun hall => (of_all_line hall).2, fun hlead => all_line hidentifier hlead⟩

/-- A list with five digits behind a lead that they can be told from. -/
def fiveDigitsApart : Text := "#string STR_A #language uqi \"\\x0A1B2\"\r\n".toList

theorem line_reads_back_behind_five_digits :
    firstLead? fiveDigitsApart = some "\\x".toList ∧ IsIdentifier "STR_B".toList ∧
      all (line ⟨"STR_B".toList, "\\x".toList, 2⟩) = [⟨"STR_B".toList, "\\x".toList, 2⟩] := by
  have hlead : firstLead? fiveDigitsApart = some "\\x".toList := by decide +kernel
  have hidentifier : IsIdentifier "STR_B".toList := ⟨by decide, List.all_eq_true.mp (by decide)⟩
  exact ⟨hlead, hidentifier, (line_behind_firstLead_iff hlead hidentifier 2).mpr (by decide +kernel)⟩

/-- A list with five digits behind a lead that goes on with a digit. -/
def fiveDigitsJoined : Text := "#string STR_A #language uqi \"xa00001\"\n".toList

/-- The line of a new definition with this lead is read as a code of five digits, which is too wide. -/
theorem line_lost_behind_five_digits :
    firstLead? fiveDigitsJoined = some "xa".toList ∧ IsIdentifier "STR_B".toList ∧
      all (line ⟨"STR_B".toList, "xa".toList, 2⟩) = [] :=
  ⟨by decide +kernel, ⟨by decide, List.all_eq_true.mp (by decide)⟩, by decide +kernel⟩

end FirmwareIds.Definition
