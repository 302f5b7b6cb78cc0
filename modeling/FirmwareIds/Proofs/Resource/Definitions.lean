import FirmwareIds.Proofs.Resource.Declarations
import FirmwareIds.Resource.Definition
import Mathlib.Data.List.Basic

/-!
# The definitions of a text

The definitions of a text are those that stand at its line starts, so they can be followed through
everything that is done with texts. `all_append`: a declaration put behind a text adds its own
definitions and changes no other. `all_takeLines`: the definition lines cut out of a text hold all
its definitions. `all_line`: a written line reads back as the definition it was written for, if its
lead is one that can be told from the code.
-/

namespace FirmwareIds.Definition

open Pattern Resource

/-- The definition that stands at the front of a text, if there is one and its code fits. -/
def at? (s : Text) : Option Definition := (definition.read s).bind fun r => ofParts? r.note

/-- What is read at a place decides which definition stands there. -/
theorem at?_eq (s : Text) : at? s = (definition.readingAt s).bind fun x => ofParts? x.2 := by
  unfold at? readingAt
  cases definition.read s <;> rfl

theorem readings_eq (s : Text) :
    (definition.cut .lineStart s).readings = (lineStarts true s).filterMap definition.readingAt :=
  declares_definition.readings_cutFrom true s

theorem all_eq_readings (s : Text) :
    all s = (definition.cut .lineStart s).readings.filterMap fun x => ofParts? x.2 := by
  unfold all
  rw [Cutting.notes_eq, List.filterMap_map]
  rfl

theorem all_eq (s : Text) : all s = (lineStarts true s).filterMap at? := by
  rw [all_eq_readings, readings_eq, List.filterMap_filterMap]
  exact congrArg (List.filterMap · _) (funext fun u => (at?_eq u).symm)

theorem at?_of_read {s : Text} {r : Reading DefinitionParts} (h : definition.read s = some r) :
    at? s = ofParts? r.note := by
  unfold at?
  rw [h]
  rfl

theorem at?_of_read_eq_none {s : Text} (h : definition.read s = none) : at? s = none := by
  unfold at?
  rw [h]
  rfl

/-- Only a declaration is a definition. -/
theorem at?_eq_none_of_not_prefix {s : Text} (h : ¬ declarationWord <+: s) : at? s = none := by
  refine at?_of_read_eq_none (Option.eq_none_iff_forall_ne_some.mpr fun r hr => h ?_)
  exact declares_definition.prefix_of_read hr

/-- Text behind a text that a reading stays in does not change what is read at its front. -/
theorem readingAt_append {s z : Text}
    (h : ∀ r, definition.read (s ++ z) = some r → r.taken <+: s) :
    definition.readingAt (s ++ z) = definition.readingAt s := by
  unfold readingAt
  cases hs : definition.read s with
  | some r =>
    rw [closed_definition.read_append hs z]
    rfl
  | none =>
    cases hz : definition.read (s ++ z) with
    | none => rfl
    | some r =>
      obtain ⟨y, hread⟩ := closed_definition.read_of_append hz (h r hz)
      rw [hs] at hread
      cases hread

theorem at?_append {s z : Text}
    (h : ∀ r, definition.read (s ++ z) = some r → r.taken <+: s) : at? (s ++ z) = at? s := by
  rw [at?_eq, at?_eq, readingAt_append h]

/-! ## Appending -/

theorem readingAt_append_of_endsLine {s z : Text} (hs : endsLine s = true)
    (hz : declarationWord <+: z) : definition.readingAt (s ++ z) = definition.readingAt s :=
  readingAt_append fun _ h => declares_definition.taken_of_append hs hz h

/-- A line end put between does not belong to a definition. -/
theorem readingAt_append_lineEnd {s z : Text} (hz : declarationWord <+: z) :
    definition.readingAt (s ++ ("\r\n".toList ++ z)) = definition.readingAt s := by
  refine readingAt_append fun r h => ?_
  rw [← List.append_assoc] at h
  have hends : endsLine (s ++ "\r\n".toList) = true := by
    unfold endsLine
    rw [List.getLast?_append]
    rfl
  obtain hp := declares_definition.taken_of_append hends hz h
  rcases Nat.lt_or_ge s.length r.taken.length with hlen | hlen
  · -- the reading would end in the line end and not in a quotation mark
    obtain ⟨u, hu⟩ := List.prefix_of_prefix_length_le (List.prefix_append s _) hp
      (Nat.le_of_lt hlen)
    have hpu : u <+: "\r\n".toList := by
      rw [← hu] at hp
      exact (List.prefix_append_right_inj s).mp hp
    have hlast := taken_definition h
    rw [← hu] at hlast hlen
    have hne : u ≠ [] := by
      rintro rfl
      rw [List.append_nil] at hlen
      exact absurd hlen (Nat.lt_irrefl _)
    rw [List.getLast?_append] at hlast
    cases hl : u.getLast? with
    | none => exact absurd (List.getLast?_eq_none_iff.mp hl) hne
    | some c =>
      rw [hl] at hlast
      have hc : c = '"' := by simpa using hlast
      have := hpu.subset (hc ▸ List.mem_of_getLast? hl)
      exact absurd this (by decide)
  · exact List.prefix_of_prefix_length_le hp (List.prefix_append s _) hlen

theorem endsLine_of_mem_lineStarts {fresh : Bool} {s u : Text} (h : u ∈ lineStarts fresh s) :
    endsLine u = endsLine s := by
  obtain ⟨hne, x, rfl, -⟩ := mem_lineStarts_iff.mp h
  cases hl : u.getLast? with
  | none => exact absurd (List.getLast?_eq_none_iff.mp hl) hne
  | some c =>
    unfold endsLine
    rw [List.getLast?_append, hl]
    rfl

/-- A declaration put behind a text is read there as it is alone, and all that was read before is read
as it was. -/
theorem readings_append {line : Text} (hline : declarationWord <+: line) (buffer : Text) :
    (definition.cut .lineStart (append buffer line)).readings =
      (definition.cut .lineStart buffer).readings ++ (definition.cut .lineStart line).readings := by
  unfold append
  simp only [readings_eq]
  split
  · next hbuffer =>
    cases buffer with
    | nil => simp
    | cons c s =>
      have hends : endsLine (c :: s) = true := hbuffer
      rw [lineStarts_append, freshAfter_of_ne_nil (List.cons_ne_nil c s), hends,
        List.filterMap_append, List.filterMap_map]
      congr 1
      refine List.filterMap_congr fun u hu => ?_
      exact readingAt_append_of_endsLine ((endsLine_of_mem_lineStarts hu).trans hends) hline
  · next hbuffer =>
    simp only [Bool.or_eq_true, not_or, Bool.not_eq_true] at hbuffer
    obtain ⟨hne, hends⟩ := hbuffer
    have hfresh : freshAfter true buffer = false := by
      unfold freshAfter
      rw [hne]
      exact hends
    rw [List.append_assoc, lineStarts_append, hfresh, List.filterMap_append, List.filterMap_map]
    have hcr : lineStarts false ("\r\n".toList ++ line) = lineStarts true line := rfl
    rw [hcr]
    congr 1
    exact List.filterMap_congr fun u _ => readingAt_append_lineEnd hline

/-- A declaration put behind a text adds its own definitions and changes no other. -/
theorem all_append {line : Text} (hline : declarationWord <+: line) (buffer : Text) :
    all (append buffer line) = all buffer ++ all line := by
  rw [all_eq_readings, readings_append hline, List.filterMap_append, ← all_eq_readings,
    ← all_eq_readings]

theorem all_foldl_append {lines : List Text} (hlines : ∀ line ∈ lines, declarationWord <+: line)
    (buffer : Text) : all (lines.foldl append buffer) = all buffer ++ lines.flatMap all := by
  induction lines generalizing buffer with
  | nil => simp
  | cons line lines ih =>
    rw [List.foldl_cons, ih fun l hl => hlines l (List.mem_cons_of_mem _ hl),
      all_append (hlines line (List.mem_cons_self ..)), List.flatMap_cons, List.append_assoc]

/-! ## Cutting out -/

theorem prefix_of_mem_takeLines {s line : Text} (h : line ∈ (takeLines s).1) :
    declarationWord <+: line := by
  change line ∈ (definitionLine.cut .lineStart s).pieces at h
  rw [declares_definitionLine.pieces_cut] at h
  obtain ⟨u, -, h⟩ := List.mem_filterMap.mp h
  obtain ⟨r, hr, rfl⟩ := Option.map_eq_some_iff.mp h
  obtain ⟨t, ht, -⟩ := declares_definitionLine.opens hr
  rw [ht]
  exact List.prefix_append ..

/-- A single declaration defines what stands at its front. -/
theorem all_declaration {t : Text} (ht : Quiet false t) :
    all (declarationWord ++ t) = (at? (declarationWord ++ t)).toList := by
  rw [all_eq_readings, readings_eq, declares_definition.readings_of_opens ht, at?_eq]
  cases definition.readingAt (declarationWord ++ t) with
  | none => rfl
  | some x =>
    show [x].filterMap _ = (ofParts? x.2).toList
    rw [List.filterMap_cons]
    cases ofParts? x.2 <;> rfl

/-- A definition line defines what stood at its place. -/
theorem all_taken_definitionLine {s : Text} {r : Reading Unit}
    (h : definitionLine.read s = some r) : all r.taken = (at? s).toList := by
  have hat : at? s = at? r.taken := by
    rw [← definitionLine.taken_append_rest h]
    refine at?_append fun r' h' => ?_
    rw [definitionLine.taken_append_rest h] at h'
    obtain ⟨r'', hline, hp⟩ := read_definitionLine_of_definition h'
    rw [h] at hline
    cases hline
    exact hp
  obtain ⟨t, ht, hquiet⟩ := declares_definitionLine.opens h
  rw [hat, ht]
  exact all_declaration hquiet

/-- The definition lines of a text hold all its definitions. -/
theorem all_takeLines (s : Text) : (takeLines s).1.flatMap all = all s := by
  show (definitionLine.cut .lineStart s).pieces.flatMap all = all s
  rw [declares_definitionLine.pieces_cut, all_eq, List.filterMap_eq_flatMap_toList,
    List.filterMap_eq_flatMap_toList, List.flatMap_assoc]
  refine List.flatMap_congr fun u _ => ?_
  cases hu : definitionLine.read u with
  | some r =>
    show [r.taken].flatMap all = _
    rw [List.flatMap_singleton, all_taken_definitionLine hu]
  | none =>
    have : at? u = none := by
      refine at?_of_read_eq_none (Option.eq_none_iff_forall_ne_some.mpr fun r hr => ?_)
      obtain ⟨r', hline, -⟩ := read_definitionLine_of_definition hr
      rw [hu] at hline
      cases hline
    rw [this]
    rfl

/-! ## Writing a line -/

/-- The identifier can stand in a definition. -/
def IsIdentifier (s : Text) : Prop := s ≠ [] ∧ ∀ c ∈ s, isWordChar c = true

/-- A lead that can be told from the digits behind it: one character, or two of which the second is
no digit, and none of them is white. -/
def IsLead (s : Text) : Prop :=
  (∀ c ∈ s, isWhite c = false) ∧
    (s.length = 1 ∨ s.length = 2 ∧ ∀ c ∈ s.getLast?, isHexDigit c = false)

theorem isHexDigit_of_mem_hex4 (code : UInt16) : ∀ c ∈ Text.hex4 code, isHexDigit c = true := by
  have := code.toNat_lt
  intro c hc
  simp only [Text.hex4, List.mem_cons, List.not_mem_nil, or_false] at hc
  rcases hc with rfl | rfl | rfl | rfl
  all_goals exact Text.isHexDigit_digitChar _ (by omega)

/-- A form of the value that wants a digit where there is none is refused. -/
theorem read_codeValue_eq_none_of_getElem? {leads count i : Nat} {s : Text} {c : Char}
    (hc : s[i]? = some c) (hdigit : isHexDigit c = false) (hleads : leads ≤ i)
    (hcount : i < leads + count) : (codeValue leads count).read s = none := by
  rw [Option.eq_none_iff_forall_ne_some]
  intro r h
  obtain ⟨lead, digits, rfl, rfl, -, hdigits, rfl, -⟩ := read_codeValue_inv h
  rw [List.getElem?_append_right hleads, List.getElem?_append_left (by omega)] at hc
  rw [hdigits c (List.mem_of_getElem? hc)] at hdigit
  cases hdigit

theorem read_anyCode_append {lead : Text} (hlead : IsLead lead) (code : UInt16) (z : Text) :
    anyCode.read (lead ++ (Text.hex4 code ++ '"' :: z)) =
      some ⟨(lead, Text.hex4 code), lead ++ (Text.hex4 code ++ ['"']), z⟩ := by
  obtain ⟨hwhite, hlength⟩ := hlead
  have hread : (codeValue lead.length 4).read (lead ++ (Text.hex4 code ++ '"' :: z)) = _ :=
    read_codeValue_append (fun c hc => by rw [hwhite c hc]; rfl) (isHexDigit_of_mem_hex4 code) z
  rcases hlength with hone | ⟨htwo, hlast⟩
  · have hrefuse : (codeValue 1 5).read (lead ++ (Text.hex4 code ++ '"' :: z)) = none := by
      refine read_codeValue_eq_none_of_getElem? (i := 5) (c := '"') ?_ (by decide) (by decide)
        (by decide)
      rw [List.getElem?_append_right (by omega), hone]
      rfl
    rw [hone] at hread
    exact (read_orElse_right hrefuse).trans (read_orElse_left hread)
  · obtain ⟨first, second, rfl⟩ := List.length_eq_two.mp htwo
    have hsecond : isHexDigit second = false := hlast second rfl
    have h₁ : (codeValue 1 5).read ([first, second] ++ (Text.hex4 code ++ '"' :: z)) = none :=
      read_codeValue_eq_none_of_getElem? (i := 1) rfl hsecond (by decide) (by decide)
    have h₂ : (codeValue 1 4).read ([first, second] ++ (Text.hex4 code ++ '"' :: z)) = none :=
      read_codeValue_eq_none_of_getElem? (i := 1) rfl hsecond (by decide) (by decide)
    have h₃ : (codeValue 2 5).read ([first, second] ++ (Text.hex4 code ++ '"' :: z)) = none :=
      read_codeValue_eq_none_of_getElem? (i := 6) (c := '"') rfl (by decide) (by decide) (by decide)
    exact (read_orElse_right h₁).trans ((read_orElse_right h₂).trans
      ((read_orElse_right h₃).trans (read_orElse_left hread)))

/-- A single space, between the words of a written line. -/
def space : RunOf isBlank := ⟨[' '], by decide, List.all_eq_true.mp (by decide)⟩

/-- The front of a written line. -/
def headOf (d : Definition) (h : IsIdentifier d.identifier) : DefinitionHead where
  before := space
  identifier := ⟨d.identifier, h⟩
  behind := ⟨List.replicate (languageColumn - d.identifier.byteLength) ' ' ++ [' '], by simp, by
    intro c hc
    rw [List.mem_append, List.mem_replicate, List.mem_singleton] at hc
    rcases hc with ⟨-, rfl⟩ | rfl <;> rfl⟩
  inner := space
  gap := ⟨[' '], by decide, List.all_eq_true.mp (by decide)⟩

theorem line_eq (d : Definition) (h : IsIdentifier d.identifier) :
    line d = (headOf d h).text ++ (d.lead ++ (Text.hex4 d.code ++ '"' :: "\r\n".toList)) := by
  unfold line DefinitionHead.text DefinitionHead.body headOf
  simp only [RunOf.text, space, List.append_assoc]
  rfl

theorem prefix_line (d : Definition) : declarationWord <+: line d := by
  unfold line
  simp only [List.append_assoc]
  exact List.prefix_append declarationWord _

theorem prefix_of_mem_lines {new : List Definition} {l : Text} (h : l ∈ new.map line) :
    declarationWord <+: l := by
  obtain ⟨d, -, rfl⟩ := List.mem_map.mp h
  exact prefix_line d

/-- A line that declares is put behind a text as it is, or behind a line end. So what comes behind the text
begins with the sharp of the line, or with the line end. -/
theorem append_declared {l : Text} (h : declarationWord <+: l) (text : Text) :
    ∃ z, append text l = text ++ z ∧ (z = l ∨ z = "\r\n".toList ++ l) ∧
      ∃ c y, z = c :: y ∧ (c = '#' ∨ c = '\r') := by
  obtain ⟨rest, hrest⟩ := h
  unfold append
  split
  · exact ⟨l, rfl, Or.inl rfl, _, _, hrest.symm, Or.inl rfl⟩
  · exact ⟨_, List.append_assoc .., Or.inr rfl, _, _, rfl, Or.inr rfl⟩

/-- What lines that declare put behind a text. -/
theorem foldl_append_eq {lines : List Text} (h : ∀ line ∈ lines, declarationWord <+: line)
    (text : Text) : ∃ z, lines.foldl append text = text ++ z ∧
      (∀ c ∈ z.head?, c = '#' ∨ c = '\r') ∧ (lines ≠ [] → z ≠ []) := by
  induction lines generalizing text with
  | nil => exact ⟨[], (List.append_nil text).symm, nofun, absurd rfl⟩
  | cons line lines ih =>
    obtain ⟨_, hz, -, c, y, rfl, hc⟩ := append_declared (h line (List.mem_cons_self ..)) text
    obtain ⟨x, hx, -⟩ := ih (fun line hline => h line (List.mem_cons_of_mem _ hline))
      (append text line)
    refine ⟨c :: y ++ x, ?_, fun c' hc' => Option.some.inj hc' ▸ hc, fun _ => List.cons_ne_nil _ _⟩
    rw [List.foldl_cons, hx, hz, List.append_assoc]

theorem ofParts?_hex4 (d : Definition) :
    ofParts? ⟨d.identifier, d.lead, Text.hex4 d.code⟩ = some d := by
  have hcode : (Text.ofHex (Text.hex4 d.code)).toUInt16 = d.code := by
    rw [Text.ofHex_hex4]
    exact UInt16.ofNat_toNat
  unfold ofParts?
  simp only [hcode]
  rw [if_pos (by rw [Text.ofHex_hex4]; exact d.code.toNat_lt)]

/-- A written line is read as its value is, if that is read up to the closing quotation mark. -/
theorem read_line_of_read {d : Definition} (hidentifier : IsIdentifier d.identifier)
    {lead digits : Text}
    (hvalue : anyCode.read (d.lead ++ (Text.hex4 d.code ++ '"' :: "\r\n".toList)) =
      some ⟨(lead, digits), d.lead ++ (Text.hex4 d.code ++ ['"']), "\r\n".toList⟩) :
    definition.read (line d) = some ⟨⟨d.identifier, lead, digits⟩,
      (headOf d hidentifier).text ++ ((d.lead ++ (Text.hex4 d.code ++ ['"'])) ++ []),
        "\r\n".toList⟩ := by
  rw [line_eq d hidentifier, definition_eq]
  refine read_bind_of ((headOf d hidentifier).read_append _) ?_
  exact read_bind_of hvalue (read_pure _ _)

/-- A written line holds the definition that its value is read as, if it is read up to the closing
quotation mark. -/
theorem all_line_of_read {d : Definition} (hidentifier : IsIdentifier d.identifier)
    (hfeed : '\n' ∉ d.lead) {lead digits : Text}
    (hvalue : anyCode.read (d.lead ++ (Text.hex4 d.code ++ '"' :: "\r\n".toList)) =
      some ⟨(lead, digits), d.lead ++ (Text.hex4 d.code ++ ['"']), "\r\n".toList⟩) :
    all (line d) = (ofParts? ⟨d.identifier, lead, digits⟩).toList := by
  have hline : '\n' ∉ d.lead ++ (Text.hex4 d.code ++ ['"']) := by
    simp only [List.mem_append, List.mem_singleton, not_or]
    refine ⟨hfeed, fun hm => ?_, by decide⟩
    exact absurd (isHexDigit_of_mem_hex4 _ _ hm) (by decide)
  obtain ⟨hquiet, hfresh⟩ := (headOf d hidentifier).quiet_body
  have htext : line d = declarationWord ++ ((headOf d hidentifier).body ++
      ((d.lead ++ (Text.hex4 d.code ++ ['"'])) ++ "\r\n".toList)) := by
    rw [line_eq d hidentifier, DefinitionHead.text]
    simp only [List.append_assoc]
    rfl
  have htail : Quiet false ((d.lead ++ (Text.hex4 d.code ++ ['"'])) ++ "\r\n".toList) :=
    quiet_append (quiet_of_not_mem hline) (quiet_of_hash_not_mem (by decide))
  rw [htext, all_declaration (quiet_append hquiet (by rw [hfresh]; exact htail)), ← htext,
    at?_of_read (read_line_of_read hidentifier hvalue)]

theorem newline_not_mem_lead {lead : Text} (h : ∀ c ∈ lead, isWhite c = false) : '\n' ∉ lead :=
  fun hm => absurd (h _ hm) (by decide)

/-- A written line reads back as its definition. -/
theorem all_line {d : Definition} (hidentifier : IsIdentifier d.identifier) (hlead : IsLead d.lead) :
    all (line d) = [d] := by
  rw [all_line_of_read hidentifier (newline_not_mem_lead hlead.1)
    (read_anyCode_append hlead d.code _), ofParts?_hex4]
  rfl

/-! ## A byte order mark -/

theorem lineStarts_sublist (s : Text) : (lineStarts false s).Sublist (lineStarts true s) := by
  cases s with
  | nil => exact List.Sublist.refl _
  | cons c s =>
    rw [lineStarts_cons, lineStarts_cons]
    exact List.sublist_append_right _ _

/-- A text has at least the definitions that it has behind a byte order mark. -/
theorem all_cons_sublist {c : Char} (hsharp : c ≠ '#') (hfeed : c ≠ '\n') (s : Text) :
    (all (c :: s)).Sublist (all s) := by
  have hat : at? (c :: s) = none := by
    refine at?_eq_none_of_not_prefix ?_
    rintro ⟨t, ht⟩
    exact hsharp (List.cons.inj ht).1.symm
  have hfresh : (c == '\n') = false := beq_eq_false_iff_ne.mpr hfeed
  rw [all_eq, all_eq, lineStarts_cons, hfresh, if_pos rfl, List.filterMap_append,
    List.filterMap_cons_none hat]
  exact (lineStarts_sublist s).filterMap at?

end FirmwareIds.Definition
