import FirmwareIds.Proofs.Resource.Rereading

/-!
# Lines put behind a text

Definitions are written behind a text one after the other. The text may be anything: it may lack a line
end, or break off in the middle of a declaration. Still it is read as before, and behind it the new
lines are read as they are alone, since each of them begins on a line of its own (`readings_append`).

So what the lines add is exactly the definitions that they were written for, if every one of these can
be read back; and only then, since a line holds one definition at most
(`lines_read_back_behind_text_iff`). The lead of the text is that of its first definition, and a text
without one takes it from the first line.
-/

namespace FirmwareIds

theorem length_flatMap_le {α β : Type} {f : α → List β} {l : List α}
    (hfew : ∀ a ∈ l, (f a).length ≤ 1) : (l.flatMap f).length ≤ l.length := by
  induction l with
  | nil => exact Nat.le_refl 0
  | cons a l ih =>
    obtain ⟨ha, hl⟩ := List.forall_mem_cons.mp hfew
    have hrest := ih hl
    rw [List.flatMap_cons, List.length_append, List.length_cons]
    omega

/-- Where each element of a list gives way to one at most, and the list is the same afterwards, every
element stays. -/
theorem eq_singleton_of_flatMap_eq {α : Type} {f : α → List α} {l : List α}
    (hfew : ∀ a ∈ l, (f a).length ≤ 1) (h : l.flatMap f = l) : ∀ a ∈ l, f a = [a] := by
  induction l with
  | nil =>
    intro a ha
    cases ha
  | cons b l ih =>
    obtain ⟨hb, hl⟩ := List.forall_mem_cons.mp hfew
    rw [List.flatMap_cons] at h
    have hrest := length_flatMap_le hl
    have hone : f b = [b] := by
      have hlength := congrArg List.length h
      rw [List.length_append, List.length_cons] at hlength
      have hpos : (f b).length = 1 := by omega
      obtain ⟨c, hc⟩ := List.length_eq_one_iff.mp hpos
      rw [hc, List.singleton_append] at h
      rw [hc, (List.cons.inj h).1]
    rw [hone, List.singleton_append] at h
    exact List.forall_mem_cons.mpr ⟨hone, ih hl (List.cons.inj h).2⟩

namespace Definition

open Pattern Resource

/-! ## Reading the lines back -/

/-- A written line holds one definition at most. -/
theorem length_all_line_le {d : Definition} (hidentifier : IsIdentifier d.identifier)
    (hwhite : ∀ c ∈ d.lead, isWhite c = false) (hlength : d.lead.length = 1 ∨ d.lead.length = 2) :
    (all (line d)).length ≤ 1 := by
  by_cases hlead : IsLead d.lead
  · rw [all_line hidentifier hlead]
    exact Nat.le_refl 1
  · -- the second character of the lead is a digit
    have htwo : d.lead.length = 2 := hlength.resolve_left fun hone => hlead ⟨hwhite, Or.inl hone⟩
    obtain ⟨identifier, lead, code⟩ := d
    obtain ⟨first, second, rfl⟩ := List.length_eq_two.mp htwo
    cases hsecond : isHexDigit second with
    | false =>
      exact absurd ⟨hwhite, Or.inr ⟨htwo, fun c hc => Option.some.inj hc ▸ hsecond⟩⟩ hlead
    | true =>
      rw [all_line_of_digit hidentifier (hwhite first (List.mem_cons_self ..)) hsecond]
      exact Option.length_toList_le

/-- The lines of some definitions read back as these, behind any text, if and only if each of them can
be read back. -/
theorem lines_read_back_behind_text_iff (buffer : Text) (ds : List Definition) :
    all ((ds.map line).foldl append buffer) = all buffer ++ ds ↔
      ∀ d ∈ ds, IsIdentifier d.identifier ∧ IsLead d.lead := by
  have hall : all ((ds.map line).foldl append buffer) =
      all buffer ++ ds.flatMap fun d => all (line d) := by
    rw [all_foldl_append fun _ => prefix_of_mem_lines, List.flatMap_map]
  rw [hall, List.append_cancel_left_eq]
  constructor
  · intro h d hd
    have hfew : ∀ d ∈ ds, (all (line d)).length ≤ 1 := by
      intro d hd
      -- the definition was read from one of the lines
      rw [← h] at hd
      obtain ⟨d', -, hmem⟩ := List.mem_flatMap.mp hd
      obtain ⟨hidentifier, hwhite, hlength⟩ := parts_of_mem_all hmem
      exact length_all_line_le hidentifier hwhite hlength
    exact of_all_line (eq_singleton_of_flatMap_eq hfew h d hd)
  · intro h
    calc ds.flatMap (fun d => all (line d))
        = ds.flatMap fun d => [d] := List.flatMap_congr fun d hd => all_line (h d hd).1 (h d hd).2
      _ = ds := List.flatMap_singleton' ds

/-! ## The lead -/

theorem firstLead?_eq (s : Text) :
    firstLead? s = (definition.cut .lineStart s).readings.head?.map fun x => x.2.lead := by
  unfold firstLead?
  rw [first?_eq, Option.map_map]
  rfl

/-- A line put behind a text gives it a lead if it has none. -/
theorem firstLead?_append {line : Text} (hline : declarationWord <+: line) (buffer : Text) :
    firstLead? (append buffer line) = (firstLead? buffer).or (firstLead? line) := by
  rw [firstLead?_eq, firstLead?_eq, firstLead?_eq, readings_append hline, List.head?_append]
  cases (definition.cut .lineStart buffer).readings.head? <;> rfl

/-- The lead of a text is that of the definition at its front. -/
theorem firstLead?_of_read {s : Text} {r : Reading DefinitionParts}
    (h : definition.read s = some r) : firstLead? s = some r.note.lead := by
  have hstarts : ∃ later, lineStarts true s = s :: later := by
    cases s with
    | nil => exact absurd (declares_definition.prefix_of_read h) (by decide)
    | cons c s => exact ⟨_, lineStarts_cons true c s⟩
  obtain ⟨later, hlater⟩ := hstarts
  have hreading : definition.readingAt s = some (r.taken, r.note) := by
    unfold readingAt
    rw [h]
    rfl
  rw [firstLead?_eq, readings_eq, hlater, List.filterMap_cons_some hreading]
  rfl

theorem firstLead?_line {d : Definition} (hidentifier : IsIdentifier d.identifier)
    (hlead : IsLead d.lead) : firstLead? (line d) = some d.lead :=
  firstLead?_of_read (read_line_of_read hidentifier (read_anyCode_append hlead d.code _))

/-- Behind a text with a lead, lines change nothing of it. -/
theorem firstLead?_foldl_append {lines : List Text} (hlines : ∀ l ∈ lines, declarationWord <+: l)
    {buffer lead : Text} (h : firstLead? buffer = some lead) :
    firstLead? (lines.foldl append buffer) = some lead := by
  induction lines generalizing buffer with
  | nil => exact h
  | cons l lines ih =>
    obtain ⟨hl, hrest⟩ := List.forall_mem_cons.mp hlines
    apply ih hrest
    rw [firstLead?_append hl, h]
    rfl

/-- Definitions that are written behind a text, line by line, are added to those of the text, and the
text keeps its lead. If it has none, it gets that of the first of them. -/
theorem written_behind_text {ds : List Definition}
    (h : ∀ d ∈ ds, IsIdentifier d.identifier ∧ IsLead d.lead) (buffer : Text) :
    all ((ds.map line).foldl append buffer) = all buffer ++ ds ∧
      firstLead? ((ds.map line).foldl append buffer) =
        (firstLead? buffer).or (ds.head?.map Definition.lead) := by
  refine ⟨(lines_read_back_behind_text_iff buffer ds).mpr h, ?_⟩
  cases hbuffer : firstLead? buffer with
  | some lead => exact firstLead?_foldl_append (fun _ => prefix_of_mem_lines) hbuffer
  | none =>
    cases ds with
    | nil => exact hbuffer
    | cons d ds =>
      obtain ⟨⟨hidentifier, hlead⟩, -⟩ := List.forall_mem_cons.mp h
      show firstLead? ((ds.map line).foldl append (append buffer (line d))) = _
      apply firstLead?_foldl_append fun _ => prefix_of_mem_lines
      rw [firstLead?_append (prefix_line d), hbuffer, firstLead?_line hidentifier hlead]
      rfl

/-- A text that breaks off before the value of a definition. -/
def brokenOff : Text := "#langdef en-US \"English\"\r\n#string STR_A #language uqi".toList

/-- Two definitions, with leads of one and of two characters. -/
def twoDefinitions : List Definition :=
  [⟨"STR_B".toList, "x".toList, 0x00A2⟩, ⟨"STR_C".toList, "\\x".toList, 0xFFFF⟩]

theorem twoDefinitions_behind_brokenOff :
    (∀ d ∈ twoDefinitions, IsIdentifier d.identifier ∧ IsLead d.lead) ∧
      all ((twoDefinitions.map line).foldl append brokenOff) = twoDefinitions ∧
      firstLead? ((twoDefinitions.map line).foldl append brokenOff) = some "x".toList := by
  have h : ∀ d ∈ twoDefinitions, IsIdentifier d.identifier ∧ IsLead d.lead := by
    intro d hd
    apply (all_line_iff d).mp
    revert d
    decide +kernel
  obtain ⟨hall, hlead⟩ := written_behind_text h brokenOff
  have hnone : all brokenOff = [] ∧ firstLead? brokenOff = none := by decide +kernel
  rw [hnone.1] at hall
  rw [hnone.2] at hlead
  exact ⟨h, hall, hlead⟩

end Definition

end FirmwareIds
