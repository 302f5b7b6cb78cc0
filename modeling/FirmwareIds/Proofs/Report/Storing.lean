import FirmwareIds.Proofs.Json.Loosening

/-!
# Stored reports

A report is written as an object of objects, and read again it is the same report. Each of the four
records has a statement of its own for that (`ofJson?_toJson`), and a statement that its reader is
tolerant: keys in another order and unknown keys, in any of the objects, make no difference.

Reading accepts more than writing produces, such as an array in place of an object. What it accepts gives
a report with counts in range, so it can be stored (`survives_storing`).
-/

namespace FirmwareIds

open Json

namespace Assignment

def shape : Shape :=
  .record [("identifier".toList, .whole), ("code".toList, .whole), ("path".toList, .whole)]

theorem ofJson?_toJson (a : Assignment) : ofJson? a.toJson = some a := by
  have hcode : (Json.ofNat a.code.toNat).natBelow? 65536 = some a.code.toNat :=
    if_pos a.code.toNat_lt
  show (do
    let code ← (Json.ofNat a.code.toNat).natBelow? 65536
    return (⟨a.identifier, code.toUInt16, a.path⟩ : Assignment)) = some a
  rw [hcode]
  show some (⟨a.identifier, a.code.toNat.toUInt16, a.path⟩ : Assignment) = some a
  simp

theorem tolerant_ofJson? : Tolerant shape ofJson? := by
  refine tolerant_record? _ fun field? field?' h => ?_
  rw [h.required_eq (tolerant_whole _) rfl, h.required_eq (tolerant_whole _) rfl,
    h.required_eq (tolerant_whole _) rfl]

end Assignment

namespace Removal

def shape : Shape := .record [("path".toList, .whole), ("language".toList, .whole)]

theorem ofJson?_toJson (r : Removal) : ofJson? r.toJson = some r := rfl

theorem tolerant_ofJson? : Tolerant shape ofJson? := by
  refine tolerant_record? _ fun field? field?' h => ?_
  rw [h.required_eq (tolerant_whole _) rfl, h.required_eq (tolerant_whole _) rfl]

end Removal

theorem Severity.ofJson?_word (severity : Severity) :
    ofJson? (.string severity.word) = some severity := by
  cases severity <;> rfl

theorem IssueKind.mem_all (kind : IssueKind) : kind ∈ all := by
  cases kind <;> decide

theorem IssueKind.ofJson?_word (kind : IssueKind) : ofJson? (.string kind.word) = some kind := by
  have hall : ∀ kind ∈ all, ofWord? kind.word = some kind := by decide +kernel
  exact hall kind kind.mem_all

namespace Issue

def shape : Shape :=
  .record [("kind".toList, .whole), ("severity".toList, .whole), ("subject".toList, .whole),
    ("paths".toList, .list .whole), ("message".toList, .whole)]

/-- What an issue is written from. -/
def parts (i : Issue) : List (Text × Option Json) :=
  [("kind".toList, some (.string i.kind.word)), ("severity".toList, some (.string i.severity.word)),
    ("subject".toList, some (.string i.subject)),
    ("paths".toList, listed? (fun p : Path => .string p.text) i.paths),
    ("message".toList, some (.string i.message))]

theorem toJson_eq (i : Issue) : i.toJson = .object (present i.parts) := by
  unfold toJson parts
  rw [unlessEmpty_eq]
  simp only [present_cons, Option.map_some, Option.toList_some, List.cons_append, List.nil_append]
  rfl

theorem ofJson?_toJson (i : Issue) : ofJson? i.toJson = some i := by
  have hnames : (i.parts.map Prod.fst).Nodup :=
    show ["kind".toList, "severity".toList, "subject".toList, "paths".toList, "message".toList].Nodup by
      decide
  have hkind : required (lookup (present i.parts)) "kind" IssueKind.ofJson? = some i.kind :=
    required_present hnames (List.mem_of_getElem? (i := 0) rfl) (IssueKind.ofJson?_word _)
  have hseverity : required (lookup (present i.parts)) "severity" Severity.ofJson? = some i.severity :=
    required_present hnames (List.mem_of_getElem? (i := 1) rfl) (Severity.ofJson?_word _)
  have hsubject : required (lookup (present i.parts)) "subject" text? = some i.subject :=
    required_present hnames (List.mem_of_getElem? (i := 2) rfl) rfl
  have hpaths : listOrEmpty (lookup (present i.parts)) "paths" Path.ofJson? = some i.paths :=
    listOrEmpty_present hnames (List.mem_of_getElem? (i := 3) rfl) fun _ _ => rfl
  have hmessage : required (lookup (present i.parts)) "message" text? = some i.message :=
    required_present hnames (List.mem_of_getElem? (i := 4) rfl) rfl
  rw [toJson_eq]
  simp only [ofJson?, record?, hkind, hseverity, hsubject, hpaths, hmessage, Option.bind_eq_bind,
    Option.bind_some, Option.pure_def]

theorem tolerant_ofJson? : Tolerant shape ofJson? := by
  refine tolerant_record? _ fun field? field?' h => ?_
  rw [h.required_eq (tolerant_whole _) rfl, h.required_eq (tolerant_whole _) rfl,
    h.required_eq (tolerant_whole _) rfl, h.listOrEmpty_eq (tolerant_whole _) rfl,
    h.required_eq (tolerant_whole _) rfl]

end Issue

namespace Report

def shape : Shape :=
  .record [("target".toList, .whole), ("resource_files".toList, .whole), ("form_files".toList, .whole),
    ("existing_entries".toList, .whole), ("referenced_tokens".toList, .whole),
    ("allocated".toList, .list Assignment.shape), ("relocated_definitions".toList, .whole),
    ("removed_languages".toList, .list Removal.shape), ("rewritten".toList, .list .whole),
    ("issues".toList, .list Issue.shape)]

/-- The counts of the report have sixty-four bits. -/
structure Counted (r : Report) : Prop where
  resourceCount_lt : r.resourceCount < Nat.pow 2 64
  formCount_lt : r.formCount < Nat.pow 2 64
  entryCount_lt : r.entryCount < Nat.pow 2 64
  tokenCount_lt : r.tokenCount < Nat.pow 2 64
  movedDefinitions_lt : r.movedDefinitions < Nat.pow 2 64

theorem count?_ofNat {n : Nat} (h : n < Nat.pow 2 64) : count? (.ofNat n) = some n := if_pos h

/-- What a report is written from. -/
def parts (r : Report) : List (Text × Option Json) :=
  [("target".toList, some (.string r.target.text)),
    ("resource_files".toList, some (.ofNat r.resourceCount)),
    ("form_files".toList, some (.ofNat r.formCount)),
    ("existing_entries".toList, some (.ofNat r.entryCount)),
    ("referenced_tokens".toList, some (.ofNat r.tokenCount)),
    ("allocated".toList, listed? Assignment.toJson r.assigned),
    ("relocated_definitions".toList, some (.ofNat r.movedDefinitions)),
    ("removed_languages".toList, listed? Removal.toJson r.removals),
    ("rewritten".toList, listed? (fun p : Path => .string p.text) r.written),
    ("issues".toList, listed? Issue.toJson r.issues)]

theorem toJson_eq (r : Report) : r.toJson = .object (present r.parts) := by
  unfold toJson parts
  simp only [unlessEmpty_eq, present_cons, Option.map_some, Option.toList_some, List.cons_append,
    List.nil_append, List.append_assoc]
  rw [show present [] = [] from rfl, List.append_nil]

theorem ofJson?_toJson {r : Report} (h : r.Counted) : ofJson? r.toJson = some r := by
  have hnames : (r.parts.map Prod.fst).Nodup := show fieldNames.Nodup by decide +kernel
  have htarget : required (lookup (present r.parts)) "target" Path.ofJson? = some r.target :=
    required_present hnames (List.mem_of_getElem? (i := 0) rfl) rfl
  have hresource : required (lookup (present r.parts)) "resource_files" count? = some r.resourceCount :=
    required_present hnames (List.mem_of_getElem? (i := 1) rfl) (count?_ofNat h.resourceCount_lt)
  have hform : required (lookup (present r.parts)) "form_files" count? = some r.formCount :=
    required_present hnames (List.mem_of_getElem? (i := 2) rfl) (count?_ofNat h.formCount_lt)
  have hentry : required (lookup (present r.parts)) "existing_entries" count? = some r.entryCount :=
    required_present hnames (List.mem_of_getElem? (i := 3) rfl) (count?_ofNat h.entryCount_lt)
  have htoken : required (lookup (present r.parts)) "referenced_tokens" count? = some r.tokenCount :=
    required_present hnames (List.mem_of_getElem? (i := 4) rfl) (count?_ofNat h.tokenCount_lt)
  have hassigned : listOrEmpty (lookup (present r.parts)) "allocated" Assignment.ofJson? =
      some r.assigned :=
    listOrEmpty_present hnames (List.mem_of_getElem? (i := 5) rfl) fun a _ => a.ofJson?_toJson
  have hmoved : required (lookup (present r.parts)) "relocated_definitions" count? =
      some r.movedDefinitions :=
    required_present hnames (List.mem_of_getElem? (i := 6) rfl) (count?_ofNat h.movedDefinitions_lt)
  have hremovals : listOrEmpty (lookup (present r.parts)) "removed_languages" Removal.ofJson? =
      some r.removals :=
    listOrEmpty_present hnames (List.mem_of_getElem? (i := 7) rfl) fun a _ => a.ofJson?_toJson
  have hwritten : listOrEmpty (lookup (present r.parts)) "rewritten" Path.ofJson? = some r.written :=
    listOrEmpty_present hnames (List.mem_of_getElem? (i := 8) rfl) fun _ _ => rfl
  have hissues : listOrEmpty (lookup (present r.parts)) "issues" Issue.ofJson? = some r.issues :=
    listOrEmpty_present hnames (List.mem_of_getElem? (i := 9) rfl) fun i _ => i.ofJson?_toJson
  rw [toJson_eq]
  simp only [ofJson?, record?, htarget, hresource, hform, hentry, htoken, hassigned, hmoved, hremovals,
    hwritten, hissues, Option.bind_eq_bind, Option.bind_some, Option.pure_def]

/-- What is read is in range. -/
theorem counted_of_ofJson? {j : Json} {r : Report} (h : ofJson? j = some r) : r.Counted := by
  have hcount : ∀ {field? : Text → Option Json} {name : String} {n : Nat},
      required field? name count? = some n → n < Nat.pow 2 64 := by
    intro field? name n hn
    obtain ⟨j, -, hj⟩ := Option.bind_eq_some_iff.mp hn
    exact lt_of_natBelow? hj
  obtain ⟨field?, -, h⟩ := Option.bind_eq_some_iff.mp h
  obtain ⟨target, -, h⟩ := Option.bind_eq_some_iff.mp h
  obtain ⟨resourceCount, hresource, h⟩ := Option.bind_eq_some_iff.mp h
  obtain ⟨formCount, hform, h⟩ := Option.bind_eq_some_iff.mp h
  obtain ⟨entryCount, hentry, h⟩ := Option.bind_eq_some_iff.mp h
  obtain ⟨tokenCount, htoken, h⟩ := Option.bind_eq_some_iff.mp h
  obtain ⟨assigned, -, h⟩ := Option.bind_eq_some_iff.mp h
  obtain ⟨moved, hmoved, h⟩ := Option.bind_eq_some_iff.mp h
  obtain ⟨removals, -, h⟩ := Option.bind_eq_some_iff.mp h
  obtain ⟨written, -, h⟩ := Option.bind_eq_some_iff.mp h
  obtain ⟨issues, -, h⟩ := Option.bind_eq_some_iff.mp h
  cases h
  exact ⟨hcount hresource, hcount hform, hcount hentry, hcount htoken, hcount hmoved⟩

theorem tolerant_ofJson? : Tolerant shape ofJson? := by
  refine tolerant_record? _ fun field? field?' h => ?_
  rw [h.required_eq (tolerant_whole _) rfl, h.required_eq (tolerant_whole _) rfl,
    h.required_eq (tolerant_whole _) rfl, h.required_eq (tolerant_whole _) rfl,
    h.required_eq (tolerant_whole _) rfl, h.listOrEmpty_eq Assignment.tolerant_ofJson? rfl,
    h.required_eq (tolerant_whole _) rfl, h.listOrEmpty_eq Removal.tolerant_ofJson? rfl,
    h.listOrEmpty_eq (tolerant_whole _) rfl, h.listOrEmpty_eq Issue.tolerant_ofJson? rfl]

/-- A report is read from its value again, however that was loosened; and what is read from any value is
read again from the value it is then written as. -/
theorem survives_storing :
    (∀ r : Report, r.Counted → ∀ j, Loosened shape r.toJson j → ofJson? j = some r) ∧
      ∀ (j : Json) (r : Report), ofJson? j = some r → r.Counted ∧ ofJson? r.toJson = some r := by
  refine ⟨fun r hr j hloosened => ?_, fun j r hread => ?_⟩
  · rw [tolerant_ofJson? hloosened, ofJson?_toJson hr]
  · have hr := counted_of_ofJson? hread
    exact ⟨hr, ofJson?_toJson hr⟩

/-- A report with an issue that names no file. -/
def oneIssue : Report where
  target := ⟨"u.uni".toList⟩
  assigned := [⟨"STR_A".toList, 0xFFFF, ⟨"u.uni".toList⟩⟩]
  issues := [⟨.notSaved, .error, "u.uni".toList, [], []⟩]

/-- The fields of its value, with one more field in the issue. -/
def oneIssueFields : List (Text × Json) :=
  [("target".toList, .string "u.uni".toList), ("resource_files".toList, .ofNat 0),
    ("form_files".toList, .ofNat 0), ("existing_entries".toList, .ofNat 0),
    ("referenced_tokens".toList, .ofNat 0),
    ("allocated".toList, .array (oneIssue.assigned.map Assignment.toJson)),
    ("relocated_definitions".toList, .ofNat 0),
    ("issues".toList, .array [.object [("kind".toList, .string "file_write_failure".toList),
      ("code".toList, .null), ("severity".toList, .string "error".toList),
      ("subject".toList, .string "u.uni".toList), ("message".toList, .string [])]])]

/-- It is read with these fields from the last to the first. -/
theorem oneIssue_stored :
    oneIssue.Counted ∧ Loosened shape oneIssue.toJson (.object oneIssueFields.reverse) ∧
      ofJson? (.object oneIssueFields.reverse) = some oneIssue ∧
      ofJson? oneIssue.toJson = some oneIssue := by
  have hcounted : oneIssue.Counted := ⟨by decide, by decide, by decide, by decide, by decide⟩
  have hissue : Loosened Issue.shape
      (.object [("kind".toList, .string "file_write_failure".toList),
        ("severity".toList, .string "error".toList), ("subject".toList, .string "u.uni".toList),
        ("message".toList, .string [])])
      (.object [("kind".toList, .string "file_write_failure".toList), ("code".toList, .null),
        ("severity".toList, .string "error".toList), ("subject".toList, .string "u.uni".toList),
        ("message".toList, .string [])]) :=
    .extra (by decide +kernel) .null [_] [_, _, _]
  have hfields : Loosened shape oneIssue.toJson (.object oneIssueFields) :=
    .field rfl (.item hissue [] []) (oneIssueFields.take 7) []
  have hnames : (oneIssueFields.map Prod.fst).Nodup := by decide +kernel
  have hloosened := hfields.trans (.of_perm hnames (List.reverse_perm _).symm)
  have hread := survives_storing.1 oneIssue hcounted _ hloosened
  exact ⟨hcounted, hloosened, hread, (survives_storing.2 _ _ hread).2⟩

end Report

end FirmwareIds
