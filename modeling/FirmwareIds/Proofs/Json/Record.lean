import FirmwareIds.Report.Json

/-!
# Fields of records

A record is written as an object from its parts, and a part that says nothing is left out. What is found
under a name is then the part of that name, or nothing if it was left out (`lookup_present`). So a field
that must be there is read as it was written, and a list that is left out is read as the empty list.
-/

namespace FirmwareIds.Json

variable {α : Type}

theorem lookup_cons (field : Text × Json) (rest : List (Text × Json)) (name : Text) :
    lookup (field :: rest) name = if field.1 = name then some field.2 else lookup rest name := by
  unfold lookup
  rw [List.find?_cons]
  by_cases h : field.1 = name
  · rw [if_pos h, beq_iff_eq.mpr h]
    rfl
  · rw [if_neg h, beq_eq_false_iff_ne.mpr h]

theorem lookup_append (fields more : List (Text × Json)) (name : Text) :
    lookup (fields ++ more) name = (lookup fields name).or (lookup more name) := by
  unfold lookup
  rw [List.find?_append, Option.map_or]

theorem lookup_eq_none {fields : List (Text × Json)} {name : Text}
    (h : name ∉ fields.map Prod.fst) : lookup fields name = none := by
  induction fields with
  | nil => rfl
  | cons field rest ih =>
    obtain ⟨hne, hrest⟩ := List.ne_and_not_mem_of_not_mem_cons h
    rw [lookup_cons, if_neg hne.symm, ih hrest]

theorem lt_of_natBelow? {bound n : Nat} {j : Json} (h : j.natBelow? bound = some n) : n < bound := by
  unfold natBelow? at h
  split at h
  · split at h
    · next hlt =>
      cases h
      exact hlt
    · cases h
  · cases h

/-! ## Parts that may be left out -/

/-- The fields of an object, without the parts that say nothing. -/
def present (parts : List (Text × Option Json)) : List (Text × Json) :=
  parts.filterMap fun part => part.2.map (part.1, ·)

/-- A list as a part that is left out if the list is empty. -/
def listed? (write : α → Json) (items : List α) : Option Json :=
  if items.isEmpty then none else some (.array (items.map write))

theorem present_cons (name : Text) (value? : Option Json) (parts : List (Text × Option Json)) :
    present ((name, value?) :: parts) = (value?.map (name, ·)).toList ++ present parts := by
  unfold present
  rw [List.filterMap_cons]
  cases value? <;> rfl

theorem unlessEmpty_eq (name : String) (write : α → Json) (items : List α) :
    unlessEmpty name write items = ((listed? write items).map (name.toList, ·)).toList := by
  unfold unlessEmpty listed?
  split <;> rfl

theorem names_present_sublist (parts : List (Text × Option Json)) :
    ((present parts).map Prod.fst).Sublist (parts.map Prod.fst) := by
  induction parts with
  | nil => exact .slnil
  | cons part parts ih =>
    obtain ⟨name, value?⟩ := part
    rw [present_cons, List.map_append]
    cases value? with
    | none => exact ih.cons name
    | some value => exact ih.cons_cons name

theorem lookup_present {parts : List (Text × Option Json)} (hnames : (parts.map Prod.fst).Nodup)
    {name : Text} {value? : Option Json} (h : (name, value?) ∈ parts) :
    lookup (present parts) name = value? := by
  induction parts with
  | nil => cases h
  | cons part parts ih =>
    obtain ⟨hnew, hrest⟩ := List.nodup_cons.mp hnames
    rcases List.mem_cons.mp h with rfl | hmem
    · rw [present_cons]
      cases value? with
      | none => exact lookup_eq_none fun hin => hnew ((names_present_sublist parts).subset hin)
      | some value => exact (lookup_cons ..).trans (if_pos rfl)
    · have hne : part.1 ≠ name := fun he => hnew (he ▸ List.mem_map_of_mem hmem)
      obtain ⟨other, other?⟩ := part
      rw [present_cons]
      cases other? with
      | none => exact ih hrest hmem
      | some value => exact (lookup_cons ..).trans ((if_neg hne).trans (ih hrest hmem))

variable {parts : List (Text × Option Json)} {name : String}

theorem required_present (hnames : (parts.map Prod.fst).Nodup) {value : Json}
    (h : (name.toList, some value) ∈ parts) {read : Json → Option α} {a : α}
    (hread : read value = some a) :
    required (lookup (present parts)) name read = some a := by
  unfold required
  rw [lookup_present hnames h]
  exact hread

theorem mapM_map_of_forall {read : Json → Option α} {write : α → Json} {items : List α}
    (h : ∀ a ∈ items, read (write a) = some a) : (items.map write).mapM read = some items := by
  induction items with
  | nil => rfl
  | cons a items ih =>
    obtain ⟨ha, hitems⟩ := List.forall_mem_cons.mp h
    rw [List.map_cons, List.mapM_cons, ha, ih hitems]
    rfl

theorem listOrEmpty_present (hnames : (parts.map Prod.fst).Nodup) {write : α → Json} {items : List α}
    (h : (name.toList, listed? write items) ∈ parts) {read : Json → Option α}
    (hread : ∀ a ∈ items, read (write a) = some a) :
    listOrEmpty (lookup (present parts)) name read = some items := by
  unfold listOrEmpty
  rw [lookup_present hnames h]
  unfold listed?
  cases items with
  | nil => rfl
  | cons a items => exact mapM_map_of_forall hread

end FirmwareIds.Json
