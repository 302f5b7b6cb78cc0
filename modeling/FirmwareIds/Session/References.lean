import FirmwareIds.Form.Reference

/-!
# The table of references

A session keeps the first reference to each token, in the order they were met, and beside them an index
that gives each of these tokens its place, so that the reference which a later one comes up against is
looked up and not searched. The table carries that list and index are in step: a place in the index is
always one in the list, and searching the list finds the same (`ReferenceTable.first?_eq_find?`).
-/

namespace FirmwareIds

/-- What is put behind a list stands at its length, and everything else where it stood. -/
theorem getElem?_concat_eq_some_iff {α : Type} {l : List α} {a b : α} {n : Nat} :
    (l ++ [a])[n]? = some b ↔ l[n]? = some b ∨ n = l.length ∧ b = a := by
  rcases Nat.lt_trichotomy n l.length with hlt | rfl | hgt
  · simp [List.getElem?_append_left hlt, Nat.ne_of_lt hlt]
  · simp [eq_comm]
  · have hout : (l ++ [a]).length ≤ n := by
      rw [List.length_append]
      exact hgt
    simp [List.getElem?_eq_none hout, List.getElem?_eq_none (Nat.le_of_lt hgt), Nat.ne_of_gt hgt]

namespace ReferenceTable

/-- The index gives exactly the tokens of the references, each with its place. -/
def InStep (references : List Reference) (index : List (Text × Nat)) : Prop :=
  ∀ token place, index.lookup token = some place ↔
    ∃ r, references[place]? = some r ∧ r.token = token

variable {references : List Reference} {index : List (Text × Nat)} {token : Text} {r : Reference}

theorem inStep_nil : InStep [] [] := by
  intro token place
  simp

/-- A token that the index does not know has no reference. -/
theorem InStep.token_ne (h : InStep references index) (hnone : index.lookup token = none)
    (hr : r ∈ references) : r.token ≠ token := by
  intro htoken
  obtain ⟨place, hplace⟩ := List.mem_iff_getElem?.mp hr
  rw [(h token place).mpr ⟨r, hplace, htoken⟩] at hnone
  cases hnone

/-- A reference to a token that the index does not know goes to the end of both. -/
theorem InStep.concat (h : InStep references index) (hnone : index.lookup r.token = none) :
    InStep (references ++ [r]) ((r.token, references.length) :: index) := by
  intro token place
  simp only [getElem?_concat_eq_some_iff]
  by_cases htoken : token = r.token
  · subst htoken
    rw [List.lookup_cons_self, Option.some.injEq]
    constructor
    · rintro rfl
      exact ⟨r, Or.inr ⟨rfl, rfl⟩, rfl⟩
    · rintro ⟨r', hr' | ⟨rfl, -⟩, hsame⟩
      · exact absurd hsame (h.token_ne hnone (List.mem_of_getElem? hr'))
      · rfl
  · rw [List.lookup_cons, beq_eq_false_iff_ne.mpr htoken]
    refine (h token place).trans (exists_congr fun r' => and_congr_left fun hr' => ?_)
    refine (or_iff_left ?_).symm
    rintro ⟨-, rfl⟩
    exact htoken hr'.symm

end ReferenceTable

/-- The first references to some tokens, with an index of the tokens. -/
structure ReferenceTable where
  references : List Reference
  /-- The place of each token, those that were met last first. -/
  index : List (Text × Nat)
  inStep : ReferenceTable.InStep references index
  deriving DecidableEq

namespace ReferenceTable

/-- The table before any reference. -/
def empty : ReferenceTable := ⟨[], [], inStep_nil⟩

/-- The reference to a token, by the index. -/
def first? (T : ReferenceTable) (token : Text) : Option Reference :=
  (T.index.lookup token).bind fun place => T.references[place]?

theorem first?_eq_none_iff {T : ReferenceTable} {token : Text} :
    T.first? token = none ↔ T.index.lookup token = none := by
  unfold first?
  cases hlookup : T.index.lookup token with
  | none => simp
  | some place =>
    obtain ⟨r, hr, -⟩ := (T.inStep token place).mp hlookup
    simp [hr]

/-- The table with a reference to one more token. -/
def add (T : ReferenceTable) (r : Reference) (hnew : T.first? r.token = none) : ReferenceTable where
  references := T.references ++ [r]
  index := (r.token, T.references.length) :: T.index
  inStep := T.inStep.concat (first?_eq_none_iff.mp hnew)

/-- The index finds what a search of the list finds first. -/
theorem first?_eq_find? (T : ReferenceTable) (token : Text) :
    T.first? token = T.references.find? (·.token = token) := by
  unfold first?
  symm
  cases hlookup : T.index.lookup token with
  | none =>
    apply List.find?_eq_none.mpr
    intro r hr
    simpa using T.inStep.token_ne hlookup hr
  | some place =>
    obtain ⟨r, hr, htoken⟩ := (T.inStep token place).mp hlookup
    obtain ⟨hlt, hget⟩ := List.getElem?_eq_some_iff.mp hr
    rw [Option.bind_some, hr]
    refine List.find?_eq_some_iff_getElem.mpr ⟨decide_eq_true htoken, place, hlt, hget, ?_⟩
    intro before hbefore
    -- the token has one place only
    have hne : T.references[before].token ≠ token := by
      intro hsame
      have hlookup' := (T.inStep token before).mpr ⟨_, List.getElem?_eq_getElem _, hsame⟩
      rw [hlookup] at hlookup'
      exact Nat.ne_of_gt hbefore (Option.some.inj hlookup')
    simpa using hne

end ReferenceTable

end FirmwareIds
