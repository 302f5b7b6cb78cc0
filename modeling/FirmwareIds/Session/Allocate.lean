import FirmwareIds.Session.Basic

/-!
# Assigning codes

The tokens that wait for a code get the codes above the highest one known, in the order of the
queue. A code has sixteen bits: if one token of the queue would get none, no token gets one.
-/

namespace FirmwareIds.Session

/-- The number of codes. -/
def codeSpace : Nat := 65536

/-- The code above all codes known. -/
def nextCode (s : Session) : Nat := s.entries.foldr (fun e n => max (e.code.toNat + 1) n) 0

/-- All codes known are below the next one. -/
theorem code_lt_nextCode {s : Session} {e : Assignment} (h : e ∈ s.entries) :
    e.code.toNat < s.nextCode := by
  unfold nextCode
  generalize s.entries = es at h ⊢
  induction es with
  | nil => cases h
  | cons x xs ih =>
    rw [List.foldr_cons]
    rcases List.mem_cons.mp h with rfl | h
    · exact Nat.le_max_left ..
    · exact Nat.lt_of_lt_of_le (ih h) (Nat.le_max_right ..)

/-- No code is above the highest one, so the next one is at most the number of codes. -/
theorem nextCode_le (s : Session) : s.nextCode ≤ codeSpace := by
  unfold nextCode
  induction s.entries with
  | nil => exact Nat.zero_le _
  | cons x xs ih =>
    have hx := x.code.toNat_lt
    rw [List.foldr_cons]
    exact Nat.max_le.mpr ⟨hx, ih⟩

/-- The lead for new codes: the one that the list of codes uses, else the one that is asked for,
else the usual one. -/
def leadFor (s : Session) (lead? : Option Text) : Text :=
  (Definition.firstLead? s.target.content.text).getD (lead?.getD Definition.defaultLead)

/-- Gives a token a code, and puts its definition behind the list of codes. -/
def assign (s : Session) (lead : Text) (code : UInt16) (token : Text) : Session :=
  let definition : Definition := ⟨token, lead, code⟩
  let text := Definition.append s.target.content.text definition.line
  let entry : Assignment := ⟨token, code, s.target.path⟩
  { s with
    target := { s.target with content := { s.target.content with text := text } }
    entries := s.entries ++ [entry]
    report := { s.report with assigned := s.report.assigned ++ [entry] } }

/-- Gives the tokens codes in order, counted from `next`. Where the codes end it ends too, and what was
assigned before stays. -/
def assignEach (lead : Text) : (s : Session) → (next : Nat) → List Text → Session × Option Error
  | s, _, [] => (s, none)
  | s, next, token :: rest =>
    if next < codeSpace then assignEach lead (s.assign lead next.toUInt16 token) (next + 1) rest
    else (s, some (.codesExhausted token))

/-- Assigns a code to every token of the queue. The session is the one that is left, also when there
are too few codes. -/
def assignQueue (s : Session) (lead? : Option Text) : Session × Option Error :=
  if s.queue.isEmpty then (s, none)
  else
    match s.queue[codeSpace - s.nextCode]? with
    | some token => (s, some (.codesExhausted token))
    | none =>
      match assignEach (s.leadFor lead?) { s with queue := [] } s.nextCode s.queue with
      | (s, none) => ({ s with target := { s.target with dirty := true } }, none)
      | failed => failed

/-- Assigns a code to every token of the queue, or to none. -/
def allocate (s : Session) (lead? : Option Text) : Except Error Session :=
  match s.assignQueue lead? with
  | (s, none) => .ok s
  | (_, some error) => .error error

/-! ## All at once -/

/-- The tokens of the queue with their codes, counted from `first`. -/
def newDefinitions (lead : Text) : (first : Nat) → List Text → List Definition
  | _, [] => []
  | first, token :: rest => ⟨token, lead, first.toUInt16⟩ :: newDefinitions lead (first + 1) rest

/-- Every token of the queue gets a definition, in order. -/
theorem map_identifier_newDefinitions (lead : Text) (first : Nat) (queue : List Text) :
    (newDefinitions lead first queue).map Definition.identifier = queue := by
  induction queue generalizing first with
  | nil => rfl
  | cons token rest ih => rw [newDefinitions, List.map_cons, ih]

/-- The session with these definitions behind its list of codes and among its codes. -/
def withNew (s : Session) (new : List Definition) : Session :=
  let entries := new.map fun d => Assignment.mk d.identifier d.code s.target.path
  { s with
    target := s.target.append (new.map Definition.line)
    entries := s.entries ++ entries
    queue := []
    report := { s.report with assigned := s.report.assigned ++ entries } }

theorem withNew_nil {s : Session} (h : s.queue = []) : s.withNew [] = s := by
  cases s
  cases h
  simp [withNew]

/-- While there are codes, every token gets one, and the list of codes their definitions. -/
theorem assignEach_eq (lead : Text) (s : Session) {next : Nat} {queue : List Text}
    (hspace : next + queue.length ≤ codeSpace) :
    assignEach lead s next queue =
      let new := newDefinitions lead next queue
      let entries := new.map fun d => Assignment.mk d.identifier d.code s.target.path
      let text := (new.map Definition.line).foldl Definition.append s.target.content.text
      ({ s with
        target := { s.target with content := { s.target.content with text := text } }
        entries := s.entries ++ entries
        report := { s.report with assigned := s.report.assigned ++ entries } }, none) := by
  induction queue generalizing s next with
  | nil => simp [assignEach, newDefinitions]
  | cons token rest ih =>
    rw [List.length_cons] at hspace
    rw [assignEach, if_pos (by omega), ih (s.assign lead next.toUInt16 token) (by omega)]
    simp [assign, newDefinitions]

/-- The queue is assigned as a whole, or a token of it would get no code and nothing is changed. -/
theorem assignQueue_cases (s : Session) (lead? : Option Text) :
    (∃ token, s.queue[codeSpace - s.nextCode]? = some token ∧
        s.assignQueue lead? = (s, some (.codesExhausted token))) ∨
      s.nextCode + s.queue.length ≤ codeSpace ∧ s.assignQueue lead? =
        (s.withNew (newDefinitions (s.leadFor lead?) s.nextCode s.queue), none) := by
  have hmost := s.nextCode_le
  unfold assignQueue
  cases hqueue : s.queue with
  | nil =>
    refine Or.inr ⟨hmost, ?_⟩
    rw [newDefinitions, withNew_nil hqueue]
    rfl
  | cons first rest =>
    rw [← hqueue]
    have hfull : s.queue.isEmpty = false := by rw [hqueue]; rfl
    rw [hfull, if_neg Bool.false_ne_true]
    cases htoken : s.queue[codeSpace - s.nextCode]? with
    | some token => exact Or.inl ⟨token, rfl, rfl⟩
    | none =>
      have hspace : s.nextCode + s.queue.length ≤ codeSpace := by
        have := List.getElem?_eq_none_iff.mp htoken
        omega
      refine Or.inr ⟨hspace, ?_⟩
      dsimp only
      rw [assignEach_eq _ _ hspace]
      simp [withNew, OpenFile.append, hqueue, newDefinitions]

end FirmwareIds.Session
