import FirmwareIds.Session.Allocate
import Mathlib.Data.List.Nodup

/-!
# All or nothing

Codes are assigned to the whole queue or to none of it (`assignQueue_spec`). If the codes from the next
one on suffice, each token of the queue gets one of them, in order, and the loop over the queue does not
end before the queue does. If they do not, the session is as it was, and the error names the first token
that would get none.
-/

namespace FirmwareIds.Session

/-- The next code is the one above the highest one. -/
theorem nextCode_eq (s : Session) :
    s.nextCode = ((s.entries.map fun e => e.code.toNat).max?).elim 0 (· + 1) := by
  unfold nextCode
  induction s.entries with
  | nil => rfl
  | cons e entries ih =>
    rw [List.foldr_cons, ih, List.map_cons, List.max?_cons]
    cases (entries.map fun e => e.code.toNat).max? with
    | none => exact Nat.max_eq_left (Nat.zero_le _)
    | some highest => exact Nat.succ_max_succ ..

/-- The codes of new definitions are counted up. -/
theorem codes_newDefinitions (lead : Text) {first : Nat} {queue : List Text}
    (hspace : first + queue.length ≤ codeSpace) :
    (newDefinitions lead first queue).map (fun d => d.code.toNat) =
      List.range' first queue.length := by
  induction queue generalizing first with
  | nil => rfl
  | cons token queue ih =>
    rw [List.length_cons] at hspace
    have hfirst : first.toUInt16.toNat = first :=
      Nat.mod_eq_of_lt (by unfold codeSpace at hspace; omega)
    rw [newDefinitions, List.map_cons, ih (by omega), List.length_cons, List.range'_succ, hfirst]

/-- New definitions have the lead that is asked for and identifiers of the queue. -/
theorem mem_newDefinitions {lead : Text} {first : Nat} {queue : List Text} {d : Definition}
    (h : d ∈ newDefinitions lead first queue) : d.lead = lead ∧ d.identifier ∈ queue := by
  induction queue generalizing first with
  | nil => cases h
  | cons token queue ih =>
    rcases List.mem_cons.mp h with rfl | h
    · exact ⟨rfl, List.mem_cons_self ..⟩
    · exact (ih h).imp_right (List.mem_cons_of_mem _)

/-- The session `s'` is `s` after its whole queue got codes, each of which is used once: `new` says
which. -/
structure AssignsAll (s s' : Session) (lead : Text) (new : List Assignment) : Prop where
  session : s' = { s with
    target := s.target.append (new.map fun e => Definition.line ⟨e.identifier, lead, e.code⟩)
    entries := s.entries ++ new
    queue := []
    report := { s.report with assigned := s.report.assigned ++ new } }
  identifiers : new.map Assignment.identifier = s.queue
  codes : new.map (fun e => e.code.toNat) = List.range' s.nextCode s.queue.length
  paths : ∀ e ∈ new, e.path = s.target.path
  fresh : ∀ e ∈ s.entries, ∀ e' ∈ new, e.code ≠ e'.code
  distinct : (new.map Assignment.code).Nodup

theorem assignsAll_withNew (s : Session) (lead : Text)
    (hspace : s.nextCode + s.queue.length ≤ codeSpace) :
    AssignsAll s (s.withNew (newDefinitions lead s.nextCode s.queue)) lead
      ((newDefinitions lead s.nextCode s.queue).map fun d =>
        ⟨d.identifier, d.code, s.target.path⟩) := by
  have hcodes := codes_newDefinitions lead hspace
  have hlines : ((newDefinitions lead s.nextCode s.queue).map Definition.line) =
      (newDefinitions lead s.nextCode s.queue).map fun d =>
        Definition.line ⟨d.identifier, lead, d.code⟩ := by
    apply List.map_congr_left
    intro d hd
    rw [← (mem_newDefinitions hd).1]
  refine ⟨?_, ?_, ?_, ?_, ?_, ?_⟩
  · rw [List.map_map]
    unfold withNew
    rw [hlines]
    rfl
  · rw [List.map_map]
    exact map_identifier_newDefinitions lead s.nextCode s.queue
  · rw [List.map_map]
    exact hcodes
  · intro e he
    obtain ⟨d, -, rfl⟩ := List.mem_map.mp he
    rfl
  · -- a known code is below the next one, and a new code is not
    intro e he e' he' hsame
    obtain ⟨d, hd, rfl⟩ := List.mem_map.mp he'
    have hmem : d.code.toNat ∈ List.range' s.nextCode s.queue.length :=
      hcodes ▸ List.mem_map_of_mem hd
    have hnew := (List.mem_range'_1.mp hmem).1
    have hold := code_lt_nextCode he
    have : e.code.toNat = d.code.toNat := congrArg UInt16.toNat hsame
    omega
  · apply List.Nodup.of_map UInt16.toNat
    rw [List.map_map, List.map_map]
    exact hcodes ▸ List.nodup_range'

/-- If there are codes for the whole queue, it is assigned, and the loop over it does not run out of
codes. Otherwise nothing is changed, and the error names the first token that would get no code. -/
theorem assignQueue_spec (s : Session) (lead? : Option Text) :
    s.nextCode = ((s.entries.map fun e => e.code.toNat).max?).elim 0 (· + 1) ∧
    if s.nextCode + s.queue.length ≤ codeSpace then
      (assignEach (s.leadFor lead?) { s with queue := [] } s.nextCode s.queue).2 = none ∧
        ∃ s' new, s.allocate lead? = .ok s' ∧ s.assignQueue lead? = (s', none) ∧
          AssignsAll s s' (s.leadFor lead?) new
    else
      ∃ token, s.queue[codeSpace - s.nextCode]? = some token ∧
        s.allocate lead? = .error (.codesExhausted token) ∧
        s.assignQueue lead? = (s, some (.codesExhausted token)) := by
  refine ⟨s.nextCode_eq, ?_⟩
  unfold allocate
  rcases s.assignQueue_cases lead? with ⟨token, htoken, heq⟩ | ⟨hspace, heq⟩
  · -- the queue is longer than the codes last
    have hlong : ¬ s.nextCode + s.queue.length ≤ codeSpace := by
      obtain ⟨hlength, -⟩ := List.getElem?_eq_some_iff.mp htoken
      omega
    rw [if_neg hlong, heq]
    exact ⟨token, htoken, rfl, rfl⟩
  · rw [if_pos hspace, heq, assignEach_eq _ _ hspace]
    exact ⟨rfl, _, _, rfl, rfl, assignsAll_withNew s _ hspace⟩

end FirmwareIds.Session
