import FirmwareIds.Proofs.Session.Reaching
import FirmwareIds.Proofs.Session.Stepping

/-!
# The table of references

Whatever steps a session takes, its table holds the references that come first to their tokens, in the
order they were met, and the index names exactly their tokens, each with its place. One more reference
goes to the end of both, or it comes up against the one that a search would find first
(`record_by_search`). Conflicts name the files of the two in this order (`references_in_step`).
-/

namespace FirmwareIds

/-- The first elements with their keys are those that no element with the same key comes before. -/
theorem firstsBy_eq_filter {α κ : Type} [DecidableEq κ] (key : α → κ) (l : List α) :
    firstsBy key l = (l.zipIdx.filter fun x => (l.take x.2).all (key · ≠ key x.1)).map Prod.fst := by
  induction l using List.reverseRecOn with
  | nil => rfl
  | append_singleton l a ih =>
    -- what comes before the elements of `l` is not changed by `a` behind them
    have hfront : (l.zipIdx.filter fun x => ((l ++ [a]).take x.2).all (key · ≠ key x.1)) =
        l.zipIdx.filter fun x => (l.take x.2).all (key · ≠ key x.1) := by
      apply List.filter_congr
      intro x hx
      have hn : x.2 < l.length := by
        have := List.snd_lt_add_of_mem_zipIdx hx
        omega
      rw [List.take_append_of_le_length (Nat.le_of_lt hn)]
    have hnew : (firstsBy key l).any (key · = key a) = !l.all (key · ≠ key a) := by
      rw [Bool.eq_iff_iff, List.any_eq_true, ← List.find?_isSome, find?_firstsBy, List.find?_isSome]
      simp
    have hbefore : (l ++ [a]).take l.length = l := List.take_left
    rw [firstsBy_append_singleton, hnew, List.zipIdx_append, List.filter_append, hfront,
      List.map_append, ← ih, List.zipIdx_singleton, Nat.zero_add, List.filter_singleton, hbefore]
    cases l.all (key · ≠ key a) with
    | true => rfl
    | false => exact (List.append_nil _).symm

namespace Session

variable {s : Session} {rs : List Reference}

/-- The references that a step meets. -/
def Step.references : Step → List Reference
  | .scan t root excluded => t.references excluded root
  | .record r => [r]
  | _ => []

theorem Reached.take (h : Reached rs s) (step : Step) :
    Reached (rs ++ step.references) (s.take step) := by
  have hnone {s' : Session} (h' : Reached rs s') : Reached (rs ++ []) s' := by
    rwa [List.append_nil]
  cases step with
  | scan t root excluded =>
    unfold Step.references Session.take
    dsimp only
    cases hscan : s.scan t root excluded with
    | ok s' => exact h.scan hscan
    | error e =>
      -- a root that cannot be walked is not met with anything
      have hwalk := map_eq_error_iff.mp hscan
      unfold FileTree.references
      rw [hwalk]
      exact hnone h
  | record r => exact h.record r
  | strip => exact hnone h.strip
  | index => exact hnone h.index
  | validate update => exact hnone (h.validate update)
  | allocate lead? => exact hnone (h.assignQueue lead?)

theorem reached_foldl (t : FileTree) (o : Options) (steps : List Step) :
    Reached (steps.flatMap Step.references) (steps.foldl take (start t o)) := by
  induction steps using List.reverseRecOn with
  | nil => exact .start t o
  | append_singleton steps step ih =>
    rw [List.flatMap_append, List.flatMap_singleton, List.foldl_append]
    exact ih.take step

/-- A conflict was found when a reference came up against the first one to its token. -/
theorem Recorded.conflict_inv (h : s.Recorded rs) {i : Issue} (hi : i ∈ s.report.issues)
    (hkind : i.kind = .conflictingReference) : ∃ before again after first,
      rs = before ++ again :: after ∧ before.find? (·.token = again.token) = some first ∧
        i.subject = again.token ∧ i.paths = [first.path, again.path] := by
  have hmem : i ∈ s.report.ofKind .conflictingReference :=
    List.mem_filter.mpr ⟨hi, decide_eq_true hkind⟩
  rw [h.conflicts] at hmem
  obtain ⟨⟨first, again⟩, hrepeated, hconflict⟩ := List.mem_filterMap.mp hmem
  obtain ⟨before, after, hrs, hfirst⟩ := mem_repeatedBy_iff.mp hrepeated
  obtain ⟨_, _, _, -, -, -, -, heq⟩ := conflict?_eq_some_iff.mp hconflict
  rw [heq]
  exact ⟨before, again, after, first, hrs, hfirst, rfl, rfl⟩

/-- What was found first of some references is kept of them all. -/
theorem Recorded.mem_of_find? (h : s.Recorded rs) {before after : List Reference}
    (hrs : rs = before ++ after) {token : Text} {first : Reference}
    (hfirst : before.find? (·.token = token) = some first) : first ∈ s.references := by
  have hfind : s.references.find? (·.token = token) = some first := by
    rw [← s.reference?_eq_find?, h.reference?_eq, hrs, List.find?_append, hfirst]
    rfl
  exact List.mem_of_find?_eq_some hfind

/-- A reference is added behind the others and nothing else is changed, or a search of the others finds the
one that it comes up against. -/
theorem record_by_search (s : Session) (r : Reference) :
    match s.references.find? (·.token = r.token) with
    | none => s.record r = { s with table := (s.record r).table } ∧
        (s.record r).references = s.references ++ [r]
    | some first => s.record r = s.addIssues (conflict? s.strictness first r).toList := by
  rw [← s.reference?_eq_find?]
  rcases record_cases s r with ⟨hfirst, heq⟩ | ⟨first, hfirst, heq⟩
  · rw [hfirst]
    dsimp only
    rw [heq]
    exact ⟨rfl, rfl⟩
  · rw [hfirst]
    exact heq

/-- Whatever steps a session has taken, it keeps the references that come first to their tokens, in the
order they were met and no two to one token. The index beside them names exactly their tokens, each with its
place. One more reference goes behind them, if none of them has its token, and else comes up against the one
that has; no other is changed. A conflict names the file of that one first, and then the file of the
reference that came up against it. -/
theorem references_in_step (t : FileTree) (o : Options) (steps : List Step) :
    let s := steps.foldl take (start t o)
    let rs := steps.flatMap Step.references
    s.references =
      (rs.zipIdx.filter fun x => (rs.take x.2).all (·.token ≠ x.1.token)).map Prod.fst ∧
    (s.references.map Reference.token).Nodup ∧
    (∀ token place, s.table.index.lookup token = some place ↔
      ∃ r, s.references[place]? = some r ∧ r.token = token) ∧
    (∀ r : Reference,
      match s.references.find? (·.token = r.token) with
      | none => s.record r = { s with table := (s.record r).table } ∧
          (s.record r).references = s.references ++ [r]
      | some first => s.record r = s.addIssues (conflict? s.strictness first r).toList) ∧
    ∀ i ∈ s.report.issues, i.kind = .conflictingReference → ∃ before again after first,
      rs = before ++ again :: after ∧ before.find? (·.token = again.token) = some first ∧
        first ∈ s.references ∧ i.subject = again.token ∧ i.paths = [first.path, again.path] := by
  intro s rs
  have hrecorded : s.Recorded rs := (reached_foldl t o steps).recorded
  refine ⟨hrecorded.references.trans (firstsBy_eq_filter _ rs), hrecorded.nodup, s.table.inStep,
    s.record_by_search, ?_⟩
  intro i hi hkind
  obtain ⟨before, again, after, first, hrs, hfirst, hsubject, hpaths⟩ :=
    hrecorded.conflict_inv hi hkind
  exact ⟨before, again, after, first, hrs, hfirst, hrecorded.mem_of_find? hrs hfirst, hsubject, hpaths⟩

end Session

end FirmwareIds
