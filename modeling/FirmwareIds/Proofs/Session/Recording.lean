import FirmwareIds.Session.Run
import Mathlib.Data.Finset.Card
import Mathlib.Data.Finset.Dedup

/-!
# What a session keeps of the references

A session keeps the first reference to each token and compares the later ones with that one alone
(`Recorded`). So it finds that questions with different bindings refer to one string if the first
question that does so has a binding. If that question has none, no later one is compared with anything
(`conflict_found_iff`).
-/

namespace FirmwareIds

/-! ## First and later elements of a list -/

section Keys

variable {α κ : Type} [DecidableEq κ] {key : α → κ} {l : List α}

/-- The first element with each key, in order. -/
def firstsBy (key : α → κ) (l : List α) : List α :=
  l.foldl (fun kept a => if kept.any (key · = key a) then kept else kept ++ [a]) []

/-- Each element with the key of an earlier one, behind the first one that has this key. The elements
`seen` are before the list. -/
def repeatedBy (key : α → κ) (seen : List α) : List α → List (α × α)
  | [] => []
  | a :: rest =>
    ((seen.find? (key · = key a)).map (·, a)).toList ++ repeatedBy key (seen ++ [a]) rest

@[simp] theorem firstsBy_nil (key : α → κ) : firstsBy key [] = [] := rfl

theorem firstsBy_append_singleton (key : α → κ) (l : List α) (a : α) :
    firstsBy key (l ++ [a]) =
      if (firstsBy key l).any (key · = key a) then firstsBy key l else firstsBy key l ++ [a] := by
  unfold firstsBy
  rw [List.foldl_append]
  rfl

theorem repeatedBy_append (key : α → κ) (seen l l' : List α) :
    repeatedBy key seen (l ++ l') = repeatedBy key seen l ++ repeatedBy key (seen ++ l) l' := by
  induction l generalizing seen with
  | nil => simp [repeatedBy]
  | cons a l ih => simp [repeatedBy, ih]

theorem repeatedBy_append_singleton (key : α → κ) (l : List α) (a : α) :
    repeatedBy key [] (l ++ [a]) =
      repeatedBy key [] l ++ ((l.find? (key · = key a)).map (·, a)).toList := by
  rw [repeatedBy_append, List.nil_append]
  simp [repeatedBy]

/-- The first element with a key is among the first ones. -/
theorem find?_firstsBy (key : α → κ) (l : List α) (k : κ) :
    (firstsBy key l).find? (key · = k) = l.find? (key · = k) := by
  induction l using List.reverseRecOn with
  | nil => rfl
  | append_singleton l a ih =>
    rw [firstsBy_append_singleton, List.find?_append, ← ih]
    split
    · next hany =>
      -- another element has the key of `a`
      cases hfind : (firstsBy key l).find? (key · = k) with
      | some b => rfl
      | none =>
        have hnone : key a ≠ k := by
          rintro rfl
          obtain ⟨b, hb, hkey⟩ := List.any_eq_true.mp hany
          exact absurd hkey (List.find?_eq_none.mp hfind b hb)
        simp [hnone]
    · rw [List.find?_append]

/-- Each key is kept once, in the order of their first occurrences. -/
theorem map_firstsBy [BEq κ] [LawfulBEq κ] (key : α → κ) (l : List α) :
    (firstsBy key l).map key = (l.map key).eraseDups := by
  induction l using List.reverseRecOn with
  | nil => rfl
  | append_singleton l a ih =>
    have hany : (firstsBy key l).any (key · = key a) = true ↔ key a ∈ l.map key := by
      rw [← List.mem_eraseDups, ← ih]
      simp
    have hrest : [key a].removeAll (l.map key) = if key a ∈ l.map key then [] else [key a] := by
      rw [List.removeAll, List.filter_singleton, List.elem_eq_mem]
      by_cases h : key a ∈ l.map key <;> simp only [h] <;> rfl
    rw [firstsBy_append_singleton, List.map_append, List.eraseDups_append, ← ih, List.map_singleton,
      hrest]
    by_cases h : key a ∈ l.map key
    · rw [if_pos h, if_pos (hany.mpr h), List.eraseDups_nil, List.append_nil]
    · rw [if_neg h, if_neg (mt hany.mp h), List.map_append, List.map_singleton]
      rfl

theorem nodup_map_firstsBy (key : α → κ) (l : List α) : ((firstsBy key l).map key).Nodup := by
  induction l using List.reverseRecOn with
  | nil => exact .nil
  | append_singleton l a ih =>
    rw [firstsBy_append_singleton]
    split
    · exact ih
    · next h =>
      rw [List.map_append, List.nodup_append]
      refine ⟨ih, List.pairwise_singleton .., ?_⟩
      -- the key of `a` is not among those before it
      intro k hk k' hk' hsame
      obtain rfl : k = k' := hsame
      obtain ⟨b, hb, hkey⟩ := List.mem_map.mp hk
      refine h (List.any_eq_true.mpr ⟨b, hb, decide_eq_true ?_⟩)
      exact hkey.trans (List.mem_singleton.mp hk')

theorem mem_repeatedBy_iff {seen : List α} {first again : α} :
    (first, again) ∈ repeatedBy key seen l ↔ ∃ before after, l = before ++ again :: after ∧
      (seen ++ before).find? (key · = key again) = some first := by
  induction l generalizing seen with
  | nil => simp [repeatedBy]
  | cons a l ih =>
    rw [repeatedBy, List.mem_append, ih]
    constructor
    · rintro (h | ⟨before, after, rfl, hfirst⟩)
      · obtain ⟨b, hb, heq⟩ := Option.map_eq_some_iff.mp (Option.mem_toList.mp h)
        cases heq
        exact ⟨[], l, rfl, by rwa [List.append_nil]⟩
      · exact ⟨a :: before, after, rfl, by rwa [List.append_assoc] at hfirst⟩
    · rintro ⟨before, after, heq, hfirst⟩
      cases before with
      | nil =>
        cases heq
        rw [List.append_nil] at hfirst
        exact Or.inl (by simp [hfirst])
      | cons b before =>
        cases heq
        exact Or.inr ⟨before, after, rfl, by rwa [List.append_assoc]⟩

/-- What is repeated is the first element with its key. -/
theorem find?_of_mem_repeatedBy {first again : α} (h : (first, again) ∈ repeatedBy key [] l) :
    l.find? (key · = key again) = some first ∧ again ∈ l := by
  obtain ⟨before, after, rfl, hfirst⟩ := mem_repeatedBy_iff.mp h
  rw [List.nil_append] at hfirst
  refine ⟨?_, List.mem_append_right _ (List.mem_cons_self ..)⟩
  rw [List.find?_append, hfirst]
  rfl

/-- Every other element with the key of the first one repeats it. -/
theorem mem_repeatedBy_of_find? {first again : α} (hfirst : l.find? (key · = key again) = some first)
    (hagain : again ∈ l) (hne : again ≠ first) : (first, again) ∈ repeatedBy key [] l := by
  obtain ⟨before, after, rfl⟩ := List.append_of_mem hagain
  refine mem_repeatedBy_iff.mpr ⟨before, after, rfl, ?_⟩
  rw [List.find?_append] at hfirst
  rw [List.nil_append]
  cases hbefore : before.find? (key · = key again) with
  | some b => rwa [hbefore] at hfirst
  | none =>
    rw [hbefore, List.find?_cons_of_pos (by simp)] at hfirst
    exact absurd (Option.some.inj hfirst) hne

end Keys

/-- How bad it is that questions with different bindings refer to one string, if it is bad at all. -/
def Strictness.severity? : Strictness → Option Severity
  | off => none
  | warn => some .warning
  | error => some .error

namespace Session

variable {t : FileTree} {o : Options} {s : Session} {rs : List Reference} {token : Text}

/-! ## Taking down references -/

theorem conflict?_eq_some_iff {strictness : Strictness} {first again : Reference} {i : Issue} :
    conflict? strictness first again = some i ↔ ∃ severity v w,
      strictness.severity? = some severity ∧ first.binding = some v ∧ again.binding = some w ∧
        v ≠ w ∧ i = .conflictingReference severity first again v w := by
  unfold conflict?
  cases first.binding with
  | none => simp
  | some v =>
    cases again.binding with
    | none => simp
    | some w =>
      by_cases hsame : v = w
      · simp [hsame]
      · cases strictness <;> simp [hsame, Strictness.severity?, eq_comm]

/-- The references `rs` are those that the session has taken down: it has kept the first one to each
token, and each later one that has another binding than the first is a conflict. -/
structure Recorded (s : Session) (rs : List Reference) : Prop where
  references : s.references = firstsBy Reference.token rs
  conflicts : s.report.ofKind .conflictingReference =
    (repeatedBy Reference.token [] rs).filterMap fun (first, again) =>
      conflict? s.strictness first again

theorem Recorded.reference?_eq (h : s.Recorded rs) (token : Text) :
    s.reference? token = rs.find? (·.token = token) := by
  rw [reference?_eq_find?, h.references, find?_firstsBy]

/-- The tokens that a session keeps are all that it has met, each once. -/
theorem Recorded.tokens (h : s.Recorded rs) :
    s.references.map Reference.token = (rs.map Reference.token).eraseDups := by
  rw [h.references, map_firstsBy]

theorem Recorded.nodup (h : s.Recorded rs) : (s.references.map Reference.token).Nodup :=
  h.references ▸ nodup_map_firstsBy ..

@[simp] theorem strictness_record (s : Session) (r : Reference) :
    (s.record r).strictness = s.strictness := by
  unfold record
  split <;> rfl

theorem start_strictness (t : FileTree) (o : Options) : (start t o).strictness = o.strictness := by
  unfold start
  dsimp only
  split <;> rfl

theorem recorded_start (t : FileTree) (o : Options) : (start t o).Recorded [] := by
  unfold start
  dsimp only
  split <;> exact ⟨rfl, rfl⟩

/-- Steps that take down no reference and find no conflict. -/
theorem Recorded.of_same {s' : Session} {issues : List Issue} (h : s.Recorded rs)
    (hreferences : s'.references = s.references) (hstrictness : s'.strictness = s.strictness)
    (hissues : s'.report.issues = s.report.issues ++ issues)
    (hkinds : ∀ i ∈ issues, i.kind ≠ .conflictingReference) : s'.Recorded rs := by
  refine ⟨hreferences.trans h.references, ?_⟩
  have hnone : issues.filter (fun i => i.kind = .conflictingReference) = [] :=
    List.filter_eq_nil_iff.mpr fun i hi => by simp [hkinds i hi]
  rw [hstrictness, ← h.conflicts]
  unfold Report.ofKind
  rw [hissues, List.filter_append, hnone, List.append_nil]

theorem Recorded.record (h : s.Recorded rs) (r : Reference) :
    (s.record r).Recorded (rs ++ [r]) := by
  have hany : (firstsBy Reference.token rs).any (·.token = r.token) =
      (s.reference? r.token).isSome := by
    rw [reference?_eq_find?, ← h.references, Bool.eq_iff_iff, List.find?_isSome, List.any_eq_true]
  have hfind := h.reference?_eq r.token
  rcases record_cases s r with ⟨hfirst, hrecord⟩ | ⟨first, hfirst, hrecord⟩
  · -- the first one to its token repeats nothing
    rw [hfirst] at hany hfind
    rw [hrecord]
    refine ⟨?_, ?_⟩
    · rw [firstsBy_append_singleton, hany, ← h.references]
      rfl
    · rw [repeatedBy_append_singleton, ← hfind, List.filterMap_append, ← h.conflicts]
      exact (List.append_nil _).symm
  · rw [hfirst] at hany hfind
    rw [hrecord]
    refine ⟨?_, ?_⟩
    · rw [firstsBy_append_singleton, hany, ← h.references]
      rfl
    · rw [repeatedBy_append_singleton, ← hfind, List.filterMap_append]
      show (s.report.issues ++ (conflict? s.strictness first r).toList).filter _ =
        List.filterMap (fun (first, again) => conflict? s.strictness first again) _ ++ _
      rw [← h.conflicts, List.filter_append]
      congr 1
      cases hconflict : conflict? s.strictness first r with
      | none => simp [addIssues, hconflict]
      | some i =>
        obtain ⟨_, _, _, -, -, -, -, rfl⟩ := conflict?_eq_some_iff.mp hconflict
        simp [addIssues, hconflict, Issue.conflictingReference]

/-- A row of references is taken down one by one. -/
theorem Recorded.foldl (h : s.Recorded rs) (more : List Reference) :
    (more.foldl Session.record s).Recorded (rs ++ more) := by
  induction more generalizing s rs with
  | nil => rwa [List.append_nil]
  | cons r more ih =>
    rw [← List.singleton_append, ← List.append_assoc]
    exact ih (h.record r)

@[simp] theorem strictness_foldl_record (rs : List Reference) (s : Session) :
    (rs.foldl Session.record s).strictness = s.strictness := by
  induction rs generalizing s with
  | nil => rfl
  | cons r rs ih => rw [List.foldl_cons, ih, strictness_record]

/-! ## Conflicts -/

/-- Two of the references to the token have different bindings. -/
def Disputed (rs : List Reference) (token : Text) : Prop :=
  ∃ a ∈ rs, ∃ b ∈ rs, a.token = token ∧ b.token = token ∧
    ∃ v w, a.binding = some v ∧ b.binding = some w ∧ v ≠ w

/-- It is reported that the token is disputed. -/
def Flagged (s : Session) (severity : Severity) (token : Text) : Prop :=
  ∃ i ∈ s.report.issues, i.kind = .conflictingReference ∧ i.severity = severity ∧ i.subject = token

instance (s : Session) (severity : Severity) (token : Text) :
    Decidable (s.Flagged severity token) :=
  inferInstanceAs (Decidable (∃ i ∈ s.report.issues, _))

/-- What is found is that a reference to the token has another binding than the first one. -/
theorem Recorded.flagged_iff (h : s.Recorded rs) {severity : Severity} :
    s.Flagged severity token ↔
      s.strictness.severity? = some severity ∧ ∃ first again v w,
        rs.find? (·.token = token) = some first ∧ again ∈ rs ∧ again.token = token ∧
          first.binding = some v ∧ again.binding = some w ∧ v ≠ w := by
  have hmem : ∀ i, (i ∈ s.report.issues ∧ i.kind = .conflictingReference) ↔
      ∃ first again, (first, again) ∈ repeatedBy Reference.token [] rs ∧
        conflict? s.strictness first again = some i := by
    intro i
    have := congrArg (i ∈ ·) h.conflicts
    simpa [Report.ofKind] using this
  constructor
  · rintro ⟨i, hi, hkind, rfl, rfl⟩
    obtain ⟨first, again, hrepeated, hconflict⟩ := (hmem i).mp ⟨hi, hkind⟩
    obtain ⟨hfirst, hagain⟩ := find?_of_mem_repeatedBy hrepeated
    obtain ⟨severity, v, w, hseverity, hv, hw, hne, rfl⟩ := conflict?_eq_some_iff.mp hconflict
    exact ⟨hseverity, first, again, v, w, hfirst, hagain, rfl, hv, hw, hne⟩
  · rintro ⟨hseverity, first, again, v, w, hfirst, hagain, rfl, hv, hw, hne⟩
    have hother : again ≠ first := by
      rintro rfl
      exact hne (Option.some.inj (hv.symm.trans hw))
    obtain ⟨hi, hkind⟩ := (hmem _).mpr ⟨first, again, mem_repeatedBy_of_find? hfirst hagain hother,
      conflict?_eq_some_iff.mpr ⟨severity, v, w, hseverity, hv, hw, hne, rfl⟩⟩
    exact ⟨_, hi, hkind, rfl, rfl⟩

/-- Whatever the references, a conflict about a token is found if and only if conflicts count, the first
reference to the token has a binding, and two references to it have different ones. -/
theorem conflict_found_iff (t : FileTree) (o : Options) (rs : List Reference) (token : Text)
    (severity : Severity) :
    (rs.foldl record (start t o)).Flagged severity token ↔
      o.strictness.severity? = some severity ∧ Disputed rs token ∧
        ∃ first v, rs.find? (·.token = token) = some first ∧ first.binding = some v := by
  have hrecorded := (recorded_start t o).foldl rs
  have hstrictness : (rs.foldl record (start t o)).strictness = o.strictness := by
    rw [strictness_foldl_record, start_strictness]
  rw [List.nil_append] at hrecorded
  rw [hrecorded.flagged_iff, hstrictness]
  refine and_congr_right fun _ => ⟨?_, ?_⟩
  · rintro ⟨first, again, v, w, hfirst, hagain, htoken, hv, hw, hne⟩
    have hsame : first.token = token := by simpa using List.find?_some hfirst
    exact ⟨⟨first, List.mem_of_find?_eq_some hfirst, again, hagain, hsame, htoken, v, w, hv, hw, hne⟩,
      first, v, hfirst, hv⟩
  · rintro ⟨⟨a, ha, b, hb, hta, htb, v, w, hv, hw, hne⟩, first, x, hfirst, hx⟩
    -- the binding of the first reference is not both of them
    by_cases hxv : x = v
    · exact ⟨first, b, x, w, hfirst, hb, htb, hx, hw, hxv ▸ hne⟩
    · exact ⟨first, a, x, v, hfirst, ha, hta, hx, hv, hxv⟩

/-- Questions with two bindings and, first, one without a binding refer to one string. -/
def unboundFirst : List Reference :=
  [⟨"STR_A".toList, none, ⟨"a.vfr".toList⟩⟩,
    ⟨"STR_A".toList, some "Setup.A".toList, ⟨"b.vfr".toList⟩⟩,
    ⟨"STR_A".toList, some "Setup.B".toList, ⟨"c.vfr".toList⟩⟩]

/-- A session without files in which conflicts fail the run. -/
def strictSession : Session :=
  start (.bare []) { output := ⟨"UqiList.uni".toList⟩, strictness := .error }

/-- The conflict between two questions is not found behind a question without a binding; in another
order it is. -/
theorem conflict_hidden_by_unbound :
    ¬ ((unboundFirst.foldl record strictSession).Flagged .error "STR_A".toList ↔
        Disputed unboundFirst "STR_A".toList) ∧
      unboundFirst.reverse.Perm unboundFirst ∧
      (unboundFirst.reverse.foldl record strictSession).Flagged .error "STR_A".toList := by
  have hdisputed : Disputed unboundFirst "STR_A".toList :=
    ⟨_, .tail _ (.head _), _, .tail _ (.tail _ (.head _)), rfl, rfl, _, _, rfl, rfl, by decide⟩
  have hhidden : ¬ (unboundFirst.foldl record strictSession).Flagged .error "STR_A".toList := by
    decide +kernel
  exact ⟨fun h => hhidden (h.mpr hdisputed), unboundFirst.reverse_perm, by decide +kernel⟩

end Session

end FirmwareIds
