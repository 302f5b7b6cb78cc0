import FirmwareIds.FileTree.Change
import FirmwareIds.Proofs.Path

/-!
# Ways through a tree

A path leads to an entry by a way through directories, and only its last step may end at something
else. `Follows` says how steps lead somewhere, one constructor for each kind of step, and is what `follow`
does where it does not fail (`follows_of_follow`). `Way` is the part that goes through directories. What
`follow` makes of steps is a way and what it makes of the steps behind it (`Way.follow_append`,
`way_of_follow`). A way is made of the ways of its parts (`Way.append`, `Way.split`), and steps that
stay make no difference to it (`Way.of_plain`).

`Site` says the same of a whole path: its last name stands in the directory that the way of the
steps before it ends in.
-/

namespace FirmwareIds.FileTree

open FirmwareIds.Path

/-- What a step must be to go on to a name. -/
structure NameStep (t : FileTree) (dir : Key) (step : Text) : Prop where
  directory : t.get? dir = some .directory
  stay : isStay step = false
  up : step ≠ upStep
  short : ¬ nameLimit < step.byteLength

/-- The steps lead from the directory `dir`, with so many links allowed, to the place. Only the last of
them may end at a file or at nothing. -/
inductive Follows (t : FileTree) (creating : Bool) (place : Place) : Nat → Key → List Text → Prop where
  | done {links dir} : place = .there dir → Follows t creating place links dir []
  | stay {links dir step rest} : t.get? dir = some .directory → isStay step = true →
      Follows t creating place links dir rest → Follows t creating place links dir (step :: rest)
  | up {links dir rest} : t.get? dir = some .directory →
      Follows t creating place links dir.dropLast rest →
      Follows t creating place links dir (upStep :: rest)
  | link {links dir step target rest} : t.NameStep dir step → ¬ (creating = true ∧ rest = [[]]) →
      t.get? (dir ++ [step]) = some (.link target) →
      Follows t creating place links (startFrom dir target) (target.steps ++ rest) →
      Follows t creating place (links + 1) dir (step :: rest)
  | down {links dir step rest} : t.NameStep dir step → ¬ (creating = true ∧ rest = [[]]) →
      t.get? (dir ++ [step]) = some .directory →
      Follows t creating place links (dir ++ [step]) rest →
      Follows t creating place links dir (step :: rest)
  | file {links dir step bytes} : t.NameStep dir step →
      t.get? (dir ++ [step]) = some (.file bytes) → place = .there (dir ++ [step]) →
      Follows t creating place links dir [step]
  | vacant {links dir step} : t.NameStep dir step → t.get? (dir ++ [step]) = none →
      place = .vacant dir step → Follows t creating place links dir [step]

/-- The steps lead from a directory, with so many links allowed, to the directory `stop`; `left`
links may be followed from there. -/
inductive Way (t : FileTree) (left : Nat) (stop : Key) : Nat → Key → List Text → Prop where
  | done : t.get? stop = some .directory → Way t left stop left stop []
  | stay {links dir step rest} : t.get? dir = some .directory → isStay step = true →
      Way t left stop links dir rest → Way t left stop links dir (step :: rest)
  | up {links dir rest} : t.get? dir = some .directory →
      Way t left stop links dir.dropLast rest → Way t left stop links dir (upStep :: rest)
  | link {links dir step target rest} : t.NameStep dir step →
      t.get? (dir ++ [step]) = some (.link target) →
      Way t left stop links (startFrom dir target) (target.steps ++ rest) →
      Way t left stop (links + 1) dir (step :: rest)
  | down {links dir step rest} : t.NameStep dir step →
      t.get? (dir ++ [step]) = some .directory →
      Way t left stop links (dir ++ [step]) rest → Way t left stop links dir (step :: rest)

variable {t u : FileTree} {creating : Bool} {links left : Nat} {dir stop : Key} {step : Text}
  {steps rest : List Text}

/-- A name may be followed where its directory is kept. -/
theorem NameStep.of_kept (h : t.NameStep dir step)
    (hdirs : ∀ k, t.get? k = some .directory → u.get? k = some .directory) : u.NameStep dir step :=
  ⟨hdirs _ h.directory, h.stay, h.up, h.short⟩

/-! ## Following a step -/

@[simp] theorem follow_nil : t.follow creating links dir [] = .ok (.there dir) := by
  cases links <;> rfl

theorem follow_of_not_directory (hdir : t.get? dir ≠ some .directory) :
    t.follow creating links dir (step :: rest) = .error .notDirectory := by
  cases links <;> exact if_pos hdir

theorem follow_stay (hdir : t.get? dir = some .directory) (h : isStay step = true) :
    t.follow creating links dir (step :: rest) = t.follow creating links dir rest := by
  cases links <;> exact (if_neg (not_not_intro hdir)).trans (if_pos h)

theorem follow_up (hdir : t.get? dir = some .directory) :
    t.follow creating links dir (upStep :: rest) = t.follow creating links dir.dropLast rest := by
  cases links <;>
    exact (if_neg (not_not_intro hdir)).trans ((if_neg (by decide)).trans (if_pos rfl))

/-- A name may be followed once it is none of the other steps. -/
theorem follow_beyond (hdir : t.get? dir = some .directory) (hstay : isStay step = false)
    (hup : step ≠ upStep) :
    t.follow creating links dir (step :: rest) =
      if creating ∧ rest = [[]] then .error .isDirectory
      else if nameLimit < step.byteLength then .error .nameTooLong
      else
        match t.get? (dir ++ [step]), links with
        | none, _ => if rest = [] then .ok (.vacant dir step) else .error .notFound
        | some (.link _), 0 => .error .tooManyLinks
        | some (.link target), links + 1 =>
          t.follow creating links (startFrom dir target) (target.steps ++ rest)
        | some _, links => t.follow creating links (dir ++ [step]) rest := by
  cases links with
  | zero =>
    refine (if_neg (not_not_intro hdir)).trans <|
      (if_neg (Bool.eq_false_iff.mp hstay)).trans <| (if_neg hup).trans ?_
    cases t.get? (dir ++ [step]) with
    | none => rfl
    | some e => cases e <;> rfl
  | succ links =>
    refine (if_neg (not_not_intro hdir)).trans <|
      (if_neg (Bool.eq_false_iff.mp hstay)).trans <| (if_neg hup).trans ?_
    cases t.get? (dir ++ [step]) with
    | none => rfl
    | some e => cases e <;> rfl

theorem follow_name (h : t.NameStep dir step) (hrest : ¬ (creating = true ∧ rest = [[]])) :
    t.follow creating links dir (step :: rest) =
      match t.get? (dir ++ [step]), links with
      | none, _ => if rest = [] then .ok (.vacant dir step) else .error .notFound
      | some (.link _), 0 => .error .tooManyLinks
      | some (.link target), links + 1 =>
        t.follow creating links (startFrom dir target) (target.steps ++ rest)
      | some _, links => t.follow creating links (dir ++ [step]) rest :=
  (follow_beyond h.directory h.stay h.up).trans ((if_neg hrest).trans (if_neg h.short))

/-- No step can be taken from anything but a directory. -/
theorem directory_of_follow {place : Place}
    (h : t.follow creating links dir (step :: rest) = .ok place) :
    t.get? dir = some .directory := by
  refine Decidable.byContradiction fun hdir => ?_
  rw [follow_of_not_directory hdir] at h
  cases h

/-- What a step is that was taken: it stays, goes up, or goes on to a name. -/
theorem step_cases {place : Place} (h : t.follow creating links dir (step :: rest) = .ok place) :
    isStay step = true ∨ step = upStep ∨
      t.NameStep dir step ∧ ¬ (creating = true ∧ rest = [[]]) := by
  have hdir := directory_of_follow h
  by_cases hstay : isStay step = true
  · exact Or.inl hstay
  by_cases hup : step = upStep
  · exact Or.inr (Or.inl hup)
  have hstay := Bool.eq_false_iff.mpr hstay
  rw [follow_beyond hdir hstay hup] at h
  by_cases hrest : creating = true ∧ rest = [[]]
  · rw [if_pos hrest] at h
    cases h
  by_cases hlong : nameLimit < step.byteLength
  · rw [if_neg hrest, if_pos hlong] at h
    cases h
  · exact Or.inr (Or.inr ⟨⟨hdir, hstay, hup, hlong⟩, hrest⟩)

theorem follows_of_follow {links : Nat} {dir : Key} {steps : List Text} {place : Place}
    (h : t.follow creating links dir steps = .ok place) : t.Follows creating place links dir steps := by
  cases steps with
  | nil =>
    rw [follow_nil] at h
    exact .done (Except.ok.inj h).symm
  | cons step rest =>
    have hdir := directory_of_follow h
    rcases step_cases h with hstay | rfl | ⟨hname, hmore⟩
    · rw [follow_stay hdir hstay] at h
      exact .stay hdir hstay (follows_of_follow h)
    · rw [follow_up hdir] at h
      exact .up hdir (follows_of_follow h)
    · rw [follow_name hname hmore] at h
      cases hentry : t.get? (dir ++ [step]) with
      | none =>
        rw [hentry] at h
        dsimp only at h
        split at h
        · next hnil =>
          subst hnil
          exact .vacant hname hentry (Except.ok.inj h).symm
        · cases h
      | some e =>
        rw [hentry] at h
        cases e with
        | directory => exact .down hname hmore hentry (follows_of_follow h)
        | file bytes =>
          dsimp only at h
          cases rest with
          | nil =>
            rw [follow_nil] at h
            exact .file hname hentry (Except.ok.inj h).symm
          | cons step' rest =>
            -- nothing can be followed from a file
            exact nomatch hentry.symm.trans (directory_of_follow h)
        | link target =>
          cases links with
          | zero => cases h
          | succ links => exact .link hname hmore hentry (follows_of_follow h)
termination_by (links, steps.length)

/-! ## Ways -/

theorem Way.directory (h : t.Way left stop links dir steps) : t.get? stop = some .directory := by
  induction h with
  | done h => exact h
  | stay _ _ _ ih | up _ _ ih | link _ _ _ ih | down _ _ _ ih => exact ih

theorem Way.start (h : t.Way left stop links dir steps) : t.get? dir = some .directory := by
  cases h with
  | done h => exact h
  | stay h | up h => exact h
  | link h | down h => exact h.directory

/-- A way that goes on where another ends. -/
theorem Way.append {left' : Nat} {stop' : Key} (h : t.Way left stop links dir steps)
    (hrest : t.Way left' stop' left stop rest) : t.Way left' stop' links dir (steps ++ rest) := by
  induction h with
  | done _ => exact hrest
  | stay hdir hstep _ ih => exact .stay hdir hstep ih
  | up hdir _ ih => exact .up hdir ih
  | link hname hlink _ ih => exact .link hname hlink (List.append_assoc .. ▸ ih)
  | down hname hdir _ ih => exact .down hname hdir ih

/-- A way through two rows of steps is a way through each. -/
theorem Way.split (h : t.Way left stop links dir (steps ++ rest)) :
    ∃ left' stop', t.Way left' stop' links dir steps ∧ t.Way left stop left' stop' rest := by
  generalize hall : steps ++ rest = all at h
  induction h generalizing steps with
  | done hdir =>
    obtain ⟨rfl, rfl⟩ := List.append_eq_nil_iff.mp hall
    exact ⟨_, _, .done hdir, .done hdir⟩
  | stay hdir hstep hway ih =>
    rcases List.append_eq_cons_iff.mp hall with ⟨rfl, rfl⟩ | ⟨steps, rfl, rfl⟩
    · exact ⟨_, _, .done hdir, .stay hdir hstep hway⟩
    · obtain ⟨left', stop', h₁, h₂⟩ := ih rfl
      exact ⟨left', stop', .stay hdir hstep h₁, h₂⟩
  | up hdir hway ih =>
    rcases List.append_eq_cons_iff.mp hall with ⟨rfl, rfl⟩ | ⟨steps, rfl, rfl⟩
    · exact ⟨_, _, .done hdir, .up hdir hway⟩
    · obtain ⟨left', stop', h₁, h₂⟩ := ih rfl
      exact ⟨left', stop', .up hdir h₁, h₂⟩
  | link hname hlink hway ih =>
    rcases List.append_eq_cons_iff.mp hall with ⟨rfl, rfl⟩ | ⟨steps, rfl, rfl⟩
    · exact ⟨_, _, .done hname.directory, .link hname hlink hway⟩
    · obtain ⟨left', stop', h₁, h₂⟩ := ih (List.append_assoc ..)
      exact ⟨left', stop', .link hname hlink h₁, h₂⟩
  | down hname hdir hway ih =>
    rcases List.append_eq_cons_iff.mp hall with ⟨rfl, rfl⟩ | ⟨steps, rfl, rfl⟩
    · exact ⟨_, _, .done hname.directory, .down hname hdir hway⟩
    · obtain ⟨left', stop', h₁, h₂⟩ := ih rfl
      exact ⟨left', stop', .down hname hdir h₁, h₂⟩

/-- With more links allowed, so many more are left. -/
theorem Way.add (h : t.Way left stop links dir steps) (n : Nat) :
    t.Way (left + n) stop (links + n) dir steps := by
  induction h with
  | done h => exact .done h
  | stay hdir hstep _ ih => exact .stay hdir hstep ih
  | up hdir _ ih => exact .up hdir ih
  | link hname hlink _ ih =>
    rw [Nat.add_right_comm]
    exact .link hname hlink ih
  | down hname hdir _ ih => exact .down hname hdir ih

/-- Steps without those that stay. -/
def plain (steps : List Text) : List Text := steps.filter fun step => !isStay step

theorem plain_append (xs ys : List Text) : plain (xs ++ ys) = plain xs ++ plain ys :=
  List.filter_append ..

theorem plain_cons_of_stay (h : isStay step = true) : plain (step :: rest) = plain rest :=
  List.filter_cons_of_neg (by simp [h])

theorem plain_cons (h : isStay step = false) : plain (step :: rest) = step :: plain rest :=
  List.filter_cons_of_pos (by simp [h])

/-- Before the first step that does not stay, all steps do. -/
theorem exists_of_plain_eq_cons {tail : List Text} (h : plain steps = step :: tail) :
    ∃ front more, steps = front ++ step :: more ∧ (∀ x ∈ front, isStay x = true) ∧
      plain more = tail := by
  obtain ⟨front, more, hsteps, hfront, -, hmore⟩ := List.filter_eq_cons_iff.mp h
  exact ⟨front, more, hsteps, fun x hx => by simpa using hfront x hx, hmore⟩

theorem Way.stays {front : List Text} (hfront : ∀ x ∈ front, isStay x = true)
    (h : t.Way left stop links dir steps) : t.Way left stop links dir (front ++ steps) := by
  induction front with
  | nil => exact h
  | cons step front ih =>
    obtain ⟨hstep, hfront⟩ := List.forall_mem_cons.mp hfront
    exact .stay h.start hstep (ih hfront)

/-- Steps that stay make no difference. -/
theorem Way.of_plain {steps' : List Text} (h : t.Way left stop links dir steps)
    (hplain : plain steps = plain steps') : t.Way left stop links dir steps' := by
  induction h generalizing steps' with
  | done hdir =>
    have hstays : ∀ x ∈ steps', isStay x = true := fun x hx => by
      simpa using List.filter_eq_nil_iff.mp hplain.symm x hx
    exact List.append_nil steps' ▸ Way.stays hstays (.done hdir)
  | stay _ hstep _ ih => exact ih (plain_cons_of_stay hstep ▸ hplain)
  | up hdir _ ih =>
    rw [plain_cons rfl] at hplain
    obtain ⟨front, more, rfl, hfront, hmore⟩ := exists_of_plain_eq_cons hplain.symm
    exact Way.stays hfront (.up hdir (ih hmore.symm))
  | link hname hlink _ ih =>
    rw [plain_cons hname.stay] at hplain
    obtain ⟨front, more, rfl, hfront, hmore⟩ := exists_of_plain_eq_cons hplain.symm
    exact Way.stays hfront (.link hname hlink (ih (by rw [plain_append, plain_append, hmore])))
  | down hname hdir _ ih =>
    rw [plain_cons hname.stay] at hplain
    obtain ⟨front, more, rfl, hfront, hmore⟩ := exists_of_plain_eq_cons hplain.symm
    exact Way.stays hfront (.down hname hdir (ih hmore.symm))

/-- Behind a way, the steps are followed from where it ends. -/
theorem Way.follow_append (h : t.Way left stop links dir steps) (hrest : rest ≠ [])
    (hcreating : ¬ (creating = true ∧ rest = [[]])) :
    t.follow creating links dir (steps ++ rest) = t.follow creating left stop rest := by
  have hmore : ∀ more : List Text, ¬ (creating = true ∧ more ++ rest = [[]]) := by
    rintro more ⟨hc, he⟩
    rcases List.append_eq_cons_iff.mp he with ⟨-, he⟩ | ⟨_, -, he⟩
    · exact hcreating ⟨hc, he⟩
    · exact hrest (List.append_eq_nil_iff.mp he.symm).2
  induction h with
  | done _ => rfl
  | stay hdir hstep _ ih => rw [List.cons_append, follow_stay hdir hstep, ih]
  | up hdir _ ih => rw [List.cons_append, follow_up hdir, ih]
  | link hname hlink _ ih =>
    rw [List.cons_append, follow_name hname (hmore _), hlink, ← ih, List.append_assoc]
  | down hname hdir _ ih => rw [List.cons_append, follow_name hname (hmore _), hdir, ← ih]

theorem Way.follow_eq (h : t.Way left stop links dir steps) :
    t.follow false links dir steps = .ok (.there stop) := by
  have hno : ∀ rest : List Text, ¬ (false = true ∧ rest = [[]]) := fun _ h => Bool.false_ne_true h.1
  induction h with
  | done _ => exact follow_nil
  | stay hdir hstep _ ih => rw [follow_stay hdir hstep, ih]
  | up hdir _ ih => rw [follow_up hdir, ih]
  | link hname hlink _ ih => rw [follow_name hname (hno _), hlink, ← ih]
  | down hname hdir _ ih => rw [follow_name hname (hno _), hdir, ← ih]

/-- Steps lead to one directory. -/
theorem Way.unique {left' : Nat} {stop' : Key} (h : t.Way left stop links dir steps)
    (h' : t.Way left' stop' links dir steps) : stop = stop' := by
  have := h.follow_eq.symm.trans h'.follow_eq
  cases this
  rfl

/-- Steps that are followed to a directory are a way, and so are steps that others follow. -/
theorem way_of_follow {place : Place}
    (h : t.follow creating links dir (steps ++ rest) = .ok place)
    (hrest : rest ≠ [] ∨ ∃ k, place = .there k ∧ t.get? k = some .directory) :
    ∃ left stop, t.Way left stop links dir steps := by
  have hfollows := follows_of_follow h
  generalize hall : steps ++ rest = all at hfollows
  clear h
  induction hfollows generalizing steps with
  | done hplace =>
    obtain ⟨rfl, rfl⟩ := List.append_eq_nil_iff.mp hall
    obtain ⟨k, hk, hdir⟩ := hrest.resolve_left fun he => he rfl
    obtain rfl := Place.there.inj (hplace.symm.trans hk)
    exact ⟨_, _, .done hdir⟩
  | stay hdir hstep _ ih =>
    rcases List.append_eq_cons_iff.mp hall with ⟨rfl, rfl⟩ | ⟨steps, rfl, rfl⟩
    · exact ⟨_, _, .done hdir⟩
    · obtain ⟨left, stop, hway⟩ := ih rfl
      exact ⟨left, stop, .stay hdir hstep hway⟩
  | up hdir _ ih =>
    rcases List.append_eq_cons_iff.mp hall with ⟨rfl, rfl⟩ | ⟨steps, rfl, rfl⟩
    · exact ⟨_, _, .done hdir⟩
    · obtain ⟨left, stop, hway⟩ := ih rfl
      exact ⟨left, stop, .up hdir hway⟩
  | link hname _ hlink _ ih =>
    rcases List.append_eq_cons_iff.mp hall with ⟨rfl, rfl⟩ | ⟨steps, rfl, rfl⟩
    · exact ⟨_, _, .done hname.directory⟩
    · obtain ⟨left, stop, hway⟩ := ih (List.append_assoc ..)
      exact ⟨left, stop, .link hname hlink hway⟩
  | down hname _ hdir _ ih =>
    rcases List.append_eq_cons_iff.mp hall with ⟨rfl, rfl⟩ | ⟨steps, rfl, rfl⟩
    · exact ⟨_, _, .done hname.directory⟩
    · obtain ⟨left, stop, hway⟩ := ih rfl
      exact ⟨left, stop, .down hname hdir hway⟩
  | file hname hfile hplace =>
    rcases List.append_eq_cons_iff.mp hall with ⟨rfl, rfl⟩ | ⟨steps, rfl, hnil⟩
    · exact ⟨_, _, .done hname.directory⟩
    · obtain ⟨k, hk, hdir⟩ := hrest.resolve_left fun he => he (List.append_eq_nil_iff.mp hnil.symm).2
      obtain rfl := Place.there.inj (hplace.symm.trans hk)
      exact nomatch hfile.symm.trans hdir
  | vacant hname _ hplace =>
    rcases List.append_eq_cons_iff.mp hall with ⟨rfl, rfl⟩ | ⟨steps, rfl, hnil⟩
    · exact ⟨_, _, .done hname.directory⟩
    · obtain ⟨k, hk, -⟩ := hrest.resolve_left fun he => he (List.append_eq_nil_iff.mp hnil.symm).2
      exact nomatch hplace.symm.trans hk

/-- With fewer links allowed, the steps lead to the same place unless there are too many links. -/
theorem follow_of_le {links more : Nat} {dir : Key} {steps : List Text} (h : links ≤ more) :
    t.follow false links dir steps = .error .tooManyLinks ∨
      t.follow false links dir steps = t.follow false more dir steps := by
  cases steps with
  | nil => exact Or.inr (by rw [follow_nil, follow_nil])
  | cons step rest =>
    by_cases hdir : t.get? dir = some .directory
    · by_cases hstay : isStay step = true
      · rw [follow_stay hdir hstay, follow_stay hdir hstay]
        exact follow_of_le h
      by_cases hup : step = upStep
      · subst hup
        rw [follow_up hdir, follow_up hdir]
        exact follow_of_le h
      by_cases hlong : nameLimit < step.byteLength
      · refine Or.inr ?_
        rw [follow_beyond hdir (Bool.eq_false_iff.mpr hstay) hup,
          follow_beyond hdir (Bool.eq_false_iff.mpr hstay) hup]
        simp [hlong]
      · have hname : t.NameStep dir step := ⟨hdir, Bool.eq_false_iff.mpr hstay, hup, hlong⟩
        have hno : ¬ (false = true ∧ rest = [[]]) := fun h => Bool.false_ne_true h.1
        rw [follow_name hname hno, follow_name hname hno]
        cases hentry : t.get? (dir ++ [step]) with
        | none => exact Or.inr rfl
        | some e =>
          cases e with
          | directory | file => exact follow_of_le h
          | link target =>
            cases links with
            | zero => exact Or.inl rfl
            | succ links =>
              cases more with
              | zero => exact absurd h (Nat.not_succ_le_zero links)
              | succ more => exact follow_of_le (Nat.le_of_succ_le_succ h)
    · exact Or.inr (by rw [follow_of_not_directory hdir, follow_of_not_directory hdir])
termination_by (links, steps.length)

/-- The way to a file stays when the directories and the links stay, and a file at its key. -/
theorem follow_file_of_kept {k : Key} {bytes : List UInt8}
    (hdirs : ∀ x, t.get? x = some .directory → u.get? x = some .directory)
    (hlinks : ∀ x target, t.get? x = some (.link target) → u.get? x = some (.link target))
    (hk : u.get? k = some (.file bytes))
    (h : t.follow false links dir steps = .ok (.there k)) :
    u.follow false links dir steps = .ok (.there k) := by
  have hno : ∀ rest : List Text, ¬ (false = true ∧ rest = [[]]) := fun _ h => Bool.false_ne_true h.1
  have hfollows := follows_of_follow h
  clear h
  induction hfollows with
  | done hplace => rw [follow_nil, hplace]
  | stay hdir hstay _ ih => rw [follow_stay (hdirs _ hdir) hstay, ih]
  | up hdir _ ih => rw [follow_up (hdirs _ hdir), ih]
  | link hname _ hlink _ ih => rw [follow_name (hname.of_kept hdirs) (hno _), hlinks _ _ hlink, ← ih]
  | down hname _ hdir _ ih => rw [follow_name (hname.of_kept hdirs) (hno _), hdirs _ hdir, ← ih]
  | file hname _ hplace =>
    cases hplace
    rw [follow_name (hname.of_kept hdirs) (hno _), hk]
    exact follow_nil
  | vacant _ _ hplace => cases hplace

end FirmwareIds.FileTree
