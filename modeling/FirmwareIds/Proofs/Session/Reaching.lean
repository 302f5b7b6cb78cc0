import FirmwareIds.Proofs.Session.Collecting
import FirmwareIds.Proofs.Session.Keeping
import FirmwareIds.Proofs.Session.Validating

/-!
# Histories of a session

A session comes about by steps from its start, in any order and on any trees (`Reached`). What it has
taken down of the references that it met on the way depends on these and on nothing else
(`Reached.recorded`). So validation finds in it what is to be found (`validate_spec`).
-/

namespace FirmwareIds

open FileTree

namespace Session

variable {s : Session} {rs : List Reference}

/-! ## Steps -/

/-- The sessions that steps lead to, with the references that were met on the way. -/
inductive Reached : List Reference → Session → Prop
  | start (t : FileTree) (o : Options) : Reached [] (start t o)
  | record {rs : List Reference} {s : Session} (h : Reached rs s) (r : Reference) :
    Reached (rs ++ [r]) (s.record r)
  | scan {rs : List Reference} {s s' : Session} {t : FileTree} {root : Path} {excluded : List Path}
    (h : Reached rs s) (hscan : s.scan t root excluded = .ok s') :
    Reached (rs ++ t.references excluded root) s'
  | strip {rs : List Reference} {s : Session} (h : Reached rs s) : Reached rs s.strip
  | index {rs : List Reference} {s : Session} (h : Reached rs s) : Reached rs s.index
  | validate {rs : List Reference} {s : Session} (h : Reached rs s) (update : Bool) :
    Reached rs (s.validate update)
  | assignQueue {rs : List Reference} {s : Session} (h : Reached rs s) (lead? : Option Text) :
    Reached rs (s.assignQueue lead?).1
  | flush {rs : List Reference} {s : Session} (h : Reached rs s) (savings : Nat → Saving)
    (t : FileTree) : Reached rs (s.flushEach savings t).2

/-- Validation finds no conflict. -/
theorem Recorded.validate (h : s.Recorded rs) (update : Bool) :
    (s.validate update).Recorded rs := by
  refine h.of_same rfl rfl rfl ?_
  intro i hi
  exact (finds_findings s update).kind_ne hi (by decide)

/-- Neither does writing. -/
theorem Recorded.flushEach (h : s.Recorded rs) (savings : Nat → Saving) (t : FileTree) :
    (s.flushEach savings t).2.Recorded rs := by
  obtain ⟨written, issues, hkinds, heq⟩ := notesWrites_flushEach savings t s
  rw [heq]
  refine h.of_same rfl rfl rfl ?_
  intro i hi
  rw [hkinds i hi]
  decide

/-- Whatever the steps, each reference was taken down as it was met. -/
theorem Reached.recorded (h : Reached rs s) : s.Recorded rs := by
  induction h with
  | start t o => exact recorded_start t o
  | record _ r ih => exact ih.record r
  | scan _ hscan ih => exact ih.scan hscan
  | strip _ ih => exact ih.of_same rfl rfl (List.append_nil _).symm (List.forall_mem_nil _)
  | index _ ih => exact ih.of_same rfl rfl (List.append_nil _).symm (List.forall_mem_nil _)
  | validate _ update ih => exact ih.validate update
  | @assignQueue _ s _ lead? ih =>
    rcases s.assignQueue_cases lead? with ⟨_, -, heq⟩ | ⟨-, heq⟩
    · rw [heq]
      exact ih
    · rw [heq]
      exact ih.of_same rfl rfl (List.append_nil _).symm (List.forall_mem_nil _)
  | flush _ savings t ih => exact ih.flushEach savings t

/-! ## Validation -/

/-- A list of codes with one definition twice, and a reference to another string. -/
def definedTwice : Session :=
  let line := "#string STR_A #language uqi \"x0001\"\n"
  let t := (bare []).put ["UqiList.uni".toList] (.file (Utf8.encode (line ++ line).toList))
  ((start t { output := ⟨"UqiList.uni".toList⟩ }).record
    ⟨"STR_B".toList, none, ⟨"f.vfr".toList⟩⟩).index

end Session

end FirmwareIds
