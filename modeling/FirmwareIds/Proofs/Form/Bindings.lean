import FirmwareIds.Proofs.Form.Questions
import Mathlib.Data.Nat.Find

/-!
# What the questions of a form source are bound to

A question is bound to a store and a field if its head goes on with an equals sign and the two. All
references of a question carry what stands first in it, and no place in the question is left out of that
search: where the head of a question does not go on like this, but something behind it looks like a
head that does, its references carry that. `binding_by_places` says which binding they carry, and when
it is that of the head.
-/

namespace FirmwareIds

namespace Form

open Pattern

/-! ## Bindings -/

/-- The head of a question with a store and a field, in its parts. -/
structure BindingParts where
  head : QuestionHead
  /-- The blanks before the equals sign. -/
  behindName : AnyOf isBlank
  /-- The blanks behind the equals sign. -/
  behindSign : AnyOf isBlank
  store : RunOf isWordChar
  field : RunOf isWordChar

namespace BindingParts

/-- What the question is bound to. -/
def bound (w : BindingParts) : Text := w.store.text ++ '.' :: w.field.text

/-- The head and what it is bound to. -/
def text (w : BindingParts) : Text :=
  w.head.text ++ (w.behindName.text ++ ('=' :: (w.behindSign.text ++ w.bound)))

theorem text_append (w : BindingParts) (z : Text) :
    w.text ++ z = w.head.text ++ (w.behindName.text ++ (['='] ++ (w.behindSign.text ++
      (w.store.text ++ (['.'] ++ (w.field.text ++ z)))))) := by
  simp only [text, bound, List.append_assoc, List.cons_append, List.nil_append]

theorem read_append (w : BindingParts) {z : Text} (hz : EndsRun isWordChar z) :
    binding.read (w.text ++ z) = some ⟨w.bound, w.text, z⟩ := by
  have hstore : ∀ y, EndsRun isBlank (w.store.text ++ y) :=
    endsRun_of_run w.store fun _ => Resource.isBlank_of_isWordChar
  rw [text_append, ← List.append_nil w.text, text_append]
  refine read_bind_of (w.head.read_append _) ?_
  refine read_bind_of (read_many_append (fun _ => w.behindName.class_of_mem) (endsRun_cons rfl _)) ?_
  refine read_bind_of (read_word_append ['='] _) ?_
  refine read_bind_of (read_many_append (fun _ => w.behindSign.class_of_mem) (hstore _)) ?_
  refine read_bind_of (read_many1_append w.store (endsRun_cons rfl _)) ?_
  refine read_bind_of (read_word_append ['.'] _) ?_
  exact read_bind_of (read_many1_append w.field hz) (read_pure _ _)

theorem semicolon_not_mem_text (w : BindingParts) : ';' ∉ w.text := by
  have hkeyword : ∀ k ∈ keywords, ';' ∉ k := by decide
  have hvarid : ';' ∉ "varid".toList := by decide
  simp only [text, bound, QuestionHead.text, List.mem_append, List.mem_cons, not_or]
  exact ⟨⟨w.head.before.not_mem rfl, hkeyword _ w.head.known, w.head.gap.not_mem rfl, hvarid⟩,
    w.behindName.not_mem rfl, by decide, w.behindSign.not_mem rfl, w.store.not_mem rfl, by decide,
    w.field.not_mem rfl⟩

end BindingParts

theorem read_binding_inv {s : Text} {r : Reading Text} (h : binding.read s = some r) :
    ∃ w : BindingParts, s = w.text ++ r.rest ∧ EndsRun isWordChar r.rest ∧
      r = ⟨w.bound, w.text, r.rest⟩ := by
  have hs := binding.taken_append_rest h
  obtain ⟨_, _, hhead, h, htaken⟩ := read_bind_inv h
  obtain ⟨head, -, hhead⟩ := read_questionHead_inv hhead
  obtain ⟨behindName, _, _, -, -, h, rfl⟩ := read_many_bind_inv h
  obtain ⟨_, _, -, h, rfl⟩ := read_word_bind_inv h
  obtain ⟨behindSign, _, _, -, -, h, rfl⟩ := read_many_bind_inv h
  obtain ⟨store, _, _, -, -, h, rfl⟩ := read_many1_bind_inv h
  obtain ⟨_, _, -, h, rfl⟩ := read_word_bind_inv h
  obtain ⟨field, _, _, -, hend, h, rfl⟩ := read_many1_bind_inv h
  obtain ⟨note, taken, rest⟩ := r
  cases h
  obtain rfl : taken = BindingParts.text ⟨head, behindName, behindSign, store, field⟩ := by
    rw [show taken = _ from htaken, hhead, ← List.append_nil (BindingParts.text _),
      BindingParts.text_append]
  exact ⟨_, hs.symm, hend, rfl⟩

/-- The head of a question stands at a place of the source, and goes on with this store and field. -/
def BindsAt (source : Text) (i : Nat) (v : Text) : Prop :=
  ∃ (w : BindingParts) (rest : Text),
    source.drop i = w.text ++ rest ∧ EndsRun isWordChar rest ∧ w.bound = v

theorem hitAt?_binding_iff {s : Text} {i : Nat} {v : Text} :
    (∃ r, binding.hitAt? .anywhere s i = some r ∧ r.note = v) ↔ BindsAt s i v := by
  constructor
  · rintro ⟨r, hhit, rfl⟩
    obtain ⟨-, hread, -⟩ := hitAt?_eq_some_iff.mp hhit
    obtain ⟨w, hs, hend, hr⟩ := read_binding_inv hread
    exact ⟨w, r.rest, hs, hend, by rw [hr]⟩
  · rintro ⟨w, rest, hs, hend, rfl⟩
    have hread := w.read_append hend
    rw [← hs] at hread
    refine ⟨_, hitAt?_eq_some_iff.mpr ⟨nofun, hread, ?_⟩, rfl⟩
    simp [BindingParts.text]

theorem BindsAt.lt_length {s : Text} {i : Nat} {v : Text} (h : BindsAt s i v) : i < s.length := by
  obtain ⟨r, hr, -⟩ := hitAt?_binding_iff.mpr h
  exact lt_length_of_hitAt? hr

/-- A binding that begins in a question stands in it. -/
theorem bindsAt_iff_of_question {source : Text} {o : Occurrence Unit} (ho : o ∈ questions source)
    {i : Nat} (hle : o.start ≤ i) (hlt : i < o.stop) {v : Text} :
    BindsAt source i v ↔ BindsAt o.taken (i - o.start) v := by
  obtain ⟨z, hs, hend⟩ := exists_drop_eq ho hle hlt
  have hsame : ∀ more : Text, more ≠ [] →
      (EndsRun isWordChar (more ++ z) ↔ EndsRun isWordChar more) := by
    intro more hmore
    obtain ⟨c, more, rfl⟩ := List.exists_cons_of_ne_nil hmore
    exact Iff.rfl
  unfold BindsAt
  rw [hs]
  constructor
  · rintro ⟨w, rest, h, hrest, rfl⟩
    obtain ⟨more, hne, hmore, rfl⟩ := append_inv_of_semicolon hend w.semicolon_not_mem_text h
    exact ⟨w, more, hmore, (hsame more hne).mp hrest, rfl⟩
  · rintro ⟨w, more, h, hmore, rfl⟩
    have hne : more ≠ [] := by
      rintro rfl
      rw [h, List.append_nil] at hend
      exact w.semicolon_not_mem_text (List.mem_of_getLast? hend)
    exact ⟨w, more ++ z, by rw [h, List.append_assoc], (hsame more hne).mpr hmore, rfl⟩

/-- The first place in a question where a store and a field are bound binds these. -/
def BindsFirst (source : Text) (o : Occurrence Unit) (v : Text) : Prop :=
  ∃ i, (o.start ≤ i ∧ i < o.stop) ∧ BindsAt source i v ∧
    ∀ j, o.start ≤ j → j < i → ∀ w, ¬ BindsAt source j w

theorem exists_bindsFirst {source v : Text} {o : Occurrence Unit} {i : Nat} (hle : o.start ≤ i)
    (hlt : i < o.stop) (h : BindsAt source i v) : ∃ w, BindsFirst source o w := by
  classical
  have hex : ∃ k, (o.start ≤ k ∧ k < o.stop) ∧ ∃ w, BindsAt source k w := ⟨i, ⟨hle, hlt⟩, v, h⟩
  obtain ⟨hinside, w, hw⟩ := Nat.find_spec hex
  refine ⟨w, Nat.find hex, hinside, hw, fun j hj hfirst w' hw' => ?_⟩
  exact Nat.find_min hex hfirst ⟨⟨hj, Nat.lt_trans hfirst hinside.2⟩, w', hw'⟩

theorem first?_binding_iff {t v : Text} :
    binding.first? .anywhere t = some v ↔
      ∃ i, BindsAt t i v ∧ ∀ j < i, ∀ w, ¬ BindsAt t j w := by
  have hnone : ∀ j, binding.hitAt? .anywhere t j = none ↔ ∀ w, ¬ BindsAt t j w := by
    intro j
    constructor
    · intro hnone w hw
      obtain ⟨r, hr, -⟩ := hitAt?_binding_iff.mpr hw
      rw [hnone] at hr
      cases hr
    · intro h
      rw [Option.eq_none_iff_forall_ne_some]
      exact fun r hr => h r.note (hitAt?_binding_iff.mp ⟨r, hr, rfl⟩)
  rw [first?_eq_some_iff]
  refine exists_congr fun i => ?_
  simp only [hnone, ← hitAt?_binding_iff (v := v)]
  grind

end Form

namespace Reference

open Pattern Form

theorem binding_of_mem_ofQuestion {question : Text} {path : Path} {r : Reference}
    (h : r ∈ ofQuestion question path) : r.binding = Form.binding.first? .anywhere question := by
  obtain ⟨token, -, rfl⟩ := List.mem_map.mp h
  rfl

/-- The references of a question carry what stands first in it. -/
theorem binding_eq_some_iff {source : Text} {path : Path} {o : Occurrence Unit} {r : Reference}
    (ho : o ∈ questions source) (hr : r ∈ ofQuestion o.taken path) {v : Text} :
    r.binding = some v ↔ BindsFirst source o v := by
  rw [binding_of_mem_ofQuestion hr, first?_binding_iff]
  constructor
  · rintro ⟨k, hat, hbefore⟩
    have hstop : o.start + k < o.stop := Nat.add_lt_add_left hat.lt_length o.start
    refine ⟨o.start + k, ⟨Nat.le_add_right .., hstop⟩, ?_, fun j hle hj w hw => ?_⟩
    · rw [bindsAt_iff_of_question ho (Nat.le_add_right ..) hstop, Nat.add_sub_cancel_left]
      exact hat
    · have hj' := (bindsAt_iff_of_question ho hle (Nat.lt_trans hj hstop)).mp hw
      exact hbefore (j - o.start) (by omega) w hj'
  · rintro ⟨i, ⟨hle, hlt⟩, hat, hbefore⟩
    refine ⟨i - o.start, (bindsAt_iff_of_question ho hle hlt).mp hat, fun j hj w hw => ?_⟩
    refine hbefore (o.start + j) (Nat.le_add_right ..) (by omega) w ?_
    rw [bindsAt_iff_of_question ho (Nat.le_add_right ..) (by omega), Nat.add_sub_cancel_left]
    exact hw

/-- The references of a question carry the first binding in it. That is the one of its head, and none if
its head has none, exactly when the head has one or none begins behind the front of the question. -/
theorem binding_by_places {source : Text} {path : Path} {o : Occurrence Unit} {r : Reference}
    (ho : o ∈ questions source) (hr : r ∈ ofQuestion o.taken path) :
    (∀ v, r.binding = some v ↔ BindsFirst source o v) ∧
      ((∀ v, r.binding = some v ↔ BindsAt source o.start v) ↔
        (∃ v, BindsAt source o.start v) ∨
          ∀ i, o.start < i → i < o.stop → ∀ v, ¬ BindsAt source i v) := by
  have hfirst : ∀ v, r.binding = some v ↔ BindsFirst source o v :=
    fun v => binding_eq_some_iff ho hr
  have hhead : ∀ v, BindsAt source o.start v → r.binding = some v := by
    intro v hv
    have hinside := (question.sweep_cut .lineStart source).start_lt_stop ho
    exact (hfirst v).mpr ⟨o.start, ⟨Nat.le_refl _, hinside⟩, hv, fun j _ _ => by omega⟩
  refine ⟨hfirst, fun hclaim => ?_, fun hcases v => ⟨fun hv => ?_, hhead v⟩⟩
  · rw [or_iff_not_imp_left]
    intro hnone i hi hlt v hat
    obtain ⟨w, hw⟩ := exists_bindsFirst (Nat.le_of_lt hi) hlt hat
    exact hnone ⟨w, (hclaim w).mp ((hfirst w).mpr hw)⟩
  · obtain ⟨i, ⟨hle, hlt⟩, hat, hbefore⟩ := (hfirst v).mp hv
    rcases Nat.eq_or_lt_of_le hle with hfront | hi
    · rw [hfront]
      exact hat
    · rcases hcases with ⟨w, hw⟩ | hquiet
      · exact absurd hw (hbefore o.start (Nat.le_refl _) hi w)
      · exact absurd hat (hquiet i hi hlt v)

/-- A question whose head is bound. -/
def boundQuestion : Text :=
  "oneof varid = Setup.A,\n  prompt = STRING_TOKEN(STR_A),\nendoneof;".toList

/-- Its reference carries what the head is bound to. -/
theorem boundQuestion_carries_head :
    ∃ o ∈ questions boundQuestion, ∃ r ∈ ofQuestion o.taken ⟨"f.vfr".toList⟩,
      ∀ v, r.binding = some v ↔ BindsAt boundQuestion o.start v := by
  have ho : ⟨0, boundQuestion, ()⟩ ∈ questions boundQuestion := by decide +kernel
  have hr : ⟨"STR_A".toList, some "Setup.A".toList, ⟨"f.vfr".toList⟩⟩ ∈
      ofQuestion boundQuestion ⟨"f.vfr".toList⟩ := by decide +kernel
  have hhead : BindsAt boundQuestion 0 "Setup.A".toList := hitAt?_binding_iff.mp ⟨_, rfl, rfl⟩
  exact ⟨_, ho, _, hr, (binding_by_places ho hr).2.mpr (Or.inl ⟨_, hhead⟩)⟩

/-- A question whose head is bound to no field, with a comment that holds another head. -/
def commentedQuestion : Text :=
  ("oneof varid = MODE,\n  prompt = STRING_TOKEN(STR_A),\n" ++
    "  // was: oneof varid = Setup.Old\nendoneof;").toList

/-- Its reference carries what the comment says. -/
theorem comment_binds_question :
    ∃ o ∈ questions commentedQuestion, ∃ r ∈ ofQuestion o.taken ⟨"f.vfr".toList⟩,
      r.binding = some "Setup.Old".toList ∧ ∀ v, ¬ BindsAt commentedQuestion o.start v := by
  have ho : ⟨0, commentedQuestion, ()⟩ ∈ questions commentedQuestion := by decide +kernel
  have hr : ⟨"STR_A".toList, some "Setup.Old".toList, ⟨"f.vfr".toList⟩⟩ ∈
      ofQuestion commentedQuestion ⟨"f.vfr".toList⟩ := by decide +kernel
  have hnone : (Form.binding.hitAt? .anywhere commentedQuestion 0).isNone := by decide +kernel
  refine ⟨_, ho, _, hr, rfl, fun v hv => ?_⟩
  obtain ⟨r, hhit, -⟩ := hitAt?_binding_iff.mpr hv
  rw [Option.isNone_iff_eq_none.mp hnone] at hhit
  cases hhit

end Reference

end FirmwareIds
