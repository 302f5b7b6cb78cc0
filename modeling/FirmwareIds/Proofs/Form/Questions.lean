import FirmwareIds.Proofs.Form.References
import FirmwareIds.Proofs.Text.Searching

/-!
# Where the questions of a form source are

A question opens where a line starts, with a keyword and `varid`, and goes on to the nearest end mark. A
question that opens inside another one belongs to it, and there is none where no end mark follows. So
the questions of a source are disjoint, and whatever opens with an end mark behind it is in one of them.

The prompts of a question are all places in it where one stands: no prompt begins inside another one,
and none reaches over the end of a question, since it holds no semicolon. `questions_by_places` puts
this together.
-/

namespace FirmwareIds

namespace Form

open Pattern

/-! ## Questions -/

/-- A question opens at a place where a line starts, and an end mark follows somewhere behind its head
and one character. -/
def OpensAt (source : Text) (i : Nat) : Prop :=
  StartsLine source i ∧ ∃ (head : QuestionHead) (body mark rest : Text),
    source.drop i = head.text ++ (body ++ (mark ++ rest)) ∧ body ≠ [] ∧ mark ∈ endMarks

/-- A question stands in the source from the place `i` to the place `j`: it opens where a line starts,
and its end mark is the first one behind the head and one character. -/
def QuestionAt (source : Text) (i j : Nat) : Prop :=
  StartsLine source i ∧ ∃ (head : QuestionHead) (body mark rest : Text),
    source.drop i = head.text ++ (body ++ (mark ++ rest)) ∧ body ≠ [] ∧ mark ∈ endMarks ∧
      (∀ k, 0 < k → k < body.length → ∀ w ∈ endMarks, ¬ w <+: (body ++ (mark ++ rest)).drop k) ∧
      j = i + (head.text ++ (body ++ mark)).length

/-- A question is its head, a body of one character or more, and the first end mark behind that. -/
theorem read_question_inv {s : Text} {r : Reading Unit} (h : question.read s = some r) :
    ∃ (head : QuestionHead) (body mark : Text), s = head.text ++ (body ++ (mark ++ r.rest)) ∧
      body ≠ [] ∧ mark ∈ endMarks ∧
      (∀ k, 0 < k → k < body.length → ∀ w ∈ endMarks,
        ¬ w <+: (body ++ (mark ++ r.rest)).drop k) ∧
      r.taken = head.text ++ (body ++ mark) := by
  obtain ⟨r₁, _, h₁, h, htaken⟩ := read_bind_inv h
  obtain ⟨head, hs, hr₁⟩ := read_questionHead_inv h₁
  obtain ⟨one, z, _, hone, -, hlength, h, rfl⟩ := read_exactly_bind_inv h
  obtain ⟨n, r₂, hn, hmark, hfirst, hr⟩ := nearest_inv h
  obtain ⟨mark, hmem, hz, hr₂⟩ := read_endMark_iff.mp hmark
  obtain ⟨c, rfl⟩ := List.length_eq_one_iff.mp hlength
  obtain ⟨-, rfl, hrest⟩ := Reading.mk.inj hr
  have hbehind : c :: z.take n ++ (mark ++ r.rest) = c :: z := by
    rw [hrest, ← hz, List.cons_append, List.take_append_drop]
  refine ⟨head, c :: z.take n, mark, ?_, List.cons_ne_nil _ _, hmem, ?_, ?_⟩
  · rw [hs, hone, hbehind]
    rfl
  · intro k hk hlt w hw hprefix
    obtain ⟨k, rfl⟩ := Nat.exists_eq_succ_of_ne_zero (Nat.ne_of_gt hk)
    rw [List.length_cons, List.length_take_of_le hn] at hlt
    rw [hbehind, List.drop_succ_cons] at hprefix
    obtain ⟨y, hy⟩ := hprefix
    have hnone := hfirst k (Nat.lt_of_succ_lt_succ hlt)
    rw [← hy, read_endMark_append hw] at hnone
    cases hnone
  · rw [htaken, hr₁, hr₂]
    rfl

/-- A question is read wherever one opens. -/
theorem read_question_of_mark (head : QuestionHead) {body mark : Text} (hbody : body ≠ [])
    (hmark : mark ∈ endMarks) (rest : Text) :
    ∃ r, question.read (head.text ++ (body ++ (mark ++ rest))) = some r := by
  obtain ⟨c, body, rfl⟩ := List.exists_cons_of_ne_nil hbody
  have hend : endMark.read ((body ++ (mark ++ rest)).drop body.length) = some ⟨(), mark, rest⟩ := by
    rw [List.drop_left]
    exact read_endMark_append hmark rest
  obtain ⟨r, hr⟩ := nearest_of_read hend []
  have hone : (exactly 1 fun _ => true).read ([c] ++ (body ++ (mark ++ rest))) =
      some ⟨[c], [c], body ++ (mark ++ rest)⟩ :=
    read_exactly_append (t := [c]) (fun _ _ => rfl) rfl _
  exact ⟨_, read_bind_of (head.read_append _) (read_bind_of hone hr)⟩

theorem questionAt_of_hitAt? {source : Text} {i : Nat} {r : Reading Unit}
    (h : question.hitAt? .lineStart source i = some r) :
    QuestionAt source i (i + r.taken.length) := by
  obtain ⟨hline, hread, -⟩ := hitAt?_eq_some_iff.mp h
  obtain ⟨head, body, mark, hs, hbody, hmark, hfirst, htaken⟩ := read_question_inv hread
  exact ⟨hline rfl, head, body, mark, r.rest, hs, hbody, hmark, hfirst, by rw [htaken]⟩

theorem exists_hitAt?_of_opensAt {source : Text} {i : Nat} (h : OpensAt source i) :
    ∃ r, question.hitAt? .lineStart source i = some r := by
  obtain ⟨hline, head, body, mark, rest, hs, hbody, hmark⟩ := h
  obtain ⟨r, hr⟩ := read_question_of_mark head hbody hmark rest
  rw [← hs] at hr
  refine ⟨r, hitAt?_eq_some_iff.mpr ⟨fun _ => hline, hr, ?_⟩⟩
  obtain ⟨_, body, _, -, hbody, -, -, htaken⟩ := read_question_inv hr
  rw [htaken]
  simp [hbody]

theorem getLast?_of_mem_endMarks : ∀ mark ∈ endMarks, mark.getLast? = some ';' := by decide

/-- A question ends with the semicolon of its end mark. -/
theorem getLast?_question {s : Text} {r : Reading Unit} (h : question.read s = some r) :
    r.taken.getLast? = some ';' := by
  obtain ⟨_, _, mark, -, -, hmark, -, htaken⟩ := read_question_inv h
  rw [htaken, List.getLast?_append, List.getLast?_append, getLast?_of_mem_endMarks mark hmark]
  rfl

/-- The questions of a source, with their places. -/
def questions (source : Text) : List (Occurrence Unit) :=
  (question.cut .lineStart source).occurrences

/-- From each place in a question on, the rest of the question is at the front of the source. -/
theorem exists_drop_eq {source : Text} {o : Occurrence Unit} (ho : o ∈ questions source) {i : Nat}
    (hle : o.start ≤ i) (hlt : i < o.stop) :
    ∃ z, source.drop i = o.taken.drop (i - o.start) ++ z ∧
      (o.taken.drop (i - o.start)).getLast? = some ';' := by
  obtain ⟨rest, hhit⟩ := (question.sweep_cut .lineStart source).reads o ho
  obtain ⟨-, hread, -⟩ := hitAt?_eq_some_iff.mp hhit
  unfold Occurrence.stop at hlt
  refine ⟨rest, ?_, ?_⟩
  · rw [← List.drop_append_of_le_length (by omega), question.taken_append_rest hread,
      List.drop_drop, Nat.add_sub_cancel' hle]
  · rw [List.getLast?_drop, if_neg (by omega), getLast?_question hread]

/-- What holds no semicolon does not reach over one. -/
theorem append_inv_of_semicolon {t z w rest : Text} (hend : t.getLast? = some ';') (hw : ';' ∉ w)
    (h : t ++ z = w ++ rest) : ∃ more, more ≠ [] ∧ t = w ++ more ∧ rest = more ++ z := by
  have hmem : ';' ∈ t := List.mem_of_getLast? hend
  rcases List.append_eq_append_iff.mp h with ⟨more, rfl, -⟩ | ⟨more, rfl, hrest⟩
  · exact absurd (List.mem_append_left _ hmem) hw
  · refine ⟨more, ?_, rfl, hrest⟩
    rintro rfl
    rw [List.append_nil] at hmem
    exact hw hmem

/-! ## Prompts -/

namespace PromptParts

theorem not_mem_front (w : PromptParts) {c : Char} (hblank : isBlank c = false)
    (hword : c ∉ "prompt".toList) : c ∉ w.front := by
  show c ∉ "prompt".toList ++ w.behindName.text
  rw [List.mem_append, not_or]
  exact ⟨hword, w.behindName.not_mem hblank⟩

theorem not_mem_back (w : PromptParts) {c : Char} (hblank : isBlank c = false)
    (hword : isWordChar c = false) (hcall : c ∉ "STRING_TOKEN()".toList) : c ∉ w.back := by
  have hsign := w.behindSign.not_mem hblank
  have hgap := w.behindCall.not_mem hblank
  have htoken := w.token.not_mem hword
  simp only [back, List.mem_append, List.mem_cons, List.not_mem_nil, or_false, not_or]
  simp at hcall
  simp [hsign, hgap, htoken, hcall]

theorem semicolon_not_mem_text (w : PromptParts) : ';' ∉ w.text := by
  rw [text, List.mem_append, List.mem_cons, not_or, not_or]
  exact ⟨w.not_mem_front rfl (by decide), by decide, w.not_mem_back rfl rfl (by decide)⟩

theorem count_front (w : PromptParts) : w.front.count 'p' = 2 := by
  show List.count 'p' ("prompt".toList ++ w.behindName.text) = 2
  rw [List.count_append, List.count_eq_zero.mpr (w.behindName.not_mem rfl)]
  rfl

theorem getLast?_text (w : PromptParts) : w.text.getLast? = some ')' := by
  simp only [text, back, List.getLast?_append, List.getLast?_cons]
  rfl

/-- No prompt begins inside another one: it would have the same equals sign, so the name before that
would be in the name of the other. -/
theorem eq_nil_of_text_eq {w w' : PromptParts} {x v z y : Text} (hw : w.text = x ++ v)
    (hv : v ≠ []) (h : v ++ z = w'.text ++ y) : x = [] := by
  have hbracket : ')' ∈ v := by
    have hlast := w.getLast?_text
    rw [hw, List.getLast?_append_of_ne_nil _ hv] at hlast
    exact List.mem_of_getLast? hlast
  have hshort : ¬ v <+: w'.front := fun hfront =>
    w'.not_mem_front rfl (by decide) (hfront.subset hbracket)
  rw [text, List.append_assoc] at h
  rcases List.append_eq_append_iff.mp h with ⟨more, hmore, -⟩ | ⟨more, rfl, hmore⟩
  · exact absurd ⟨more, hmore.symm⟩ hshort
  cases more with
  | nil =>
    rw [List.append_nil] at hshort
    exact absurd (List.prefix_refl _) hshort
  | cons c more =>
    obtain ⟨rfl, -⟩ := List.cons.inj hmore
    rw [text, ← List.append_assoc] at hw
    obtain ⟨hfront, -, -⟩ := (List.append_cons_inj_of_notMem (w.not_mem_front rfl (by decide))
      (w.not_mem_back rfl rfl (by decide))).mp hw
    have hcount := w.count_front
    rw [hfront, List.count_append, w'.count_front] at hcount
    cases x with
    | nil => rfl
    | cons d x =>
      obtain rfl : 'p' = d := (List.cons.inj hfront).1
      rw [List.count_cons_self] at hcount
      omega

end PromptParts

/-- A prompt stands at a place of the source. -/
def PromptAt (source : Text) (i : Nat) (token : Text) : Prop :=
  ∃ (w : PromptParts) (rest : Text), source.drop i = w.text ++ rest ∧ w.token.text = token

theorem hitAt?_prompt_iff {s : Text} {i : Nat} {token : Text} :
    (∃ r, prompt.hitAt? .anywhere s i = some r ∧ r.note = token) ↔ PromptAt s i token := by
  constructor
  · rintro ⟨r, hhit, rfl⟩
    obtain ⟨-, hread, -⟩ := hitAt?_eq_some_iff.mp hhit
    obtain ⟨w, hs, hr⟩ := read_prompt_inv hread
    exact ⟨w, r.rest, hs, by rw [hr]⟩
  · rintro ⟨w, rest, hs, rfl⟩
    have hread := w.read_append rest
    rw [← hs] at hread
    exact ⟨_, hitAt?_eq_some_iff.mpr ⟨nofun, hread, nofun⟩, rfl⟩

theorem PromptAt.lt_length {s : Text} {i : Nat} {token : Text} (h : PromptAt s i token) :
    i < s.length := by
  obtain ⟨r, hr, -⟩ := hitAt?_prompt_iff.mpr h
  exact lt_length_of_hitAt? hr

theorem apart_prompt : prompt.Apart .anywhere := by
  apply apart_of_refused
  intro s r hr x v htaken hx hv _
  rw [Option.eq_none_iff_forall_ne_some]
  intro r' hr'
  obtain ⟨w, -, hr⟩ := read_prompt_inv hr
  obtain ⟨w', hs, -⟩ := read_prompt_inv hr'
  rw [hr] at htaken
  exact hx (PromptParts.eq_nil_of_text_eq htaken hv hs)

/-- A prompt that begins in a question stands in it. -/
theorem promptAt_iff_of_question {source : Text} {o : Occurrence Unit} (ho : o ∈ questions source)
    {i : Nat} (hle : o.start ≤ i) (hlt : i < o.stop) {token : Text} :
    PromptAt source i token ↔ PromptAt o.taken (i - o.start) token := by
  obtain ⟨z, hs, hend⟩ := exists_drop_eq ho hle hlt
  unfold PromptAt
  rw [hs]
  constructor
  · rintro ⟨w, rest, h, rfl⟩
    obtain ⟨more, -, hmore, -⟩ := append_inv_of_semicolon hend w.semicolon_not_mem_text h
    exact ⟨w, more, hmore, rfl⟩
  · rintro ⟨w, rest, h, rfl⟩
    exact ⟨w, rest ++ z, by rw [h, List.append_assoc], rfl⟩

end Form

namespace Reference

open Pattern Form

/-- The tokens of the references of a question are those of its prompts. -/
theorem tokens_ofQuestion (question : Text) (path : Path) :
    ListsInOrder (fun i token => PromptAt question i token ∧ token ∉ placeholders)
      ((ofQuestion question path).map token) := by
  have hmap : (ofQuestion question path).map token =
      (prompt.cut .anywhere question).notes.filter fun token => !meansNone token := by
    unfold ofQuestion
    rw [List.map_map]
    exact List.map_id _
  rw [hmap]
  refine ((apart_prompt.lists_notes question).filter _).congr fun i token => ?_
  rw [hitAt?_prompt_iff]
  simp [meansNone]

/-- The questions of a source are disjoint, and whatever opens with an end mark behind it is in one of
them. The references of the source are those of its questions, one behind the other, one for each prompt
that begins in a question and names a string. -/
theorem questions_by_places (source : Text) (path : Path) :
    ((questions source).Pairwise fun a b => a.stop ≤ b.start) ∧
      (∀ o ∈ questions source, QuestionAt source o.start o.stop ∧
        o.taken = (source.drop o.start).take (o.stop - o.start)) ∧
      (∀ i, OpensAt source i → ∃ o ∈ questions source, o.start ≤ i ∧ i < o.stop) ∧
      all source path = (questions source).flatMap (fun o => ofQuestion o.taken path) ∧
      ListsInOrder (fun i token => (∃ o ∈ questions source, o.start ≤ i ∧ i < o.stop) ∧
          PromptAt source i token ∧ token ∉ placeholders)
        ((all source path).map token) := by
  have hsweep := question.sweep_cut .lineStart source
  have hall : all source path = (questions source).flatMap (fun o => ofQuestion o.taken path) := by
    rw [all, Cutting.pieces_eq_map_occurrences, List.flatMap_map]
    rfl
  refine ⟨hsweep.apart, fun o ho => ?_, fun i hi => ?_, hall, ?_⟩
  · obtain ⟨rest, hhit⟩ := hsweep.reads o ho
    have hs := question.taken_append_rest (hitAt?_eq_some_iff.mp hhit).2.1
    refine ⟨questionAt_of_hitAt? hhit, ?_⟩
    rw [← hs, Occurrence.stop, Nat.add_sub_cancel_left, List.take_left]
  · obtain ⟨r, hr⟩ := exists_hitAt?_of_opensAt hi
    exact hsweep.covers i r (Nat.zero_le i) hr
  · rw [hall, List.map_flatMap]
    refine ListsInOrder.flatMap hsweep.apart fun o ho => ?_
    refine ((tokens_ofQuestion o.taken path).shift o.start).congr fun i token => ?_
    constructor
    · rintro ⟨hle, hat, htoken⟩
      have hlt : i < o.stop := by
        have := hat.lt_length
        unfold Occurrence.stop
        omega
      exact ⟨⟨hle, hlt⟩, (promptAt_iff_of_question ho hle hlt).mpr hat, htoken⟩
    · rintro ⟨⟨hle, hlt⟩, hat, htoken⟩
      exact ⟨hle, (promptAt_iff_of_question ho hle hlt).mp hat, htoken⟩

/-- A question that opens inside another one belongs to it, and its end mark ends both. -/
example : (all ("oneof varid = A.B,\n  prompt = STRING_TOKEN(STR_A),\n  numeric varid = C.D,\n" ++
    "    prompt = STRING_TOKEN(0),\n  endnumeric;\n  prompt = STRING_TOKEN(STR_B),\n" ++
    "endoneof;\n").toList ⟨"f.vfr".toList⟩).map token = ["STR_A".toList] := by
  decide +kernel

end Reference

end FirmwareIds
