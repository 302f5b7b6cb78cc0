import FirmwareIds.Form.Reference
import FirmwareIds.Proofs.Resource.Definitions
import FirmwareIds.Proofs.Text.Inert

/-!
# What a form source refers to

The token of a reference can be the identifier of a definition (`isIdentifier_of_mem_all`). And a form
source refers to the same strings when definitions are put behind it, as they are if it is the list
of codes as well (`all_foldl_append`). A definition line holds no end mark: a semicolon can only be in
its lead, and the quotation mark before that is too near. So it ends no question that is open before
it, and begins none.
-/

namespace FirmwareIds

namespace Form

open Pattern

/-! ## End marks -/

/-- The end marks with their semicolons. -/
def endMarks : List Text := ["endoneof;".toList, "endnumeric;".toList, "endcheckbox;".toList,
  "endorderedlist;".toList]

theorem read_endMark_iff {s : Text} {r : Reading Unit} :
    endMark.read s = some r ↔ ∃ w ∈ endMarks, s = w ++ r.rest ∧ r = ⟨(), w, r.rest⟩ := by
  constructor
  · intro h
    obtain ⟨r₁, u, h₁, h₂, hr⟩ := read_bind_inv h
    obtain ⟨q, hq, hread⟩ := read_oneOf_inv h₁
    obtain ⟨hrest, hsemicolon⟩ := read_word_inv h₂
    obtain ⟨note, taken, rest⟩ := r
    have hform : ∃ w, q = word w ∧ w ++ [';'] ∈ endMarks := by
      simp only [List.mem_cons, List.not_mem_nil, or_false] at hq
      rcases hq with rfl | rfl | rfl | rfl <;> exact ⟨_, rfl, by decide⟩
    obtain ⟨w, rfl, hw⟩ := hform
    obtain ⟨hs, hr₁⟩ := read_word_inv hread
    cases hsemicolon
    refine ⟨w ++ [';'], hw, ?_, ?_⟩
    · rw [hs, hrest, List.append_assoc]
    · rw [show taken = _ from hr, hr₁]
  · obtain ⟨note, taken, rest⟩ := r
    rintro ⟨w, hw, rfl, hr⟩
    cases hr
    simp only [endMarks, List.mem_cons, List.not_mem_nil, or_false] at hw
    rcases hw with rfl | rfl | rfl | rfl <;> rfl

theorem read_endMark_append {w : Text} (hw : w ∈ endMarks) (z : Text) :
    endMark.read (w ++ z) = some ⟨(), w, z⟩ :=
  read_endMark_iff.mpr ⟨w, hw, rfl, rfl⟩

/-- A text that holds no end mark, and cannot complete one, is not taken notice of. -/
theorem inert_endMark {z : Text} (hhead : ∀ c ∈ z.head?, c = '#' ∨ c = '\r')
    (hmarks : ∀ w ∈ endMarks, ¬ w <:+: z) : Inert endMark z := by
  refine ⟨fun s => ?_, fun u hu => Option.eq_none_iff_forall_ne_some.mpr fun r h => ?_⟩
  · cases hs : endMark.read s with
    | some r =>
      obtain ⟨w, hw, hsw, hr⟩ := read_endMark_iff.mp hs
      refine read_endMark_iff.mpr ⟨w, hw, ?_, ?_⟩
      · rw [hsw, List.append_assoc]
      · rw [hr]
    | none =>
      refine Option.eq_none_iff_forall_ne_some.mpr fun r h => ?_
      obtain ⟨w, hw, hsw, -⟩ := read_endMark_iff.mp h
      rcases List.append_eq_append_iff.mp hsw with ⟨more, hmore, hz⟩ | ⟨more, hmore, -⟩
      · -- the mark would begin before `z` and end in it
        cases more with
        | nil =>
          rw [List.append_nil] at hmore
          have hread := read_endMark_append hw []
          rw [List.append_nil, hmore, hs] at hread
          cases hread
        | cons c more =>
          have hc : c ∈ w := hmore ▸ List.mem_append_right _ (List.mem_cons_self ..)
          have hforeign : ∀ w ∈ endMarks, '#' ∉ w ∧ '\r' ∉ w := by decide
          rcases hhead c (by rw [hz]; rfl) with rfl | rfl
          · exact (hforeign w hw).1 hc
          · exact (hforeign w hw).2 hc
      · have hread := read_endMark_append hw more
        rw [← hmore, hs] at hread
        cases hread
  · obtain ⟨w, hw, hsw, -⟩ := read_endMark_iff.mp h
    exact hmarks w hw (List.IsInfix.trans ⟨[], r.rest, by rw [hsw]; rfl⟩ hu.isInfix)

/-! ## Questions -/

/-- The words that open a question. -/
def keywords : List Text := ["oneof".toList, "numeric".toList, "checkbox".toList,
  "orderedlist".toList]

theorem read_keyword_iff {s : Text} {r : Reading Unit} :
    keyword.read s = some r ↔ ∃ w ∈ keywords, s = w ++ r.rest ∧ r = ⟨(), w, r.rest⟩ := by
  constructor
  · intro h
    obtain ⟨q, hq, hread⟩ := read_oneOf_inv h
    have hform : ∃ w, q = word w ∧ w ∈ keywords := by
      simp only [List.mem_cons, List.not_mem_nil, or_false] at hq
      rcases hq with rfl | rfl | rfl | rfl <;> exact ⟨_, rfl, by decide⟩
    obtain ⟨w, rfl, hw⟩ := hform
    exact ⟨w, hw, read_word_inv hread⟩
  · obtain ⟨note, taken, rest⟩ := r
    rintro ⟨w, hw, rfl, hr⟩
    cases hr
    simp only [keywords, List.mem_cons, List.not_mem_nil, or_false] at hw
    rcases hw with rfl | rfl | rfl | rfl <;> rfl

theorem read_keyword_append {w : Text} (hw : w ∈ keywords) (z : Text) :
    keyword.read (w ++ z) = some ⟨(), w, z⟩ :=
  read_keyword_iff.mpr ⟨w, hw, rfl, rfl⟩

/-- The front of a question in its parts. -/
structure QuestionHead where
  /-- The blanks at the start of the line. -/
  before : AnyOf isBlank
  keyword : Text
  /-- The blanks before `varid`. -/
  gap : RunOf isBlank
  known : keyword ∈ keywords

/-- The front of a question. -/
def QuestionHead.text (w : QuestionHead) : Text :=
  w.before.text ++ (w.keyword ++ (w.gap.text ++ "varid".toList))

theorem QuestionHead.read_append (w : QuestionHead) (z : Text) :
    questionHead.read (w.text ++ z) = some ⟨(), w.text, z⟩ := by
  obtain ⟨before, keyword, gap, hw⟩ := w
  have hkeyword : ∀ y, EndsRun isBlank (keyword ++ y) := by
    simp only [keywords, List.mem_cons, List.not_mem_nil, or_false] at hw
    rcases hw with rfl | rfl | rfl | rfl <;> exact fun y => endsRun_cons rfl _
  have hvarid : EndsRun isBlank ("varid".toList ++ z) := endsRun_cons rfl _
  simp only [text, List.append_assoc]
  refine read_bind_of (read_many_append (fun _ => before.class_of_mem) (hkeyword _)) ?_
  refine read_bind_of (read_keyword_append hw _) ?_
  exact read_bind_of (read_many1_append gap hvarid) (read_word_append _ z)

theorem read_questionHead_inv {s : Text} {r : Reading Unit} (h : questionHead.read s = some r) :
    ∃ w : QuestionHead, s = w.text ++ r.rest ∧ r = ⟨(), w.text, r.rest⟩ := by
  have hs := questionHead.taken_append_rest h
  obtain ⟨before, _, _, -, -, h, htaken⟩ := read_many_bind_inv h
  obtain ⟨r₂, _, h₂, h, rfl⟩ := read_bind_inv h
  obtain ⟨keyword, hkeyword, -, hr₂⟩ := read_keyword_iff.mp h₂
  obtain ⟨gap, _, _, -, -, h, rfl⟩ := read_many1_bind_inv h
  obtain ⟨-, hr⟩ := read_word_inv h
  cases hr
  obtain ⟨note, taken, rest⟩ := r
  obtain rfl : taken = before.text ++ (keyword ++ (gap.text ++ "varid".toList)) := by
    rw [show taken = _ from htaken, hr₂]
  exact ⟨⟨before, keyword, gap, hkeyword⟩, hs.symm, rfl⟩

/-- A word follows the blanks, and another the next ones, so a head ends by itself. -/
theorem closed_questionHead : questionHead.Closed := by
  intro s r h z
  obtain ⟨w, -, hr⟩ := read_questionHead_inv h
  rw [hr]
  exact w.read_append z

theorem closed_exactly (n : Nat) (class_ : Char → Bool) : (exactly n class_).Closed := by
  intro s r h z
  obtain ⟨-, hall, hleast, hmost, hr⟩ := read_between_inv h
  rw [show r = _ from hr]
  exact read_exactly_append hall (Nat.le_antisymm hmost hleast) z

/-- What ends no question and begins none is not taken notice of. -/
theorem inert_question {z : Text} (h : Inert endMark z) : Inert question z :=
  Inert.bind closed_questionHead fun _ => Inert.bind (closed_exactly 1 _) fun _ => h.through

/-! ## Prompts -/

/-- A prompt in its parts. -/
structure PromptParts where
  /-- The blanks before the equals sign. -/
  behindName : AnyOf isBlank
  /-- The blanks behind the equals sign. -/
  behindSign : AnyOf isBlank
  /-- The blanks before the bracket. -/
  behindCall : AnyOf isBlank
  token : RunOf isWordChar

namespace PromptParts

/-- What stands before the equals sign. -/
def front (w : PromptParts) : Text := "prompt".toList ++ w.behindName.text

/-- What stands behind the equals sign. -/
def back (w : PromptParts) : Text :=
  w.behindSign.text ++ ("STRING_TOKEN".toList ++ (w.behindCall.text ++ ('(' :: (w.token.text ++ [')']))))

/-- The prompt. -/
def text (w : PromptParts) : Text := w.front ++ '=' :: w.back

theorem text_append (w : PromptParts) (z : Text) :
    w.text ++ z = "prompt".toList ++ (w.behindName.text ++ (['='] ++ (w.behindSign.text ++
      ("STRING_TOKEN".toList ++ (w.behindCall.text ++ (['('] ++ (w.token.text ++ ([')'] ++ z)))))))) := by
  show "prompt".toList ++ w.behindName.text ++ '=' :: w.back ++ z = _
  simp only [back, List.append_assoc, List.cons_append, List.nil_append]

theorem read_append (w : PromptParts) (z : Text) :
    prompt.read (w.text ++ z) = some ⟨w.token.text, w.text, z⟩ := by
  have hword : ∀ y, EndsRun isBlank ("STRING_TOKEN".toList ++ y) := fun _ => endsRun_cons rfl _
  rw [text_append, ← List.append_nil w.text, text_append]
  refine read_bind_of (read_word_append _ _) ?_
  refine read_bind_of (read_many_append (fun _ => w.behindName.class_of_mem) (endsRun_cons rfl _)) ?_
  refine read_bind_of (read_word_append ['='] _) ?_
  refine read_bind_of (read_many_append (fun _ => w.behindSign.class_of_mem) (hword _)) ?_
  refine read_bind_of (read_word_append _ _) ?_
  refine read_bind_of (read_many_append (fun _ => w.behindCall.class_of_mem) (endsRun_cons rfl _)) ?_
  refine read_bind_of (read_word_append ['('] _) ?_
  refine read_bind_of (read_many1_append w.token (endsRun_cons rfl _)) ?_
  exact read_bind_of (read_word_append [')'] _) (read_pure _ _)

end PromptParts

theorem read_prompt_inv {s : Text} {r : Reading Text} (h : prompt.read s = some r) :
    ∃ w : PromptParts, s = w.text ++ r.rest ∧ r = ⟨w.token.text, w.text, r.rest⟩ := by
  have hs := prompt.taken_append_rest h
  obtain ⟨_, _, -, h, htaken⟩ := read_word_bind_inv h
  obtain ⟨behindName, _, _, -, -, h, rfl⟩ := read_many_bind_inv h
  obtain ⟨_, _, -, h, rfl⟩ := read_word_bind_inv h
  obtain ⟨behindSign, _, _, -, -, h, rfl⟩ := read_many_bind_inv h
  obtain ⟨_, _, -, h, rfl⟩ := read_word_bind_inv h
  obtain ⟨behindCall, _, _, -, -, h, rfl⟩ := read_many_bind_inv h
  obtain ⟨_, _, -, h, rfl⟩ := read_word_bind_inv h
  obtain ⟨token, _, _, -, -, h, rfl⟩ := read_many1_bind_inv h
  obtain ⟨_, _, -, h, rfl⟩ := read_word_bind_inv h
  obtain ⟨note, taken, rest⟩ := r
  cases h
  obtain rfl : taken = PromptParts.text ⟨behindName, behindSign, behindCall, token⟩ := by
    rw [show taken = _ from htaken, ← List.append_nil (PromptParts.text _), PromptParts.text_append]
  exact ⟨_, hs.symm, rfl⟩

/-! ## Definition lines -/

/-- Before each semicolon, a quotation mark is among the two characters next to it. -/
def Guarded (z : Text) : Prop := ∀ a b, z = a ++ ';' :: b → '"' ∈ a.reverse.take 2

theorem guarded_of_not_mem {z : Text} (h : ';' ∉ z) : Guarded z := by
  rintro a b rfl
  exact absurd (List.mem_append_right a (List.mem_cons_self ..)) h

theorem Guarded.append {y z : Text} (hy : Guarded y) (hz : Guarded z) : Guarded (y ++ z) := by
  intro a b h
  rcases List.append_eq_append_iff.mp h with ⟨more, rfl, hmore⟩ | ⟨more, rfl, hmore⟩
  · rw [List.reverse_append, List.take_append]
    exact List.mem_append_left _ (hz more b hmore)
  · cases more with
    | nil => cases hz [] b hmore.symm
    | cons c more =>
      obtain ⟨rfl, -⟩ := List.cons.inj hmore
      exact hy a more rfl

/-- An end mark is a word before its semicolon. -/
theorem Guarded.no_endMark {z : Text} (h : Guarded z) : ∀ w ∈ endMarks, ¬ w <:+: z := by
  rintro w hw ⟨a, b, rfl⟩
  have hword : ∀ w ∈ endMarks, w = w.dropLast ++ [';'] ∧ 2 ≤ w.dropLast.length ∧
      '"' ∉ w.dropLast := by decide
  obtain ⟨hw, hlength, hquote⟩ := hword w hw
  have hmem := h (a ++ w.dropLast) b (by rw [hw]; simp)
  rw [List.reverse_append, List.take_append_of_le_length (by rwa [List.length_reverse])] at hmem
  exact hquote (List.mem_reverse.mp (List.mem_of_mem_take hmem))

open Definition

/-- A lead that can be told from the code is too short to let a semicolon be far from the quotation
mark before it. -/
theorem guarded_line {d : Definition} (hidentifier : IsIdentifier d.identifier)
    (hlead : IsLead d.lead) : Guarded d.line := by
  have hfront : ';' ∉ "#string ".toList ++ d.identifier ++
      List.replicate (languageColumn - d.identifier.byteLength) ' ' ++ " #language uqi ".toList := by
    simp only [List.mem_append, not_or]
    refine ⟨⟨⟨by decide, fun h => ?_⟩, fun h => ?_⟩, by decide⟩
    · exact absurd (hidentifier.2 _ h) (by decide)
    · exact absurd (List.eq_of_mem_replicate h) (by decide)
  have hback : ';' ∉ Text.hex4 d.code ++ "\"\r\n".toList := by
    rw [List.mem_append, not_or]
    exact ⟨fun h => absurd (isHexDigit_of_mem_hex4 d.code _ h) (by decide), by decide⟩
  have hmiddle : Guarded ('"' :: d.lead ++ (Text.hex4 d.code ++ "\"\r\n".toList)) := by
    intro a b h
    have hlength : d.lead.length ≤ 2 := by
      rcases hlead.2 with h | ⟨h, -⟩ <;> omega
    rcases List.append_eq_append_iff.mp h with ⟨more, -, hmore⟩ | ⟨more, hmore, hb⟩
    · exact absurd (hmore ▸ List.mem_append_right more (List.mem_cons_self ..)) hback
    cases more with
    | nil => exact absurd (hb ▸ List.mem_cons_self ..) hback
    | cons c more =>
      -- the semicolon is in the lead
      obtain rfl := (List.cons.inj hb).1
      cases a with
      | nil => cases (List.cons.inj hmore).1
      | cons q a =>
        obtain ⟨rfl, hlead⟩ := List.cons.inj hmore
        have ha : (a.reverse ++ ['"']).length ≤ 2 := by
          have := congrArg List.length hlead
          simp at this ⊢
          omega
        rw [List.reverse_cons, List.take_of_length_le ha]
        exact List.mem_append_right _ (List.mem_singleton_self _)
  have hline : d.line = ("#string ".toList ++ d.identifier ++
      List.replicate (languageColumn - d.identifier.byteLength) ' ' ++ " #language uqi ".toList) ++
      ('"' :: d.lead ++ (Text.hex4 d.code ++ "\"\r\n".toList)) := by
    unfold line
    simp
  rw [hline]
  exact (guarded_of_not_mem hfront).append hmiddle

/-- What definition lines add to a text. -/
theorem foldl_append_lines {definitions : List Definition}
    (h : ∀ d ∈ definitions, IsIdentifier d.identifier ∧ IsLead d.lead) (text : Text) :
    ∃ z, (definitions.map line).foldl append text = text ++ z ∧
      (∀ c ∈ z.head?, c = '#' ∨ c = '\r') ∧ Guarded z := by
  induction definitions generalizing text with
  | nil => exact ⟨[], (List.append_nil text).symm, nofun, guarded_of_not_mem List.not_mem_nil⟩
  | cons d definitions ih =>
    obtain ⟨hidentifier, hlead⟩ := h d (List.mem_cons_self ..)
    obtain ⟨z, hz, hline, c, x, hhead, hc⟩ := append_declared d.prefix_line text
    have hguarded : Guarded z := by
      have hd := guarded_line hidentifier hlead
      rcases hline with rfl | rfl
      · exact hd
      · exact (guarded_of_not_mem (by decide)).append hd
    obtain ⟨y, hy, -, hguarded'⟩ := ih (fun d hd => h d (List.mem_cons_of_mem _ hd)) (text ++ z)
    refine ⟨z ++ y, ?_, fun c' hc' => ?_, hguarded.append hguarded'⟩
    · rw [List.map_cons, List.foldl_cons, hz, hy, List.append_assoc]
    · rw [hhead] at hc'
      cases hc'
      exact hc

end Form

namespace Reference

open Pattern Definition Form

/-- An empty source refers to nothing. -/
theorem all_nil (path : Path) : all [] path = [] := by
  unfold all cut
  rw [cutFrom_nil]
  rfl

/-- Definition lines refer to no string, and change no reference before them. -/
theorem all_foldl_append {definitions : List Definition}
    (h : ∀ d ∈ definitions, IsIdentifier d.identifier ∧ IsLead d.lead) (source : Text)
    (path : Path) :
    all ((definitions.map line).foldl append source) path = all source path := by
  obtain ⟨z, hz, hhead, hguarded⟩ := foldl_append_lines h source
  have hinert := inert_question (inert_endMark hhead hguarded.no_endMark)
  rw [hz]
  unfold all Cutting.pieces
  rw [hinert.hits_cut]

/-- A prompt is read with a token of word characters. -/
theorem isIdentifier_of_read_prompt {s : Text} {r : Reading Text}
    (h : prompt.read s = some r) : IsIdentifier r.note := by
  obtain ⟨w, -, hr⟩ := read_prompt_inv h
  rw [hr]
  exact ⟨w.token.text_ne_nil, fun c => w.token.class_of_mem⟩

/-- The strings that a form source refers to can be defined. -/
theorem isIdentifier_of_mem_all {source : Text} {path : Path} {r : Reference}
    (h : r ∈ all source path) : IsIdentifier r.token := by
  obtain ⟨question, -, hr⟩ := List.mem_flatMap.mp h
  obtain ⟨token, htoken, rfl⟩ := List.mem_map.mp hr
  obtain ⟨htoken, -⟩ := List.mem_filter.mp htoken
  obtain ⟨u, reading, hread, rfl⟩ := exists_read_of_mem_notes htoken
  exact isIdentifier_of_read_prompt hread

end Reference

end FirmwareIds
