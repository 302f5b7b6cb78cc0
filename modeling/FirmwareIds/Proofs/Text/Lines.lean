import FirmwareIds.Proofs.Text.Reading
import FirmwareIds.Text.White

/-!
# Lines of a text

A text spells lines: a line feed ends each of them, with a carriage return before it or without, and the
last line may go without an end (`Text.Spells`). Reading the text gives these lines back, but for a
carriage return at the end of a line itself, which is taken for a part of the line end
(`Spells.map_lines`). It is white, and what is white around a line is trimmed away
(`trim_append_trimmed`).
-/

namespace FirmwareIds

/-- No characters at all. -/
def AnyOf.empty (class_ : Char → Bool) : AnyOf class_ :=
  ⟨[], fun _ hc => absurd hc List.not_mem_nil⟩

theorem endsRun_nil (class_ : Char → Bool) : EndsRun class_ [] :=
  fun c hc => absurd hc (Option.not_mem_none c)

instance (class_ : Char → Bool) (s : Text) : Decidable (EndsRun class_ s) :=
  match s with
  | [] => isTrue (endsRun_nil class_)
  | c :: s => decidable_of_iff (class_ c = false) ⟨fun h => endsRun_cons h s, fun h => h c rfl⟩

namespace Text

/-! ## White space around a text -/

/-- No white space stands at either end. -/
structure IsTrimmed (s : Text) : Prop where
  front : EndsRun isWhite s
  back : EndsRun isWhite s.reverse

instance (s : Text) : Decidable s.IsTrimmed :=
  decidable_of_iff (EndsRun isWhite s ∧ EndsRun isWhite s.reverse)
    ⟨fun h => ⟨h.1, h.2⟩, fun h => ⟨h.front, h.back⟩⟩

theorem isTrimmed_nil : IsTrimmed [] := ⟨endsRun_nil isWhite, endsRun_nil isWhite⟩

/-- White space around a text is trimmed away, and nothing else is. -/
theorem trim_append_trimmed (before after : AnyOf isWhite) {s : Text} (h : s.IsTrimmed) :
    (before.text ++ s ++ after.text).trim = s := by
  have hafter : ∀ c ∈ after.text.reverse, isWhite c = true :=
    fun c hc => after.class_of_mem (List.mem_reverse.mp hc)
  have hleft : trimRight (s ++ after.text) = s := by
    unfold trimRight
    rw [List.reverse_append, dropWhile_append_of_endsRun hafter h.back, List.reverse_reverse]
  have hright : trimLeft (before.text ++ (s ++ after.text)) = s ++ after.text ∨ s = [] := by
    cases s with
    | nil => exact Or.inr rfl
    | cons c s =>
      exact Or.inl (dropWhile_append_of_endsRun before.property (endsRun_cons (h.front c rfl) _))
  unfold trim
  rw [List.append_assoc]
  rcases hright with hright | rfl
  · rw [hright, hleft]
  · -- where everything is white, all of it is before the text
    have hall : ∀ c ∈ before.text ++ after.text, isWhite c = true := by
      intro c hc
      exact (List.mem_append.mp hc).elim before.class_of_mem after.class_of_mem
    have hnil := dropWhile_append_of_endsRun hall (endsRun_nil isWhite)
    rw [List.append_nil] at hnil
    unfold trimLeft
    rw [List.nil_append, hnil]
    rfl

theorem IsTrimmed.trim_eq {s : Text} (h : s.IsTrimmed) : s.trim = s := by
  have hnone := trim_append_trimmed (.empty isWhite) (.empty isWhite) h
  rwa [show (AnyOf.empty isWhite).text = [] from rfl, List.nil_append, List.append_nil] at hnone

/-- The first character that is not white is the first that is left. -/
theorem trim_append_cons (before : AnyOf isWhite) {c : Char} (hc : isWhite c = false) (rest : Text) :
    (before.text ++ c :: rest).trim = c :: rest.trimRight := by
  have hleft : trimLeft (before.text ++ c :: rest) = c :: rest :=
    dropWhile_append_of_endsRun before.property (endsRun_cons hc rest)
  have hlast : [c].dropWhile isWhite = [c] := by
    rw [List.dropWhile_cons, hc]
    rfl
  unfold trim
  rw [hleft]
  unfold trimRight
  rw [List.reverse_cons, List.dropWhile_append, hlast]
  split
  · next hempty =>
    rw [List.isEmpty_iff.mp hempty]
    rfl
  · rw [List.reverse_append]
    rfl

/-- A text is what is left when it is trimmed, with white space around it. -/
theorem exists_append_trim (s : Text) : ∃ before after : AnyOf isWhite,
    s = before.text ++ s.trim ++ after.text ∧ s.trim.IsTrimmed := by
  have hwhite : ∀ t : Text, ∀ c ∈ t.takeWhile isWhite, isWhite c = true :=
    fun t => List.all_eq_true.mp List.all_takeWhile
  -- what is cut off behind is taken from the reverse
  have hright : s.trimLeft = s.trim ++ (s.trimLeft.reverse.takeWhile isWhite).reverse := by
    have hsplit := List.takeWhile_append_dropWhile (p := isWhite) (l := s.trimLeft.reverse)
    have hback := congrArg List.reverse hsplit
    rw [List.reverse_append, List.reverse_reverse] at hback
    exact hback.symm
  refine ⟨⟨_, hwhite s⟩, ⟨(s.trimLeft.reverse.takeWhile isWhite).reverse, ?_⟩, ?_, ?_, ?_⟩
  · intro c hc
    exact hwhite _ c (List.mem_reverse.mp hc)
  · show s = s.takeWhile isWhite ++ s.trim ++ _
    rw [List.append_assoc]
    show s = s.takeWhile isWhite ++ (s.trim ++ (s.trimLeft.reverse.takeWhile isWhite).reverse)
    rw [← hright]
    exact List.takeWhile_append_dropWhile.symm
  · intro c hc
    refine endsRun_dropWhile isWhite s c ?_
    show c ∈ s.trimLeft.head?
    rw [hright, List.head?_append, Option.mem_def.mp hc]
    rfl
  · unfold trim trimRight
    rw [List.reverse_reverse]
    exact endsRun_dropWhile isWhite _

/-! ## The lines that a text spells -/

/-- The text spells the lines. -/
inductive Spells : Text → List Text → Prop
  | nil : Spells [] []
  /-- The last line has no end. -/
  | unended {line : Text} (h : '\n' ∉ line) (hne : line ≠ []) : Spells line [line]
  | lineFeed {line s : Text} {lines : List Text} (h : '\n' ∉ line) (hrest : Spells s lines) :
    Spells (line ++ '\n' :: s) (line :: lines)
  | returnAndLineFeed {line s : Text} {lines : List Text} (h : '\n' ∉ line)
    (hrest : Spells s lines) : Spells (line ++ '\r' :: '\n' :: s) (line :: lines)

/-- Lines that hold no line feed are spelled by some text. -/
theorem spells_flatMap {lines : List Text} (h : ∀ line ∈ lines, '\n' ∉ line) :
    Spells (lines.flatMap (· ++ ['\r', '\n'])) lines := by
  induction lines with
  | nil => exact .nil
  | cons line lines ih =>
    rw [List.flatMap_cons, List.append_assoc]
    exact .returnAndLineFeed (h line (List.mem_cons_self ..))
      (ih fun line hline => h line (List.mem_cons_of_mem _ hline))

/-- A line as it is read: a carriage return at its end is taken for a part of the line end. -/
def readLine (line : Text) : Text := if line.getLast? = some '\r' then line.dropLast else line

theorem lines_go_cons {c : Char} (hc : c ≠ '\n') (acc : List Char) (s : Text) :
    lines.go acc (c :: s) = lines.go (c :: acc) s :=
  if_neg hc

theorem lines_go_newline (acc : List Char) (s : Text) :
    lines.go acc ('\n' :: s) = readLine acc.reverse :: s.lines := by
  unfold readLine
  rw [List.getLast?_reverse]
  unfold lines.go
  rw [if_pos rfl]
  split
  · rw [List.head?_cons, if_pos rfl, List.reverse_cons, List.dropLast_concat]
    rfl
  · next hreturn =>
    rw [if_neg]
    · rfl
    · intro hhead
      obtain ⟨rest, hrest⟩ := List.head?_eq_some_iff.mp hhead
      exact hreturn rest hrest

theorem lines_append {line : Text} (h : '\n' ∉ line) (s : Text) :
    lines (line ++ '\n' :: s) = readLine line :: s.lines := by
  have hgo : ∀ acc, lines.go acc (line ++ '\n' :: s) = readLine (acc.reverse ++ line) :: s.lines := by
    induction line with
    | nil =>
      intro acc
      rw [List.nil_append, List.append_nil, lines_go_newline]
    | cons c line ih =>
      intro acc
      have hc : c ≠ '\n' := fun e => h (e ▸ List.mem_cons_self ..)
      rw [List.cons_append, lines_go_cons hc, ih fun hm => h (List.mem_cons_of_mem _ hm),
        List.reverse_cons, List.append_assoc]
      rfl
  exact hgo []

theorem lines_of_not_mem {line : Text} (h : '\n' ∉ line) (hne : line ≠ []) : lines line = [line] := by
  have hgo : ∀ acc, acc.reverse ++ line ≠ [] → lines.go acc line = [acc.reverse ++ line] := by
    clear hne
    induction line with
    | nil =>
      intro acc hne
      rw [List.append_nil] at hne ⊢
      rw [lines.go, if_neg]
      intro hempty
      exact hne (by rw [List.isEmpty_iff.mp hempty]; rfl)
    | cons c line ih =>
      intro acc _
      have hc : c ≠ '\n' := fun e => h (e ▸ List.mem_cons_self ..)
      rw [lines_go_cons hc, ih (fun hm => h (List.mem_cons_of_mem _ hm)) _ (by simp),
        List.reverse_cons, List.append_assoc]
      rfl
  exact hgo [] hne

/-- The lines that a text spells are the lines that are read, for whatever is made of a line that does
not ask for a carriage return at its end. -/
theorem Spells.map_lines {α : Type} {f : Text → α} (hf : ∀ line, f (readLine line) = f line)
    {s : Text} {lines : List Text} (h : s.Spells lines) : s.lines.map f = lines.map f := by
  induction h with
  | nil => rfl
  | unended h hne => rw [lines_of_not_mem h hne]
  | lineFeed h _ ih => rw [lines_append h, List.map_cons, List.map_cons, ih, hf]
  | @returnAndLineFeed line s lines h _ ih =>
    have hreturn : '\n' ∉ line ++ ['\r'] := by simpa using h
    have hread : readLine (line ++ ['\r']) = line := by
      unfold readLine
      rw [List.getLast?_concat, if_pos rfl, List.dropLast_concat]
    have happend : line ++ '\r' :: '\n' :: s = (line ++ ['\r']) ++ '\n' :: s := by
      rw [List.append_assoc]
      rfl
    rw [happend, lines_append hreturn, List.map_cons, List.map_cons, ih, hread]

end Text

end FirmwareIds
