import FirmwareIds.Text.Pattern

/-!
# What patterns read

One statement for each way to build a pattern: which texts it reads, and how it divides them. The
longest run of a class is described by its neighbour: it is a run, and what follows does not begin
with a character of the class. So a text that is put together from the right pieces is read piece
by piece, and a text that is read was put together that way.

A pattern is closed if what it took decides that it took it, whatever comes behind. A closed
pattern reads the same at the front of a longer text, and no more.
-/

namespace FirmwareIds

/-- A run of characters of one class. -/
def RunOf (class_ : Char → Bool) : Type := { t : Text // t ≠ [] ∧ ∀ c ∈ t, class_ c = true }

namespace RunOf

variable {class_ : Char → Bool}

/-- The characters of the run. -/
def text (t : RunOf class_) : Text := t.val

theorem text_ne_nil (t : RunOf class_) : t.text ≠ [] := t.property.1

theorem class_of_mem (t : RunOf class_) {c : Char} (h : c ∈ t.text) : class_ c = true :=
  t.property.2 c h

/-- A character outside the class is not in the run. -/
theorem not_mem (t : RunOf class_) {c : Char} (h : class_ c = false) : c ∉ t.text := by
  intro hm
  rw [t.class_of_mem hm] at h
  cases h

end RunOf

/-- Characters of one class, perhaps none. -/
def AnyOf (class_ : Char → Bool) : Type := { t : Text // ∀ c ∈ t, class_ c = true }

namespace AnyOf

variable {class_ : Char → Bool}

/-- The characters. -/
def text (t : AnyOf class_) : Text := t.val

theorem class_of_mem (t : AnyOf class_) {c : Char} (h : c ∈ t.text) : class_ c = true :=
  t.property c h

/-- A character outside the class is not among them. -/
theorem not_mem (t : AnyOf class_) {c : Char} (h : class_ c = false) : c ∉ t.text := by
  intro hm
  rw [t.class_of_mem hm] at h
  cases h

end AnyOf

/-- What follows a run: the end of the text, or a character outside the class. -/
def EndsRun (class_ : Char → Bool) (z : Text) : Prop := ∀ c ∈ z.head?, class_ c = false

theorem endsRun_cons {class_ : Char → Bool} {c : Char} (h : class_ c = false) (z : Text) :
    EndsRun class_ (c :: z) := by
  intro d hd
  cases hd
  exact h

theorem endsRun_of_run {class_ other : Char → Bool} (t : RunOf other)
    (h : ∀ c, other c = true → class_ c = false) (z : Text) : EndsRun class_ (t.text ++ z) := by
  obtain ⟨_ | ⟨c, t⟩, hne, hall⟩ := t
  · exact absurd rfl hne
  · exact endsRun_cons (h c (hall c (List.mem_cons_self ..))) _

theorem takeWhile_append_of_endsRun {class_ : Char → Bool} {t z : Text}
    (ht : ∀ c ∈ t, class_ c = true) (hz : EndsRun class_ z) : (t ++ z).takeWhile class_ = t := by
  rw [List.takeWhile_append_of_pos ht]
  cases z with
  | nil => rw [List.takeWhile_nil, List.append_nil]
  | cons c z =>
    rw [List.takeWhile_cons, hz c rfl]
    exact List.append_nil t

theorem dropWhile_append_of_endsRun {class_ : Char → Bool} {t z : Text}
    (ht : ∀ c ∈ t, class_ c = true) (hz : EndsRun class_ z) : (t ++ z).dropWhile class_ = z := by
  have h := List.takeWhile_append_dropWhile (p := class_) (l := t ++ z)
  rw [takeWhile_append_of_endsRun ht hz] at h
  exact List.append_cancel_left h

theorem endsRun_dropWhile (class_ : Char → Bool) (s : Text) :
    EndsRun class_ (s.dropWhile class_) := by
  intro c hc
  have := List.head?_dropWhile_not class_ s
  rw [hc] at this
  simpa using this

namespace Pattern

variable {α β : Type}

/-! ## The pieces -/

theorem read_bind_of {p : Pattern α} {f : α → Pattern β} {s z y t u : Text} {a : α} {b : β}
    (hp : p.read s = some ⟨a, t, z⟩) (hf : (f a).read z = some ⟨b, u, y⟩) :
    (p >>= f).read s = some ⟨b, t ++ u, y⟩ := by
  rw [read_bind, hp]
  show ((f a).read z).map _ = _
  rw [hf]
  rfl

theorem read_bind_inv {p : Pattern α} {f : α → Pattern β} {s : Text} {r : Reading β}
    (h : (p >>= f).read s = some r) :
    ∃ r₁ u, p.read s = some r₁ ∧ (f r₁.note).read r₁.rest = some ⟨r.note, u, r.rest⟩ ∧
      r.taken = r₁.taken ++ u := by
  obtain ⟨r₁, hp, hf⟩ := Option.bind_eq_some_iff.mp h
  obtain ⟨r₂, hread, rfl⟩ := Option.map_eq_some_iff.mp hf
  exact ⟨r₁, r₂.taken, hp, hread, rfl⟩

@[simp] theorem read_word_append (w z : Text) : (word w).read (w ++ z) = some ⟨(), w, z⟩ := by
  show (Text.after? w (w ++ z)).map _ = _
  rw [Text.after?_eq_some_iff.mpr rfl]
  rfl

theorem read_word_inv {w s : Text} {r : Reading Unit} (h : (word w).read s = some r) :
    s = w ++ r.rest ∧ r = ⟨(), w, r.rest⟩ := by
  obtain ⟨z, hz, rfl⟩ := Option.map_eq_some_iff.mp h
  exact ⟨Text.after?_eq_some_iff.mp hz, rfl⟩

theorem read_word_bind_inv {w s : Text} {f : Unit → Pattern β} {r : Reading β}
    (h : (word w >>= f).read s = some r) :
    ∃ z u, s = w ++ z ∧ (f ()).read z = some ⟨r.note, u, r.rest⟩ ∧ r.taken = w ++ u := by
  obtain ⟨r₁, u, h₁, h₂, hr⟩ := read_bind_inv h
  obtain ⟨hs, e⟩ := read_word_inv h₁
  rw [e] at h₂ hr
  exact ⟨r₁.rest, u, hs, h₂, hr⟩

theorem read_many_append {class_ : Char → Bool} {t z : Text} (ht : ∀ c ∈ t, class_ c = true)
    (hz : EndsRun class_ z) : (many class_).read (t ++ z) = some ⟨t, t, z⟩ := by
  show some (Reading.mk _ _ _) = _
  rw [takeWhile_append_of_endsRun ht hz, dropWhile_append_of_endsRun ht hz]

theorem read_many_inv {class_ : Char → Bool} {s : Text} {r : Reading Text}
    (h : (many class_).read s = some r) :
    s = r.taken ++ r.rest ∧ (∀ c ∈ r.taken, class_ c = true) ∧ EndsRun class_ r.rest ∧
      r = ⟨r.taken, r.taken, r.rest⟩ := by
  cases h
  exact ⟨List.takeWhile_append_dropWhile.symm, fun c hc => List.all_eq_true.mp List.all_takeWhile c hc,
    endsRun_dropWhile class_ s, rfl⟩

theorem read_many_bind_inv {class_ : Char → Bool} {s : Text} {f : Text → Pattern β}
    {r : Reading β} (h : (many class_ >>= f).read s = some r) :
    ∃ (t : AnyOf class_) (z u : Text), s = t.text ++ z ∧ EndsRun class_ z ∧
      (f t.text).read z = some ⟨r.note, u, r.rest⟩ ∧ r.taken = t.text ++ u := by
  obtain ⟨r₁, u, h₁, h₂, hr⟩ := read_bind_inv h
  obtain ⟨hs, hall, hend, e⟩ := read_many_inv h₁
  rw [e] at h₂
  exact ⟨⟨r₁.taken, hall⟩, r₁.rest, u, hs, hend, h₂, hr⟩

theorem read_many1_append {class_ : Char → Bool} (t : RunOf class_) {z : Text}
    (hz : EndsRun class_ z) : (many1 class_).read (t.text ++ z) = some ⟨t.text, t.text, z⟩ := by
  have hne : t.text.isEmpty = false := by simpa using t.text_ne_nil
  show (if _ then none else some (Reading.mk _ _ _)) = _
  rw [takeWhile_append_of_endsRun (fun c => t.class_of_mem) hz,
    dropWhile_append_of_endsRun (fun c => t.class_of_mem) hz, hne]
  rfl

theorem read_many1_inv {class_ : Char → Bool} {s : Text} {r : Reading Text}
    (h : (many1 class_).read s = some r) :
    ∃ t : RunOf class_, s = t.text ++ r.rest ∧ EndsRun class_ r.rest ∧
      r = ⟨t.text, t.text, r.rest⟩ := by
  change (if (s.takeWhile class_).isEmpty then none else some _) = _ at h
  split at h
  · cases h
  · next hne =>
    cases h
    refine ⟨⟨s.takeWhile class_, by simpa using hne, fun c hc => List.all_eq_true.mp List.all_takeWhile c hc⟩, ?_⟩
    exact ⟨List.takeWhile_append_dropWhile.symm, endsRun_dropWhile class_ s, rfl⟩

theorem read_many1_bind_inv {class_ : Char → Bool} {s : Text} {f : Text → Pattern β}
    {r : Reading β} (h : (many1 class_ >>= f).read s = some r) :
    ∃ (t : RunOf class_) (z u : Text), s = t.text ++ z ∧ EndsRun class_ z ∧
      (f t.text).read z = some ⟨r.note, u, r.rest⟩ ∧ r.taken = t.text ++ u := by
  obtain ⟨r₁, u, h₁, h₂, hr⟩ := read_bind_inv h
  obtain ⟨t, hs, hend, e⟩ := read_many1_inv h₁
  rw [e] at h₂ hr
  exact ⟨t, r₁.rest, u, hs, hend, h₂, hr⟩

/-- A run within the bounds is read as a whole if it is as long as it may be or ends there. -/
theorem read_between_append {least most : Nat} {class_ : Char → Bool} {t z : Text}
    (ht : ∀ c ∈ t, class_ c = true) (hleast : least ≤ t.length) (hmost : t.length ≤ most)
    (hz : t.length = most ∨ EndsRun class_ z) :
    (between least most class_).read (t ++ z) = some ⟨t, t, z⟩ := by
  have hrun : ((t ++ z).take most).takeWhile class_ = t := by
    rw [List.take_append, List.take_of_length_le hmost]
    refine takeWhile_append_of_endsRun ht fun c hc => ?_
    rcases hz with hz | hz
    · rw [hz, Nat.sub_self] at hc
      cases hc
    · cases z with
      | nil => rw [List.take_nil] at hc; cases hc
      | cons d z =>
        cases hn : most - t.length with
        | zero => rw [hn] at hc; cases hc
        | succ n => rw [hn] at hc; exact hz c hc
  show (if (((t ++ z).take most).takeWhile class_).length < least then none
    else some (Reading.mk _ _ _)) = _
  rw [hrun, if_neg (by omega), List.drop_left]

theorem read_between_inv {least most : Nat} {class_ : Char → Bool} {s : Text} {r : Reading Text}
    (h : (between least most class_).read s = some r) :
    s = r.taken ++ r.rest ∧ (∀ c ∈ r.taken, class_ c = true) ∧ least ≤ r.taken.length ∧
      r.taken.length ≤ most ∧ r = ⟨r.taken, r.taken, r.rest⟩ := by
  have hs := (between least most class_).taken_append_rest h
  change (if (((s.take most).takeWhile class_).length < least) then none else some _) = _ at h
  split at h
  · cases h
  · next hlen =>
    cases h
    refine ⟨hs.symm, fun c hc => List.all_eq_true.mp List.all_takeWhile c hc,
      Nat.le_of_not_lt hlen, ?_, rfl⟩
    have h₁ := (List.takeWhile_prefix (l := s.take most) class_).length_le
    rw [List.length_take] at h₁
    exact Nat.le_trans h₁ (Nat.min_le_left ..)

theorem read_between_bind_inv {least most : Nat} {class_ : Char → Bool} {s : Text}
    {f : Text → Pattern β} {r : Reading β} (h : (between least most class_ >>= f).read s = some r) :
    ∃ t z u, s = t ++ z ∧ (∀ c ∈ t, class_ c = true) ∧ least ≤ t.length ∧ t.length ≤ most ∧
      (f t).read z = some ⟨r.note, u, r.rest⟩ ∧ r.taken = t ++ u := by
  obtain ⟨r₁, u, h₁, h₂, hr⟩ := read_bind_inv h
  obtain ⟨hs, hall, hleast, hmost, e⟩ := read_between_inv h₁
  rw [e] at h₂
  exact ⟨r₁.taken, r₁.rest, u, hs, hall, hleast, hmost, h₂, hr⟩

/-- One character or none is always read. -/
theorem read_optional (class_ : Char → Bool) (s : Text) :
    ∃ r, (optional class_).read s = some r := by
  unfold optional between
  simp only [Nat.not_lt_zero, if_false]
  exact ⟨_, rfl⟩

theorem read_optional_bind_inv {class_ : Char → Bool} {s : Text} {f : Text → Pattern β}
    {r : Reading β} (h : (optional class_ >>= f).read s = some r) :
    ∃ t z u, s = t ++ z ∧ (∀ c ∈ t, class_ c = true) ∧ t.length ≤ 1 ∧
      (t.length = 1 ∨ EndsRun class_ z) ∧ (f t).read z = some ⟨r.note, u, r.rest⟩ ∧
      r.taken = t ++ u := by
  obtain ⟨r₁, u, h₁, h₂, hr⟩ := read_bind_inv h
  obtain ⟨hs, hall, -, hmost, e⟩ := read_between_inv h₁
  refine ⟨r₁.taken, r₁.rest, u, hs, hall, hmost, ?_, by rw [e] at h₂; exact h₂, hr⟩
  cases s with
  | nil =>
    obtain ⟨-, hrest⟩ := List.append_eq_nil_iff.mp hs.symm
    exact Or.inr (by rw [hrest]; exact nofun)
  | cons c s =>
    -- if the first character is of the class, it is the one taken
    cases hc : class_ c with
    | true =>
      have hclass : ∀ d ∈ [c], class_ d = true := fun d hd => by
        rw [List.mem_singleton.mp hd]
        exact hc
      have hone : (between 0 1 class_).read ([c] ++ s) = some ⟨[c], [c], s⟩ :=
        read_between_append hclass (Nat.zero_le _) (Nat.le_refl _) (Or.inl rfl)
      rw [show (between 0 1 class_).read ([c] ++ s) = some r₁ from h₁] at hone
      cases hone
      exact Or.inl rfl
    | false =>
      cases ht : r₁.taken with
      | nil =>
        rw [ht] at hs
        rw [← show c :: s = r₁.rest from hs]
        exact Or.inr (endsRun_cons hc s)
      | cons d t =>
        rw [ht] at hs hall
        rw [(List.cons.inj hs).1, hall d (List.mem_cons_self ..)] at hc
        cases hc

theorem read_exactly_append {n : Nat} {class_ : Char → Bool} {t : Text}
    (ht : ∀ c ∈ t, class_ c = true) (hn : t.length = n) (z : Text) :
    (exactly n class_).read (t ++ z) = some ⟨t, t, z⟩ :=
  read_between_append ht (Nat.le_of_eq hn.symm) (Nat.le_of_eq hn) (Or.inl hn)

theorem read_exactly_bind_inv {n : Nat} {class_ : Char → Bool} {s : Text} {f : Text → Pattern β}
    {r : Reading β} (h : (exactly n class_ >>= f).read s = some r) :
    ∃ t z u, s = t ++ z ∧ (∀ c ∈ t, class_ c = true) ∧ t.length = n ∧
      (f t).read z = some ⟨r.note, u, r.rest⟩ ∧ r.taken = t ++ u := by
  obtain ⟨t, z, u, hs, hall, hleast, hmost, h, hr⟩ := read_between_bind_inv h
  exact ⟨t, z, u, hs, hall, Nat.le_antisymm hmost hleast, h, hr⟩

theorem read_orElse_left {p q : Pattern α} {s : Text} {r : Reading α} (h : p.read s = some r) :
    (orElse p q).read s = some r := by
  show (p.read s).or (q.read s) = some r
  rw [h]
  rfl

theorem read_orElse_right {p q : Pattern α} {s : Text} (h : p.read s = none) :
    (orElse p q).read s = q.read s := by
  show (p.read s).or (q.read s) = q.read s
  rw [h]
  rfl

theorem read_oneOf_inv {ps : List (Pattern α)} {s : Text} {r : Reading α}
    (h : (oneOf ps).read s = some r) : ∃ p ∈ ps, p.read s = some r := by
  induction ps with
  | nil => cases h
  | cons p ps ih =>
    rcases Option.or_eq_some_iff.mp h with h | ⟨-, h⟩
    · exact ⟨p, List.mem_cons_self .., h⟩
    · obtain ⟨q, hq, hread⟩ := ih h
      exact ⟨q, List.mem_cons_of_mem _ hq, hread⟩

/-! ## The last quotation mark of a line -/

/-- The first line of a text, with the line feed that ends it. -/
def firstLine : Text → Text
  | [] => []
  | c :: s => if c = '\n' then ['\n'] else c :: firstLine s

theorem firstLine_append_of_not_mem {t : Text} (h : '\n' ∉ t) (z : Text) :
    firstLine (t ++ z) = t ++ firstLine z := by
  induction t with
  | nil => rfl
  | cons c t ih =>
    have hc : c ≠ '\n' := fun e => h (e ▸ List.mem_cons_self ..)
    rw [List.cons_append, firstLine, if_neg hc, ih fun hm => h (List.mem_cons_of_mem _ hm)]
    rfl

/-- Behind a line feed nothing belongs to the first line. -/
theorem firstLine_append_of_mem {t : Text} (h : '\n' ∈ t) (z : Text) :
    firstLine (t ++ z) = firstLine t := by
  induction t with
  | nil => cases h
  | cons c t ih =>
    rw [List.cons_append, firstLine, firstLine]
    split
    · rfl
    · next hc => rw [ih ((List.mem_cons.mp h).resolve_left (Ne.symm hc))]

theorem splitLastQuote_eq_none_iff {s : Text} :
    splitLastQuote s = none ↔ '"' ∉ firstLine s := by
  induction s with
  | nil => simp [splitLastQuote, firstLine]
  | cons c s ih =>
    rw [splitLastQuote, firstLine]
    split
    · simp
    · cases h : splitLastQuote s with
      | some parts => simp [← ih, h]
      | none =>
        have hs := ih.mp h
        by_cases hc : c = '"'
        · simp [hc]
        · simp [hc, hs, Ne.symm hc]

/-- The part taken ends at a quotation mark, and the rest of the line holds none. -/
theorem splitLastQuote_inv {s q z : Text} (h : splitLastQuote s = some (q, z)) :
    s = q ++ z ∧ '\n' ∉ q ∧ q.getLast? = some '"' ∧ '"' ∉ firstLine z := by
  refine ⟨(append_eq_of_splitLastQuote h).symm, ?_⟩
  induction s generalizing q with
  | nil => cases h
  | cons c s ih =>
    rw [splitLastQuote] at h
    split at h
    · cases h
    · next hc =>
      split at h
      · next q' z' hs =>
        cases h
        obtain ⟨hnl, hlast, hz⟩ := ih hs
        refine ⟨?_, ?_, hz⟩
        · rw [List.mem_cons, not_or]
          exact ⟨Ne.symm hc, hnl⟩
        · rw [List.getLast?_cons, hlast]
          rfl
      · next hs =>
        split at h
        · next hquote =>
          cases h
          refine ⟨?_, by rw [hquote]; rfl, splitLastQuote_eq_none_iff.mp hs⟩
          rw [List.mem_singleton]
          exact Ne.symm hc
        · cases h

/-- A line is divided behind the quotation mark that is the last one on it. -/
theorem splitLastQuote_append {q z : Text} (hnl : '\n' ∉ q) (hlast : q.getLast? = some '"')
    (hz : '"' ∉ firstLine z) : splitLastQuote (q ++ z) = some (q, z) := by
  induction q with
  | nil => cases hlast
  | cons c q ih =>
    have hc : c ≠ '\n' := fun e => hnl (e ▸ List.mem_cons_self ..)
    rw [List.cons_append, splitLastQuote, if_neg hc]
    cases q with
    | nil =>
      have hquote : c = '"' := by simpa using hlast
      rw [List.nil_append, splitLastQuote_eq_none_iff.mpr hz, hquote]
      rfl
    | cons d q =>
      rw [ih (fun hm => hnl (List.mem_cons_of_mem _ hm)) (by simpa using hlast)]

theorem read_throughLastQuote_append {q z : Text} (hnl : '\n' ∉ q) (hlast : q.getLast? = some '"')
    (hz : '"' ∉ firstLine z) : throughLastQuote.read (q ++ z) = some ⟨(), q, z⟩ := by
  show (splitLastQuote (q ++ z)).map _ = _
  rw [splitLastQuote_append hnl hlast hz]
  rfl

theorem read_throughLastQuote_inv {s : Text} {r : Reading Unit}
    (h : throughLastQuote.read s = some r) :
    s = r.taken ++ r.rest ∧ '\n' ∉ r.taken ∧ r.taken.getLast? = some '"' ∧
      '"' ∉ firstLine r.rest ∧ r = ⟨(), r.taken, r.rest⟩ := by
  obtain ⟨⟨q, z⟩, hs, rfl⟩ := Option.map_eq_some_iff.mp h
  obtain ⟨hs, hnl, hlast, hz⟩ := splitLastQuote_inv hs
  exact ⟨hs, hnl, hlast, hz, rfl⟩

/-- A quotation mark on the line is enough for the reading, and it is taken. -/
theorem read_throughLastQuote_of_mem {q : Text} (hnl : '\n' ∉ q) (hlast : q.getLast? = some '"')
    (z : Text) :
    ∃ u y, z = u ++ y ∧ throughLastQuote.read (q ++ z) = some ⟨(), q ++ u, y⟩ := by
  cases hz : splitLastQuote z with
  | none =>
    refine ⟨[], z, rfl, ?_⟩
    rw [List.append_nil]
    exact read_throughLastQuote_append hnl hlast (splitLastQuote_eq_none_iff.mp hz)
  | some parts =>
    obtain ⟨u, y⟩ := parts
    obtain ⟨rfl, hnl', hlast', hy⟩ := splitLastQuote_inv hz
    refine ⟨u, y, rfl, ?_⟩
    rw [← List.append_assoc]
    refine read_throughLastQuote_append ?_ ?_ hy
    · rw [List.mem_append, not_or]
      exact ⟨hnl, hnl'⟩
    · rw [List.getLast?_append, hlast']
      rfl

/-! ## The nearest place -/

theorem nearest_of_read {p : Pattern α} {s : Text} {n : Nat} {r : Reading α}
    (h : p.read (s.drop n) = some r) (skipped : List Char) : ∃ r', nearest p skipped s = some r' := by
  induction s generalizing n skipped with
  | nil =>
    rw [List.drop_nil] at h
    unfold nearest
    rw [h]
    exact ⟨_, rfl⟩
  | cons c s ih =>
    unfold nearest
    cases hread : p.read (c :: s) with
    | some r' => exact ⟨_, rfl⟩
    | none =>
      cases n with
      | zero =>
        rw [List.drop_zero, hread] at h
        cases h
      | succ n => exact ih h (c :: skipped)

/-- What is found is what the pattern reads at the first place where it reads. -/
theorem nearest_inv {p : Pattern α} {skipped s : Text} {r : Reading α}
    (h : nearest p skipped s = some r) :
    ∃ n r', n ≤ s.length ∧ p.read (s.drop n) = some r' ∧ (∀ k < n, p.read (s.drop k) = none) ∧
      r = ⟨r'.note, skipped.reverse ++ (s.take n ++ r'.taken), r'.rest⟩ := by
  induction s generalizing skipped with
  | nil =>
    unfold nearest at h
    cases hread : p.read [] with
    | none =>
      rw [hread] at h
      cases h
    | some r' =>
      rw [hread] at h
      cases h
      exact ⟨0, r', Nat.zero_le _, hread, fun k hk => absurd hk k.not_lt_zero, rfl⟩
  | cons c s ih =>
    unfold nearest at h
    cases hread : p.read (c :: s) with
    | some r' =>
      rw [hread] at h
      cases h
      exact ⟨0, r', Nat.zero_le _, hread, fun k hk => absurd hk k.not_lt_zero, rfl⟩
    | none =>
      rw [hread] at h
      obtain ⟨n, r', hn, hat, hfirst, rfl⟩ := ih h
      refine ⟨n + 1, r', Nat.succ_le_succ hn, hat, fun k hk => ?_, ?_⟩
      · cases k with
        | zero => exact hread
        | succ k => exact hfirst k (Nat.lt_of_succ_lt_succ hk)
      · rw [List.reverse_cons, List.append_assoc]
        rfl

/-! ## Closed patterns -/

/-- What the pattern took decides that it took it, whatever comes behind. -/
def Closed (p : Pattern α) : Prop :=
  ∀ {s : Text} {r : Reading α}, p.read s = some r → ∀ z, p.read (r.taken ++ z) = some ⟨r.note, r.taken, z⟩

theorem closed_pure (a : α) : (pure a : Pattern α).Closed := by
  intro s r h z
  cases h
  rfl

theorem Closed.bind {p : Pattern α} {f : α → Pattern β} (hp : p.Closed) (hf : ∀ a, (f a).Closed) :
    (p >>= f).Closed := by
  intro s r h z
  obtain ⟨r₁, u, h₁, h₂, hr⟩ := read_bind_inv h
  rw [hr, List.append_assoc]
  exact read_bind_of (hp h₁ (u ++ z)) (hf r₁.note h₂ z)

/-- The pattern does not read what it refused and the other one took, whatever comes behind. -/
def YieldsTo (p q : Pattern α) : Prop :=
  ∀ {s : Text} {r : Reading α}, q.read s = some r → p.read s = none →
    ∀ z, p.read (r.taken ++ z) = none

theorem closed_oneOf {ps : List (Pattern α)} (hps : ∀ p ∈ ps, p.Closed)
    (hyield : ps.Pairwise YieldsTo) : (oneOf ps).Closed := by
  induction ps with
  | nil => intro s r h; cases h
  | cons p ps ih =>
    obtain ⟨hp, hrest⟩ := List.pairwise_cons.mp hyield
    intro s r h z
    rcases Option.or_eq_some_iff.mp h with h | ⟨hnone, h⟩
    · exact read_orElse_left (hps p (List.mem_cons_self ..) h z)
    · obtain ⟨q, hq, hread⟩ := read_oneOf_inv h
      have : (orElse p (oneOf ps)).read (r.taken ++ z) = (oneOf ps).read (r.taken ++ z) :=
        read_orElse_right (hp q hq hread hnone z)
      exact this.trans (ih (fun q hq => hps q (List.mem_cons_of_mem _ hq)) hrest h z)

/-- A closed pattern reads on a longer text what it reads on a shorter one. -/
theorem Closed.read_append {p : Pattern α} (hp : p.Closed) {s : Text} {r : Reading α}
    (h : p.read s = some r) (z : Text) : p.read (s ++ z) = some ⟨r.note, r.taken, r.rest ++ z⟩ := by
  rw [← p.taken_append_rest h, List.append_assoc]
  exact hp h (r.rest ++ z)

/-- A closed pattern reads on a shorter text what it reads on a longer one, if that is in it. -/
theorem Closed.read_of_append {p : Pattern α} (hp : p.Closed) {s z : Text} {r : Reading α}
    (h : p.read (s ++ z) = some r) (hs : r.taken <+: s) :
    ∃ y, p.read s = some ⟨r.note, r.taken, y⟩ := by
  obtain ⟨y, rfl⟩ := hs
  exact ⟨y, hp h y⟩

end Pattern

end FirmwareIds
