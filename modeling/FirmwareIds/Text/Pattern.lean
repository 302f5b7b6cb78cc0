import FirmwareIds.Text.Basic

/-!
# Patterns

A pattern reads a front part off a text and notes something about it, or refuses. What it takes
and what it leaves are together the text it was given; that law is a field of the type, so every
pattern has it by construction, whatever it is built from. Patterns are read greedily and never
take anything back. The formats of this library are described so that this loses nothing: where
one part ends and the next begins is decided by the first character that does not fit.

`through` looks ahead for the nearest place where a pattern reads. It ends the patterns whose
middle is arbitrary text.
-/

namespace FirmwareIds

/-- What a pattern read off the front of a text. -/
structure Reading (α : Type) where
  /-- What the pattern notes about it. -/
  note : α
  /-- The characters it took. -/
  taken : Text
  /-- The characters it left. -/
  rest : Text

/-- A way to read a front part off a text. -/
structure Pattern (α : Type) where
  /-- Reads the front of a text, or refuses. -/
  read : Text → Option (Reading α)
  /-- Nothing is lost between the part taken and the part left. -/
  taken_append_rest : ∀ {s : Text} {r : Reading α}, read s = some r → r.taken ++ r.rest = s

namespace Pattern

variable {α β : Type}

/-- Takes nothing and notes `a`. -/
def done (a : α) : Pattern α where
  read s := some ⟨a, [], s⟩
  taken_append_rest := by rintro s r ⟨⟩; rfl

/-- One pattern, and right after it the pattern that its note decides. -/
def andThen (p : Pattern α) (f : α → Pattern β) : Pattern β where
  read s :=
    (p.read s).bind fun r =>
      ((f r.note).read r.rest).map fun r' => ⟨r'.note, r.taken ++ r'.taken, r'.rest⟩
  taken_append_rest := by
    intro s r h
    obtain ⟨r₁, h₁, h⟩ := Option.bind_eq_some_iff.mp h
    obtain ⟨r₂, h₂, rfl⟩ := Option.map_eq_some_iff.mp h
    rw [List.append_assoc, (f r₁.note).taken_append_rest h₂, p.taken_append_rest h₁]

instance : Monad Pattern where
  pure := done
  bind := andThen

@[simp] theorem read_pure (a : α) (s : Text) : (pure a : Pattern α).read s = some ⟨a, [], s⟩ := rfl

@[simp] theorem read_bind (p : Pattern α) (f : α → Pattern β) (s : Text) :
    (p >>= f).read s =
      (p.read s).bind fun r =>
        ((f r.note).read r.rest).map fun r' => ⟨r'.note, r.taken ++ r'.taken, r'.rest⟩ := rfl

/-- The first pattern, or the second where the first refuses. -/
def orElse (p q : Pattern α) : Pattern α where
  read s := (p.read s).or (q.read s)
  taken_append_rest := by
    intro s r h
    rcases Option.or_eq_some_iff.mp h with h | ⟨_, h⟩
    · exact p.taken_append_rest h
    · exact q.taken_append_rest h

/-- The first of some patterns that reads. -/
def oneOf (ps : List (Pattern α)) : Pattern α :=
  ps.foldr orElse ⟨fun _ => none, by rintro s r ⟨⟩⟩

/-- Takes nothing, and notes the value if there is one. -/
def given : Option α → Pattern α
  | some a => done a
  | none => ⟨fun _ => none, by rintro s r ⟨⟩⟩

/-- Takes nothing, where the condition holds. -/
def require (holds : Bool) : Pattern Unit := given (if holds then some () else none)

/-- What the pattern notes, or nothing where it refuses. -/
def maybe (p : Pattern α) : Pattern (Option α) := orElse (p >>= fun a => done (some a)) (done none)

/-- Takes nothing, where nothing is left to take. -/
def atEnd : Pattern Unit where
  read s := if s.isEmpty then some ⟨(), [], s⟩ else none
  taken_append_rest := by
    intro s r h
    split at h
    · cases h; rfl
    · cases h

/-- Exactly the characters of `w`. -/
def word (w : Text) : Pattern Unit where
  read s := (Text.after? w s).map fun rest => ⟨(), w, rest⟩
  taken_append_rest := by
    intro s r h
    obtain ⟨rest, hrest, rfl⟩ := Option.map_eq_some_iff.mp h
    exact (Text.after?_eq_some_iff.mp hrest).symm

/-- As many characters of the class `p` as there are, perhaps none; they are the note. -/
def many (p : Char → Bool) : Pattern Text where
  read s := some ⟨s.takeWhile p, s.takeWhile p, s.dropWhile p⟩
  taken_append_rest := by rintro s r ⟨⟩; exact List.takeWhile_append_dropWhile

/-- As many characters of the class `p` as there are, if there are any. -/
def many1 (p : Char → Bool) : Pattern Text where
  read s :=
    if (s.takeWhile p).isEmpty then none
    else some ⟨s.takeWhile p, s.takeWhile p, s.dropWhile p⟩
  taken_append_rest := by
    intro s r h
    split at h
    · cases h
    · cases h; exact List.takeWhile_append_dropWhile

/-- As many characters of the class `p` as there are, but at most `most`, if these are at least
`least`. -/
def between (least most : Nat) (p : Char → Bool) : Pattern Text where
  read s :=
    let run := (s.take most).takeWhile p
    if run.length < least then none else some ⟨run, run, s.drop run.length⟩
  taken_append_rest := by
    intro s r h
    dsimp only at h
    split at h
    · cases h
    · cases h
      obtain ⟨t, ht⟩ := (List.takeWhile_prefix p).trans (List.take_prefix most s)
      simp only
      generalize (s.take most).takeWhile p = run at ht
      rw [← ht, List.drop_left]

/-- Exactly `n` characters of the class `p`. -/
def exactly (n : Nat) (p : Char → Bool) : Pattern Text := between n n p

/-- One character of the class `p` if there is one, and nothing otherwise. -/
def optional (p : Char → Bool) : Pattern Text := between 0 1 p

/-- The longest row of readings that each take something. -/
def row (p : Pattern α) (s : Text) : Reading (List α) :=
  match h : p.read s with
  | none => ⟨[], [], s⟩
  | some r =>
    if ht : r.taken = [] then ⟨[], [], s⟩
    else
      have : r.rest.length < s.length := by
        rw [← p.taken_append_rest h, List.length_append]
        have := List.length_pos_iff.mpr ht
        omega
      let more := row p r.rest
      ⟨r.note :: more.note, r.taken ++ more.taken, more.rest⟩
termination_by s.length

theorem taken_append_rest_row (p : Pattern α) (s : Text) :
    (row p s).taken ++ (row p s).rest = s := by
  fun_induction row p s with
  | case1 => rfl
  | case2 => rfl
  | case3 s r h _ _ more ih => rw [List.append_assoc, ih, p.taken_append_rest h]

/-- The pattern as often as it reads and takes something; the notes in order. -/
def star (p : Pattern α) : Pattern (List α) where
  read s := some (row p s)
  taken_append_rest := by rintro s r ⟨⟩; exact taken_append_rest_row p s

/-- The line up to its last quotation mark, and what follows that mark. -/
def splitLastQuote : Text → Option (Text × Text)
  | [] => none
  | c :: s =>
    if c = '\n' then none
    else
      match splitLastQuote s with
      | some (taken, rest) => some (c :: taken, rest)
      | none => if c = '"' then some ([c], s) else none

theorem append_eq_of_splitLastQuote {s taken rest : Text}
    (h : splitLastQuote s = some (taken, rest)) : taken ++ rest = s := by
  induction s generalizing taken with
  | nil => cases h
  | cons c s ih =>
    unfold splitLastQuote at h
    split at h
    · cases h
    · split at h
      · rename_i hs
        cases h
        exact congrArg (c :: ·) (ih hs)
      · split at h <;> cases h
        rfl

/-- The rest of the line up to its last quotation mark, which is taken too. -/
def throughLastQuote : Pattern Unit where
  read s := (splitLastQuote s).map fun parts => ⟨(), parts.1, parts.2⟩
  taken_append_rest := by
    intro s r h
    obtain ⟨_, hparts, rfl⟩ := Option.map_eq_some_iff.mp h
    exact append_eq_of_splitLastQuote hparts

/-- The first place at or after the front of a text where the pattern reads: what it reads there,
the characters before that place among those taken. Before the front come the characters
`skipped`, last first. -/
def nearest (p : Pattern α) (skipped : List Char) (s : Text) : Option (Reading α) :=
  match p.read s with
  | some r => some ⟨r.note, skipped.reverse ++ r.taken, r.rest⟩
  | none =>
    match s with
    | [] => none
    | c :: rest => nearest p (c :: skipped) rest

theorem taken_append_rest_nearest {p : Pattern α} {skipped : List Char} {s : Text}
    {r : Reading α} (h : nearest p skipped s = some r) :
    r.taken ++ r.rest = skipped.reverse ++ s := by
  induction s generalizing skipped with
  | nil =>
    unfold nearest at h
    split at h
    · rename_i r' hr
      cases h
      rw [List.append_assoc, p.taken_append_rest hr]
    · cases h
  | cons c s ih =>
    unfold nearest at h
    split at h
    · rename_i r' hr
      cases h
      rw [List.append_assoc, p.taken_append_rest hr]
    · rw [ih h]
      simp

/-- All up to the nearest place where the pattern reads, and what it reads there. -/
def through (p : Pattern α) : Pattern α where
  read s := nearest p [] s
  taken_append_rest := taken_append_rest_nearest

end Pattern

end FirmwareIds
