import FirmwareIds.Text.Basic

/-!
# Paths

A path keeps the characters it was given with and is shown with them, but two paths are compared
by their parts: repeated separators, and dots that mean nothing, make no difference. `same` is
that comparison.

Nothing here looks at files. What a path leads to is the matter of the file tree.
-/

namespace FirmwareIds

/-- A path as it was given or joined. -/
structure Path where
  /-- Its characters. -/
  text : Text
  deriving DecidableEq

namespace Path

/-- A part of a path. -/
inductive Part where
  /-- The root, at the front of an absolute path. -/
  | root
  /-- The dot that a relative path may begin with. -/
  | here
  /-- Two dots. -/
  | up
  /-- A name. -/
  | name (n : Text)
  deriving DecidableEq

/-- The characters between separators, empty ones included. -/
def splitSeparators (s : Text) : List Text := go [] s
where
  /-- Goes on with a piece whose characters so far, last first, are `acc`. -/
  go (acc : List Char) : Text → List Text
    | [] => [acc.reverse]
    | c :: rest => if c = '/' then acc.reverse :: go [] rest else go (c :: acc) rest

/-- Whether the path starts at the root. -/
def isAbsolute (p : Path) : Bool := p.text.head? == some '/'

/-- The names and dots of the path without the empty pieces between separators. -/
def pieces (p : Path) : List Text := (splitSeparators p.text).filter fun s => !s.isEmpty

/-- Whether a separator ends the path. -/
def endsWithSeparator (p : Path) : Bool := p.text.getLast? == some '/'

/-- A piece as a part; a single dot means nothing. -/
def Part.ofPiece? (piece : Text) : Option Part :=
  if piece = ['.'] then none
  else if piece = ['.', '.'] then some .up
  else some (.name piece)

/-- Whether the path is relative and begins with a single dot. -/
def beginsWithDot (p : Path) : Bool :=
  match p.text with
  | ['.'] => true
  | '.' :: '/' :: _ => true
  | _ => false

/-- The parts of the path. -/
def parts (p : Path) : List Part :=
  let named := p.pieces.filterMap Part.ofPiece?
  if p.isAbsolute then .root :: named
  else if p.beginsWithDot then .here :: named
  else named

/-- Whether two paths have the same parts. -/
def same (p q : Path) : Bool := p.parts == q.parts

/-- The path `q` taken from the directory `p`. -/
def join (p q : Path) : Path :=
  if q.isAbsolute then q
  else if p.text.isEmpty || p.endsWithSeparator then ⟨p.text ++ q.text⟩
  else ⟨p.text ++ '/' :: q.text⟩

/-- What stands before the first name: the root, a leading dot, or nothing. -/
def lead (p : Path) : Text :=
  if p.isAbsolute then ['/'] else if p.beginsWithDot then ['.'] else []

/-- Drops the separators and single dots at the end of a path whose characters come last first. -/
def dropIdle : List Char → List Char
  | '/' :: rest => dropIdle rest
  | ['.'] => []
  | '.' :: '/' :: rest => dropIdle rest
  | rest => rest

/-- The characters behind the lead, last first, without what means nothing at the end. -/
def core (p : Path) : List Char := dropIdle (p.text.drop p.lead.length).reverse

/-- The last part, if it is a name. -/
def fileName? (p : Path) : Option Text :=
  let last := (p.core.takeWhile (· != '/')).reverse
  if last = [] ∨ last = ['.', '.'] then none else some last

/-- The path without its last part. -/
def parent? (p : Path) : Option Path :=
  if p.core.isEmpty then
    if p.lead = ['.'] then some ⟨[]⟩ else none
  else some ⟨p.lead ++ (dropIdle (p.core.dropWhile (· != '/'))).reverse⟩

theorem length_dropIdle_le (s : List Char) : (dropIdle s).length ≤ s.length := by
  fun_induction dropIdle s with
  | case1 rest ih => exact Nat.le_succ_of_le ih
  | case2 => exact Nat.zero_le _
  | case3 rest ih => exact Nat.le_trans ih (by simp only [List.length_cons]; omega)
  | case4 => exact Nat.le_refl _

/-- What is left of a path does not end in a separator. -/
theorem head_dropIdle_ne (s rest : List Char) : dropIdle s ≠ '/' :: rest := by
  fun_induction dropIdle s with
  | case1 _ ih => exact ih
  | case2 => exact fun h => nomatch h
  | case3 _ ih => exact ih
  | case4 s hslash => exact fun h => hslash rest h

theorem length_lead_le (p : Path) : p.lead.length ≤ p.text.length := by
  unfold lead isAbsolute beginsWithDot
  rcases p with ⟨_ | ⟨c, s⟩⟩
  · simp
  · split
    · simp
    · split <;> simp

/-- A path is longer than the directory it names something in, so a climb to the root ends. -/
theorem length_parent?_lt {p dir : Path} (h : p.parent? = some dir) :
    dir.text.length < p.text.length := by
  have hcore : p.core.length ≤ p.text.length - p.lead.length := by
    refine Nat.le_trans (length_dropIdle_le _) (Nat.le_of_eq ?_)
    rw [List.length_reverse, List.length_drop]
  have hlead := length_lead_le p
  unfold parent? at h
  split at h
  · split at h
    · rename_i hdot
      cases h
      have : p.lead.length = 1 := by rw [hdot]; rfl
      show 0 < _
      omega
    · cases h
  · rename_i hne
    cases h
    cases hc : p.core with
    | nil => rw [hc] at hne; exact absurd rfl hne
    | cons c rest =>
      have hslash : (c != '/') = true := by
        rw [bne_iff_ne]
        rintro rfl
        exact head_dropIdle_ne _ rest hc
      rw [hc, List.length_cons] at hcore
      have h₁ := length_dropIdle_le (rest.dropWhile (· != '/'))
      have h₂ := (List.dropWhile_sublist (l := rest) (· != '/')).length_le
      simp only [List.dropWhile_cons, hslash, if_true, List.length_append, List.length_reverse]
      omega

/-- The path with another name in place of its last; behind a path that ends in no name, the name
is added. -/
def withFileName (p : Path) (n : Text) : Path :=
  match p.fileName?, p.parent? with
  | some _, some dir => dir.join ⟨n⟩
  | _, _ => p.join ⟨n⟩

end Path

end FirmwareIds
