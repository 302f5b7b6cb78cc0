import FirmwareIds.FileTree.Replace

/-!
# The names of a path

Where a path leads is decided by its pieces, and the single dots among them matter at most at its
end. The pieces without the dots are the names of the path. `names_of_fileName?` says that a path
has the names of its parent and one more, `join_name` the same of a path and a name in it; so the
temporary file for a path lies in the directory of the path (`temporary_eq`). Two paths with the
same parts have the same names (`names_eq_of_same`).
-/

namespace FirmwareIds.Path

/-- A separator ends a piece. -/
theorem splitSeparators_append (s t : Text) :
    splitSeparators (s ++ '/' :: t) = splitSeparators s ++ splitSeparators t := by
  have hgo : ∀ acc, splitSeparators.go acc (s ++ '/' :: t) =
      splitSeparators.go acc s ++ splitSeparators t := by
    induction s with
    | nil =>
      intro acc
      show splitSeparators.go acc ('/' :: t) = acc.reverse :: splitSeparators t
      rw [splitSeparators.go]
      exact if_pos rfl
    | cons c s ih =>
      intro acc
      rw [List.cons_append, splitSeparators.go, splitSeparators.go]
      split
      · rw [ih, List.cons_append]
      · exact ih _
  exact hgo []

theorem splitSeparators_of_not_mem {s : Text} (h : '/' ∉ s) : splitSeparators s = [s] := by
  have hgo : ∀ acc, splitSeparators.go acc s = [acc.reverse ++ s] := by
    induction s with
    | nil => intro acc; simp [splitSeparators.go]
    | cons c s ih =>
      intro acc
      have hc : c ≠ '/' := fun e => h (e ▸ List.mem_cons_self ..)
      rw [splitSeparators.go, if_neg hc, ih fun hm => h (List.mem_cons_of_mem _ hm)]
      simp
  exact hgo []

/-- The pieces of characters, without the empty ones. -/
def piecesOf (s : Text) : List Text := (splitSeparators s).filter fun piece => !piece.isEmpty

theorem pieces_eq (p : Path) : p.pieces = piecesOf p.text := rfl

theorem piecesOf_append (s t : Text) : piecesOf (s ++ '/' :: t) = piecesOf s ++ piecesOf t := by
  unfold piecesOf
  rw [splitSeparators_append, List.filter_append]

@[simp] theorem piecesOf_nil : piecesOf [] = [] := rfl

theorem piecesOf_of_not_mem {s : Text} (h : '/' ∉ s) (hs : s ≠ []) : piecesOf s = [s] := by
  unfold piecesOf
  rw [splitSeparators_of_not_mem h]
  cases s with
  | nil => exact absurd rfl hs
  | cons c s => rfl

/-- What does not end in a separator has a piece at its end. -/
theorem piecesOf_concat_ne_nil {s : Text} {c : Char} (hc : c ≠ '/') : piecesOf (s ++ [c]) ≠ [] := by
  by_cases hs : '/' ∈ s
  · obtain ⟨front, rest, heq⟩ := List.append_of_mem hs
    have hshorter : rest.length < s.length := by
      rw [heq, List.length_append, List.length_cons]
      omega
    rw [heq, List.append_assoc, List.cons_append, piecesOf_append]
    exact List.append_ne_nil_of_right_ne_nil _ (piecesOf_concat_ne_nil hc)
  · have hnot : '/' ∉ s ++ [c] := by simpa [hs] using hc.symm
    rw [piecesOf_of_not_mem hnot (by simp)]
    exact List.cons_ne_nil _ _
termination_by s.length

theorem ne_nil_of_mem_pieces {p : Path} {piece : Text} (h : piece ∈ p.pieces) : piece ≠ [] := by
  have := (List.mem_filter.mp h).2
  rintro rfl
  cases this

theorem slash_not_mem_of_mem_pieces {p : Path} {piece : Text} (h : piece ∈ p.pieces) :
    '/' ∉ piece := by
  have hgo : ∀ (s : Text) (acc : List Char), '/' ∉ acc →
      ∀ piece ∈ splitSeparators.go acc s, '/' ∉ piece := by
    intro s
    induction s with
    | nil =>
      intro acc hacc piece hp
      rw [splitSeparators.go, List.mem_singleton] at hp
      rw [hp, List.mem_reverse]
      exact hacc
    | cons c s ih =>
      intro acc hacc piece hp
      rw [splitSeparators.go] at hp
      split at hp
      · rcases List.mem_cons.mp hp with rfl | hp
        · rw [List.mem_reverse]
          exact hacc
        · exact ih [] List.not_mem_nil piece hp
      · next hc =>
        refine ih _ (fun hm => ?_) piece hp
        rcases List.mem_cons.mp hm with he | hm
        · exact hc he.symm
        · exact hacc hm
  exact hgo p.text [] List.not_mem_nil piece (List.mem_filter.mp h).1

/-- The pieces without single dots. -/
def namesOf (s : Text) : List Text := (piecesOf s).filter fun piece => piece ≠ ['.']

/-- The pieces of a path without single dots. -/
def names (p : Path) : List Text := p.pieces.filter fun piece => piece ≠ ['.']

theorem names_eq (p : Path) : p.names = namesOf p.text := rfl

theorem namesOf_append (s t : Text) : namesOf (s ++ '/' :: t) = namesOf s ++ namesOf t := by
  unfold namesOf
  rw [piecesOf_append, List.filter_append]

@[simp] theorem namesOf_nil : namesOf [] = [] := rfl

theorem namesOf_dot : namesOf ['.'] = [] := by decide

/-- What means nothing at the end of a path changes no names. -/
theorem namesOf_dropIdle (s : List Char) : namesOf (dropIdle s).reverse = namesOf s.reverse := by
  fun_induction dropIdle s with
  | case1 rest ih =>
    rw [ih, List.reverse_cons, namesOf_append, namesOf_nil, List.append_nil]
  | case2 => exact namesOf_dot.symm
  | case3 rest ih =>
    rw [ih, List.reverse_cons, List.reverse_cons, List.append_assoc]
    show _ = namesOf (rest.reverse ++ '/' :: ['.'])
    rw [namesOf_append, namesOf_dot, List.append_nil]
  | case4 => rfl

/-- What stands before the first name is no name: it is the root, a dot that a separator or the end
follows, or nothing. -/
theorem namesOf_lead_append {lead s : Text} (hlead : lead = [] ∨ lead = ['/'] ∨ lead = ['.'])
    (hs : lead = ['.'] → s = [] ∨ s.head? = some '/') : namesOf (lead ++ s) = namesOf s := by
  rcases hlead with rfl | rfl | rfl
  · rfl
  · show namesOf ([] ++ '/' :: s) = _
    rw [namesOf_append, namesOf_nil, List.nil_append]
  · rcases hs rfl with rfl | hs
    · exact namesOf_dot
    · obtain ⟨t, rfl⟩ := List.head?_eq_some_iff.mp hs
      show namesOf (['.'] ++ '/' :: t) = namesOf ([] ++ '/' :: t)
      rw [namesOf_append, namesOf_append, namesOf_dot, namesOf_nil]

theorem lead_cases (p : Path) : p.lead = [] ∨ p.lead = ['/'] ∨ p.lead = ['.'] := by
  unfold lead
  split
  · exact Or.inr (Or.inl rfl)
  · split
    · exact Or.inr (Or.inr rfl)
    · exact Or.inl rfl

theorem beginsWithDot_iff {p : Path} :
    p.beginsWithDot = true ↔ ∃ rest, p.text = '.' :: rest ∧ (rest = [] ∨ rest.head? = some '/') := by
  unfold beginsWithDot
  split
  · next h => exact iff_of_true rfl ⟨[], h, Or.inl rfl⟩
  · next rest h => exact iff_of_true rfl ⟨'/' :: rest, h, Or.inr rfl⟩
  · next hdot hslash =>
    refine iff_of_false Bool.false_ne_true ?_
    rintro ⟨rest, h, rfl | hrest⟩
    · exact hdot h
    · obtain ⟨rest, rfl⟩ := List.head?_eq_some_iff.mp hrest
      exact hslash rest h

/-- A path is its lead and what follows; behind a dot that is a separator. -/
theorem text_eq (p : Path) : ∃ rest, p.text = p.lead ++ rest ∧
    p.text.drop p.lead.length = rest ∧ (p.lead = ['.'] → rest = [] ∨ rest.head? = some '/') := by
  unfold lead
  split
  · next h =>
    obtain ⟨rest, hrest⟩ := List.head?_eq_some_iff.mp (eq_of_beq h)
    exact ⟨rest, hrest, by rw [hrest]; rfl, fun hd => absurd hd (by decide)⟩
  · split
    · next h =>
      obtain ⟨rest, hrest, hhead⟩ := beginsWithDot_iff.mp h
      exact ⟨rest, hrest, by rw [hrest]; rfl, fun _ => hhead⟩
    · exact ⟨p.text, rfl, rfl, fun hd => absurd hd (by decide)⟩

/-- What is idle at the end of a path is not left there. -/
theorem dropIdle_ne_dot (s : List Char) : dropIdle s ≠ ['.'] ∧ ∀ t, dropIdle s ≠ '.' :: '/' :: t := by
  fun_induction dropIdle s with
  | case1 _ ih => exact ih
  | case2 => exact ⟨(List.cons_ne_nil _ _).symm, fun _ => (List.cons_ne_nil _ _).symm⟩
  | case3 _ ih => exact ih
  | case4 s hslash hdot hdotslash => exact ⟨hdot, hdotslash⟩

/-- The last name of the characters behind the lead. -/
def lastName (p : Path) : Text := (p.core.takeWhile (· != '/')).reverse

theorem dropIdle_suffix (s : List Char) : dropIdle s <:+ s := by
  fun_induction dropIdle s with
  | case1 rest ih => exact ih.trans (List.suffix_cons ..)
  | case2 => exact List.nil_suffix
  | case3 rest ih => exact ih.trans ((List.suffix_cons ..).trans (List.suffix_cons ..))
  | case4 => exact List.suffix_rfl

theorem namesOf_core (p : Path) : p.names = namesOf p.core.reverse := by
  obtain ⟨rest, htext, hdrop, hdot⟩ := p.text_eq
  rw [names_eq, core, hdrop, namesOf_dropIdle, List.reverse_reverse, htext,
    namesOf_lead_append p.lead_cases hdot]

theorem slash_not_mem_lastName (p : Path) : '/' ∉ p.lastName := by
  unfold lastName
  rw [List.mem_reverse]
  intro hm
  have := List.all_eq_true.mp List.all_takeWhile _ hm
  simp at this

theorem lastName_ne_nil {p : Path} (h : p.core ≠ []) : p.lastName ≠ [] := by
  intro hl
  cases hc : p.core with
  | nil => exact h hc
  | cons c rest =>
    have hslash : (c != '/') = true := by
      rw [bne_iff_ne]
      rintro rfl
      exact head_dropIdle_ne _ rest hc
    have := congrArg List.reverse hl
    rw [lastName, List.reverse_reverse, hc, List.takeWhile_cons, hslash] at this
    cases this

theorem lastName_ne_dot (p : Path) : p.lastName ≠ ['.'] := by
  intro hl
  have hdot := dropIdle_ne_dot (p.text.drop p.lead.length).reverse
  have htake : p.core.takeWhile (· != '/') = ['.'] := by
    rw [← List.reverse_reverse (p.core.takeWhile _)]
    exact congrArg List.reverse hl
  have hsplit := List.takeWhile_append_dropWhile (p := (· != '/')) (l := p.core)
  rw [htake] at hsplit
  cases hd : p.core.dropWhile (· != '/') with
  | nil =>
    rw [hd] at hsplit
    exact hdot.1 hsplit.symm
  | cons c rest =>
    have hc := List.head?_dropWhile_not (· != '/') p.core
    rw [hd] at hc hsplit
    have : c = '/' := by simpa using hc
    rw [this] at hsplit
    exact hdot.2 rest hsplit.symm

/-- The characters behind the lead are those of the parent and the last name. -/
theorem core_eq (p : Path) :
    p.core.reverse = p.lastName ∧ p.core.dropWhile (· != '/') = [] ∨
      ∃ more, p.core.dropWhile (· != '/') = '/' :: more ∧
        p.core.reverse = more.reverse ++ '/' :: p.lastName := by
  have hsplit := List.takeWhile_append_dropWhile (p := (· != '/')) (l := p.core)
  cases hd : p.core.dropWhile (· != '/') with
  | nil =>
    rw [hd, List.append_nil] at hsplit
    exact Or.inl ⟨by rw [lastName, hsplit], rfl⟩
  | cons c more =>
    have hc := List.head?_dropWhile_not (· != '/') p.core
    rw [hd] at hc hsplit
    have hc : c = '/' := by simpa using hc
    rw [hc] at hsplit ⊢
    refine Or.inr ⟨more, rfl, ?_⟩
    rw [← hsplit]
    simp [lastName]

/-- A front of what is behind the lead still has the lead before it. -/
theorem lead_append_of_suffix {p : Path} {y : List Char} (h : y <:+ p.core) :
    namesOf (p.lead ++ y.reverse) = namesOf y.reverse ∧
      isAbsolute ⟨p.lead ++ y.reverse⟩ = p.isAbsolute ∧ p.lead ++ y.reverse <+: p.text := by
  obtain ⟨rest, htext, hdrop, hdot⟩ := p.text_eq
  have hpre : y.reverse <+: rest := by
    have hcore : p.core <:+ rest.reverse := by
      rw [core, hdrop]
      exact dropIdle_suffix _
    rw [← List.reverse_suffix, List.reverse_reverse]
    exact h.trans hcore
  have hhead : ∀ c ∈ y.reverse.head?, rest.head? = some c := by
    obtain ⟨more, rfl⟩ := hpre
    intro c hc
    rw [List.head?_append, Option.mem_def.mp hc]
    rfl
  refine ⟨namesOf_lead_append p.lead_cases fun hlead => ?_, ?_,
    htext ▸ (List.prefix_append_right_inj _).mpr hpre⟩
  · cases hy : y.reverse with
    | nil => exact Or.inl rfl
    | cons c s =>
      rcases hdot hlead with rfl | hslash
      · cases hhead c (by rw [hy]; rfl)
      · have := hhead c (by rw [hy]; rfl)
        rw [hslash] at this
        exact Or.inr this.symm
  · have habs : p.isAbsolute = ((p.lead ++ rest).head? == some '/') := by rw [← htext]; rfl
    rw [habs]
    show ((p.lead ++ y.reverse).head? == some '/') = _
    rcases p.lead_cases with hlead | hlead | hlead
    · rw [hlead, List.nil_append, List.nil_append]
      have hrel : p.isAbsolute = false := by
        unfold lead at hlead
        split at hlead
        · cases hlead
        · exact Bool.eq_false_iff.mpr ‹_›
      rw [habs, hlead, List.nil_append] at hrel
      rw [hrel]
      cases hy : y.reverse.head? with
      | none => rfl
      | some c => rw [← hhead c hy, hrel]
    · rw [hlead]; rfl
    · rw [hlead]; rfl

theorem namesOf_lastName {p : Path} (h : p.core ≠ []) : namesOf p.lastName = [p.lastName] := by
  unfold namesOf
  rw [piecesOf_of_not_mem p.slash_not_mem_lastName (lastName_ne_nil h)]
  simp [p.lastName_ne_dot]

/-- The names of a parent are the front of the names of the path. -/
theorem names_of_parent? {p above : Path} (h : p.parent? = some above) (hne : above.text ≠ []) :
    above.isAbsolute = p.isAbsolute ∧ above.names <+: p.names := by
  unfold parent? at h
  split at h
  · split at h
    · cases h
      exact absurd rfl hne
    · cases h
  · cases h
    have hsuffix : dropIdle (p.core.dropWhile (· != '/')) <:+ p.core :=
      (dropIdle_suffix _).trans (List.dropWhile_suffix _)
    obtain ⟨hnames, habs, -⟩ := lead_append_of_suffix hsuffix
    refine ⟨habs, ?_⟩
    rw [names_eq, hnames, namesOf_dropIdle, namesOf_core]
    rcases p.core_eq with ⟨-, hdrop⟩ | ⟨more, hdrop, hrev⟩
    · rw [hdrop]
      exact List.nil_prefix
    · rw [hdrop, hrev, namesOf_append, List.reverse_cons, namesOf_append, namesOf_nil,
        List.append_nil]
      exact List.prefix_append ..

/-- The names of a path are those of its parent, and the last name. -/
theorem names_of_fileName? {p : Path} {n : Text} (h : p.fileName? = some n) :
    ∃ dir, p.parent? = some dir ∧ p.names = dir.names ++ [n] ∧ dir.isAbsolute = p.isAbsolute ∧
      dir.text <+: p.text ∧ '/' ∉ n := by
  have hn : p.lastName = n ∧ p.lastName ≠ [] := by
    unfold fileName? at h
    dsimp only at h
    split at h
    · cases h
    · next hlast => exact ⟨Option.some.inj h, fun he => hlast (Or.inl he)⟩
  have hcore : p.core ≠ [] := by
    intro he
    refine hn.2 ?_
    rw [lastName, he]
    rfl
  have hlast := namesOf_lastName hcore
  have hsuffix : dropIdle (p.core.dropWhile (· != '/')) <:+ p.core :=
    (dropIdle_suffix _).trans (List.dropWhile_suffix _)
  obtain ⟨hnames, habs, htext⟩ := lead_append_of_suffix hsuffix
  refine ⟨_, if_neg (by simpa using hcore), ?_, habs, htext, hn.1 ▸ p.slash_not_mem_lastName⟩
  show _ = namesOf (p.lead ++ (dropIdle (p.core.dropWhile (· != '/'))).reverse) ++ [n]
  rw [hnames, namesOf_dropIdle, namesOf_core, ← hn.1]
  rcases p.core_eq with ⟨hrev, hdrop⟩ | ⟨more, hdrop, hrev⟩
  · rw [hdrop, hrev, hlast]
    rfl
  · rw [hdrop, hrev, namesOf_append, hlast, List.reverse_cons, namesOf_append, namesOf_nil,
      List.append_nil]

theorem names_eq_concat {p : Path} (h : p.core ≠ []) : ∃ front, p.names = front ++ [p.lastName] := by
  rw [namesOf_core]
  rcases p.core_eq with ⟨hrev, -⟩ | ⟨more, -, hrev⟩
  · exact ⟨[], by rw [hrev, namesOf_lastName h]; rfl⟩
  · exact ⟨_, by rw [hrev, namesOf_append, namesOf_lastName h]⟩

theorem fileName?_eq {p : Path} (h : p.core ≠ []) (hup : p.lastName ≠ ['.', '.']) :
    p.fileName? = some p.lastName := by
  show (if p.lastName = [] ∨ p.lastName = ['.', '.'] then none else some p.lastName) = _
  exact if_neg fun hor => hor.elim (lastName_ne_nil h) hup

/-- The last of the names of a path is the name of its file, unless that is two dots. -/
theorem fileName?_of_names {p : Path} {front : List Text} {n : Text} (h : p.names = front ++ [n])
    (hn : n ≠ ['.', '.']) : p.fileName? = some n := by
  have hcore : p.core ≠ [] := by
    intro he
    rw [namesOf_core, he] at h
    simp at h
  obtain ⟨front', hlast⟩ := names_eq_concat hcore
  rw [h] at hlast
  have hlast : n = p.lastName := List.singleton_inj.mp (List.append_inj' hlast rfl).2
  rw [hlast] at hn ⊢
  exact fileName?_eq hcore hn

/-- A path that names no file and does not go up has nothing above it but the working directory. -/
theorem parent?_of_no_fileName {p above : Path} (h : p.fileName? = none)
    (hup : ['.', '.'] ∉ p.names) (habove : p.parent? = some above) : above.text = [] := by
  have hcore : p.core = [] := by
    refine Decidable.byContradiction fun hcore => ?_
    obtain ⟨front, hfront⟩ := names_eq_concat hcore
    have hlast : p.lastName ≠ ['.', '.'] := by
      intro he
      refine hup ?_
      rw [hfront, he]
      exact List.mem_append_right _ (List.mem_singleton_self _)
    rw [fileName?_eq hcore hlast] at h
    cases h
  unfold parent? at habove
  rw [hcore] at habove
  dsimp only [List.isEmpty] at habove
  rw [if_pos rfl] at habove
  split at habove
  · cases habove
    rfl
  · cases habove

theorem isAbsolute_eq_false {n : Text} (hslash : '/' ∉ n) : isAbsolute ⟨n⟩ = false := by
  cases n with
  | nil => rfl
  | cons c s =>
    refine beq_eq_false_iff_ne.mpr fun he => hslash ?_
    rw [← Option.some.inj he]
    exact List.mem_cons_self ..

theorem endsWithSeparator_append_name (front : Text) {n : Text} (hslash : '/' ∉ n) (hne : n ≠ []) :
    endsWithSeparator ⟨front ++ n⟩ = false := by
  refine beq_eq_false_iff_ne.mpr fun he => ?_
  have hlast := List.getLast?_eq_some_getLast hne
  rw [List.getLast?_append, hlast] at he
  rw [Option.some.inj he] at hlast
  exact hslash (List.mem_of_getLast? hlast)

/-- A path and a name in it: the pieces of the path and the name. -/
theorem join_name (p : Path) {n : Text} (hslash : '/' ∉ n) (hne : n ≠ []) :
    (p.join ⟨n⟩).pieces = p.pieces ++ [n] ∧ (p.join ⟨n⟩).isAbsolute = p.isAbsolute ∧
      (p.join ⟨n⟩).endsWithSeparator = false := by
  have hrel := isAbsolute_eq_false hslash
  have hend : ∀ front : Text, endsWithSeparator ⟨front ++ n⟩ = false := fun front =>
    endsWithSeparator_append_name front hslash hne
  have hone : piecesOf n = [n] := piecesOf_of_not_mem hslash hne
  unfold join
  rw [hrel, if_neg Bool.false_ne_true]
  cases hp : p.text with
  | nil =>
    refine ⟨?_, ?_, hend []⟩
    · show piecesOf n = piecesOf p.text ++ [n]
      rw [hone, hp]
      rfl
    · show isAbsolute ⟨n⟩ = (p.text.head? == some '/')
      rw [hrel, hp]
      rfl
  | cons c s =>
    have habs : ∀ more : Text, isAbsolute ⟨c :: s ++ more⟩ = p.isAbsolute := by
      intro more
      show _ = (p.text.head? == some '/')
      rw [hp]
      rfl
    cases hsep : p.endsWithSeparator with
    | true =>
      refine ⟨?_, habs _, hend _⟩
      obtain ⟨front, hfront⟩ := List.getLast?_eq_some_iff.mp (eq_of_beq hsep)
      show piecesOf (c :: s ++ n) = piecesOf p.text ++ [n]
      rw [← hp, hfront, List.append_assoc]
      show piecesOf (front ++ '/' :: n) = piecesOf (front ++ '/' :: []) ++ [n]
      rw [piecesOf_append, piecesOf_append, piecesOf_nil, List.append_nil, hone]
    | false =>
      refine ⟨?_, habs _, ?_⟩
      · show piecesOf (c :: s ++ '/' :: n) = piecesOf p.text ++ [n]
        rw [piecesOf_append, hone, hp]
      · show endsWithSeparator ⟨c :: s ++ '/' :: n⟩ = false
        rw [show c :: s ++ '/' :: n = (c :: s ++ ['/']) ++ n by simp]
        exact hend _

/-- The piece that a part stands for, unless it stands in front of the pieces. -/
def Part.piece? : Part → Option Text
  | .root | .here => none
  | .up => some ['.', '.']
  | .name n => some n

theorem piece?_ofPiece? (piece : Text) :
    (Part.ofPiece? piece).bind Part.piece? = if piece = ['.'] then none else some piece := by
  unfold Part.ofPiece?
  split
  · rfl
  · split
    · next hup => rw [hup]; rfl
    · rfl

/-- The names of a path can be told from its parts. -/
theorem filterMap_piece?_parts (p : Path) : p.parts.filterMap Part.piece? = p.names := by
  have hfront : p.parts.filterMap Part.piece? =
      (p.pieces.filterMap Part.ofPiece?).filterMap Part.piece? := by
    unfold parts
    dsimp only
    split
    · rfl
    · split <;> rfl
  rw [hfront, List.filterMap_filterMap, funext piece?_ofPiece?]
  show _ = p.pieces.filter _
  induction p.pieces with
  | nil => rfl
  | cons piece more ih => by_cases hdot : piece = ['.'] <;> simp [hdot, ih]

/-- The root is the first part of an absolute path and of no other. -/
theorem head?_parts (p : Path) : (p.parts.head? == some .root) = p.isAbsolute := by
  have hnone : ((p.pieces.filterMap Part.ofPiece?).head? == some .root) = false := by
    refine beq_eq_false_iff_ne.mpr fun he => ?_
    obtain ⟨piece, -, hp⟩ := List.mem_filterMap.mp (List.mem_of_head? he)
    unfold Part.ofPiece? at hp
    split at hp
    · cases hp
    · split at hp <;> cases hp
  unfold parts
  dsimp only
  cases hp : p.isAbsolute
  · rw [if_neg Bool.false_ne_true]
    split
    · rfl
    · exact hnone
  · rfl

/-- Paths with the same parts have the same names and start from the same directory. -/
theorem names_eq_of_same {p q : Path} (h : p.same q = true) :
    p.names = q.names ∧ p.isAbsolute = q.isAbsolute := by
  have hparts : p.parts = q.parts := eq_of_beq h
  constructor
  · rw [← filterMap_piece?_parts, hparts, filterMap_piece?_parts]
  · rw [← head?_parts, hparts, head?_parts]

end FirmwareIds.Path

namespace FirmwareIds.FileTree

open FirmwareIds.Path

/-- The name of the temporary file for a path. -/
def temporaryName (mark : Text) (p : Path) : Text :=
  '.' :: p.fileName?.getD [] ++ '.' :: mark ++ ".tmp".toList

theorem slash_not_mem_temporaryName {mark : Text} (hmark : '/' ∉ mark) (p : Path) :
    '/' ∉ temporaryName mark p := by
  have hn : '/' ∉ p.fileName?.getD [] := by
    cases hf : p.fileName? with
    | none => exact List.not_mem_nil
    | some n => exact (names_of_fileName? hf).elim fun _ h => h.2.2.2.2
  unfold temporaryName
  simp [hmark, hn]

/-- The temporary file for a path lies where the file at the path lies. -/
theorem temporary_eq {mark : Text} {p : Path} {n : Text} (h : p.fileName? = some n) :
    ∃ dir, p.parent? = some dir ∧ temporary mark p = dir.join ⟨temporaryName mark p⟩ := by
  obtain ⟨dir, hdir, -⟩ := names_of_fileName? h
  refine ⟨dir, hdir, ?_⟩
  show p.withFileName (temporaryName mark p) = _
  unfold withFileName
  rw [h, hdir]

/-- The last name of a path to a temporary file ends as such names do. -/
theorem getLast?_pieces_temporary {mark : Text} (hmark : '/' ∉ mark) (p : Path) :
    (temporary mark p).pieces.getLast? = some (temporaryName mark p) := by
  have hjoin : ∀ dir : Path, (dir.join ⟨temporaryName mark p⟩).pieces.getLast? =
      some (temporaryName mark p) := by
    intro dir
    rw [(dir.join_name (slash_not_mem_temporaryName hmark p) (by simp [temporaryName])).1,
      List.getLast?_concat]
  show (p.withFileName (temporaryName mark p)).pieces.getLast? = _
  unfold withFileName
  split <;> exact hjoin _

end FirmwareIds.FileTree
