import FirmwareIds.Proofs.Text.LineStarts
import FirmwareIds.Proofs.Text.Reading

/-!
# Removing declarations

The hits of a declaring pattern are cut out of a text. A declaration that the pattern refuses stays
as it is, at a line start, whatever is cut out before and behind it: `mem_lineStarts_remainder`.

For the other direction the text has to be tidy: the word of a declaration stands at line starts
only. Then every declaration of what is left was one of the text (`mem_lineStarts_of_remainder`),
what is left is tidy too, and it makes no difference whether the pattern is looked for at line
starts or at all places (`cutFrom_anywhere`).
-/

namespace FirmwareIds

open Pattern

variable {α : Type}

/-! ## The first line -/

theorem mem_firstLine {s : Text} {c : Char} (h : c ∈ firstLine s) : c ∈ s := by
  induction s with
  | nil => cases h
  | cons d s ih =>
    rw [firstLine] at h
    split at h
    · next hd => rw [List.mem_singleton.mp h, hd]; exact List.mem_cons_self ..
    · rcases List.mem_cons.mp h with rfl | h
      · exact List.mem_cons_self ..
      · exact List.mem_cons_of_mem _ (ih h)

theorem head?_firstLine (s : Text) : (firstLine s).head? = s.head? := by
  cases s with
  | nil => rfl
  | cons c s =>
    rw [firstLine]
    split
    · next hc => rw [hc]; rfl
    · rfl

/-- Whether a word without line feed stands at the front of a text is seen from its first line. -/
theorem prefix_firstLine_iff {w s : Text} (hw : '\n' ∉ w) : w <+: firstLine s ↔ w <+: s := by
  induction s generalizing w with
  | nil => rfl
  | cons c s ih =>
    cases w with
    | nil => simp
    | cons d w =>
      have hd : d ≠ '\n' := fun e => hw (e ▸ List.mem_cons_self ..)
      rw [firstLine]
      split
      · next hc =>
        rw [List.cons_prefix_cons, List.cons_prefix_cons, hc]
        exact ⟨fun h => absurd h.1 hd, fun h => absurd h.1 hd⟩
      · rw [List.cons_prefix_cons, List.cons_prefix_cons,
          ih fun hm => hw (List.mem_cons_of_mem _ hm)]

namespace Pattern

variable {p : Pattern α}

theorem remainder_of_miss {anchor : Anchor} {fresh : Bool} {c : Char} {s : Text}
    (h : p.hit? anchor fresh (c :: s) = none) :
    (p.cutFrom anchor fresh (c :: s)).remainder =
      c :: (p.cutFrom anchor (c == '\n') s).remainder := by
  rw [cutFrom_cons_of_miss h, Cutting.remainder_skip]

theorem remainder_of_hit {anchor : Anchor} {fresh : Bool} {s : Text} {r : Reading α}
    (h : p.hit? anchor fresh s = some r) :
    (p.cutFrom anchor fresh s).remainder =
      (p.cutFrom anchor (endsLine r.taken) r.rest).remainder := by
  rw [cutFrom_of_hit h]
  rfl

/-- A word is hit where it stands and may begin. -/
theorem hit?_word_append {w : Text} (hw : w ≠ []) (anchor : Anchor) {fresh : Bool}
    (hfresh : anchor = .lineStart → fresh = true) (z : Text) :
    (word w).hit? anchor fresh (w ++ z) = some ⟨(), w, z⟩ := by
  have hbegins : ¬ (anchor = .lineStart && !fresh) = true := by
    simpa using hfresh
  unfold hit?
  rw [if_neg hbegins, read_word_append]
  exact Option.filter_eq_some_iff.mpr ⟨rfl, by simpa using hw⟩

/-- Before the first line feed no line starts, so nothing is cut out there. -/
theorem firstLine_remainder (p : Pattern α) (s : Text) :
    firstLine (p.cutFrom .lineStart false s).remainder = firstLine s := by
  induction s with
  | nil => rw [cutFrom_nil]; rfl
  | cons c s ih =>
    rw [remainder_of_miss (hit?_lineStart_false _), firstLine, firstLine]
    split
    · rfl
    · next hc => rw [beq_eq_false_iff_ne.mpr hc, ih]

theorem prefix_remainder_iff {w s : Text} (hw : '\n' ∉ w) :
    w <+: (p.cutFrom .lineStart false s).remainder ↔ w <+: s := by
  rw [← prefix_firstLine_iff hw, firstLine_remainder, prefix_firstLine_iff hw]

/-! ## What stays -/

/-- What stands before a declaration is cut without regard to it. -/
theorem Declares.remainder_append (hp : p.Declares) {fresh : Bool} {x : Text} {w : Text}
    (hx : freshAfter fresh x = true) (hw : declarationWord <+: w) :
    ∃ k, freshAfter fresh k = true ∧
      (p.cutFrom .lineStart fresh (x ++ w)).remainder =
        k ++ (p.cutFrom .lineStart true w).remainder := by
  generalize hs : x ++ w = s
  induction fresh, s using hp.induction generalizing x with
  | nil fresh =>
    rw [(List.append_eq_nil_iff.mp hs).2] at hw
    exact absurd (List.prefix_nil.mp hw) (by decide)
  | miss fresh c s h ih =>
    cases x with
    | nil =>
      cases (show fresh = true from hx)
      cases (show w = c :: s from hs)
      exact ⟨[], rfl, rfl⟩
    | cons d x =>
      obtain ⟨rfl, htail⟩ := List.cons.inj hs
      rw [freshAfter_cons] at hx
      obtain ⟨k, hk, hrest⟩ := ih hx htail
      refine ⟨d :: k, ?_, ?_⟩
      · rw [freshAfter_cons]; exact hk
      · rw [remainder_of_miss h, hrest, List.cons_append]
  | hit r s hread h ih =>
    cases x with
    | nil =>
      cases (show w = s from hs)
      exact ⟨[], rfl, rfl⟩
    | cons d x =>
      have hends : endsLine (d :: x) = true := hx
      rw [← hs] at hread
      obtain ⟨y, hy⟩ := hp.taken_of_append hends hw hread
      have hrest : y ++ w = r.rest := by
        have := p.taken_append_rest hread
        rw [← hy, List.append_assoc] at this
        exact (List.append_cancel_left this).symm
      have hne : r.taken ≠ [] := (read_of_hit? h).2
      have hfresh : freshAfter (endsLine r.taken) y = true := by
        rw [← freshAfter_of_ne_nil hne true, ← freshAfter_append, hy]
        exact hx
      obtain ⟨k, hk, hrem⟩ := ih hfresh hrest
      refine ⟨k, freshAfter_of_imp (fun _ => rfl) hk, ?_⟩
      rw [remainder_of_hit h, hrem]

/-- What the pattern refuses stays up to the end of its quiet part. -/
theorem Declares.remainder_of_refused (hp : p.Declares) {t z : Text}
    (hread : p.read (declarationWord ++ t ++ z) = none) (ht : Quiet false t) :
    ∃ y, (p.cutFrom .lineStart true (declarationWord ++ t ++ z)).remainder =
      declarationWord ++ t ++ y := by
  have hquiet : Quiet false ("string".toList ++ t) := by
    refine quiet_append (quiet_of_not_mem (by decide)) ?_
    rw [freshAfter_of_not_mem (by decide)]
    exact ht
  have hmiss : p.hit? .lineStart true ('#' :: ("string".toList ++ t ++ z)) = none := by
    rw [hp.hit?_eq]
    exact hread
  show ∃ y, (p.cutFrom .lineStart true ('#' :: ("string".toList ++ t ++ z))).remainder = _
  rw [remainder_of_miss hmiss, show ('#' == '\n') = false from rfl,
    hp.cutFrom_append_of_quiet hquiet, Cutting.remainder_foldr_skip]
  exact ⟨_, rfl⟩

theorem Declares.firstLine_remainder_of_refused (hp : p.Declares) {u : Text}
    (hu : declarationWord <+: u) (hread : p.read u = none) :
    firstLine (p.cutFrom .lineStart true u).remainder = firstLine u := by
  obtain ⟨y, rfl⟩ := hu
  have hmiss : p.hit? .lineStart true ('#' :: ("string".toList ++ y)) = none := by
    rw [hp.hit?_eq]
    exact hread
  show firstLine (p.cutFrom .lineStart true ('#' :: ("string".toList ++ y))).remainder = _
  rw [remainder_of_miss hmiss, firstLine, if_neg (by decide), show ('#' == '\n') = false from rfl,
    firstLine_remainder]
  rfl

/-- A declaration that the pattern refuses stays, and it stays at a line start. -/
theorem Declares.mem_lineStarts_remainder (hp : p.Declares) {s t z : Text}
    (hmem : declarationWord ++ t ++ z ∈ lineStarts true s) (ht : Quiet false t)
    (hread : p.read (declarationWord ++ t ++ z) = none) :
    ∃ y, declarationWord ++ t ++ y ∈ lineStarts true (p.cut .lineStart s).remainder := by
  obtain ⟨-, x, rfl, hx⟩ := mem_lineStarts_iff.mp hmem
  have hw : declarationWord <+: declarationWord ++ t ++ z := by
    rw [List.append_assoc]
    exact List.prefix_append ..
  obtain ⟨k, hk, hrem⟩ := hp.remainder_append hx hw
  obtain ⟨y, hy⟩ := hp.remainder_of_refused hread ht
  refine ⟨y, mem_lineStarts_iff.mpr ⟨?_, k, ?_, hk⟩⟩
  · rw [List.append_assoc]
    exact List.cons_ne_nil '#' _
  · rw [cut, hrem, hy]

end Pattern

/-! ## Tidy texts -/

/-- The word of a declaration stands at line starts only; a line starts at the front of the text
if `fresh` holds. -/
def Tidy : (fresh : Bool) → Text → Prop
  | _, [] => True
  | fresh, c :: s => (declarationWord <+: c :: s → fresh = true) ∧ Tidy (c == '\n') s

instance decidableTidy : (fresh : Bool) → (s : Text) → Decidable (Tidy fresh s)
  | _, [] => .isTrue trivial
  | fresh, c :: s =>
    have := decidableTidy (c == '\n') s
    inferInstanceAs (Decidable ((declarationWord <+: c :: s → fresh = true) ∧ Tidy (c == '\n') s))

theorem Tidy.fresh {fresh : Bool} {s : Text} (h : Tidy fresh s) (hs : declarationWord <+: s) :
    fresh = true := by
  cases s with
  | nil => exact absurd (List.prefix_nil.mp hs) (by decide)
  | cons c s => exact h.1 hs

theorem Tidy.of_append {fresh : Bool} {s t : Text} (h : Tidy fresh (s ++ t)) :
    Tidy (freshAfter fresh s) t := by
  induction s generalizing fresh with
  | nil => exact h
  | cons c s ih =>
    rw [freshAfter_cons]
    exact ih h.2

theorem Tidy.of_tidy {fresh : Bool} {s : Text} (h : Tidy fresh s) : Tidy true s := by
  cases s with
  | nil => trivial
  | cons c s => exact ⟨fun _ => rfl, h.2⟩

namespace Pattern

variable {p : Pattern α}

theorem Tidy.rest {s : Text} {r : Reading α} (h : Tidy true s) (hread : p.read s = some r)
    (hne : r.taken ≠ []) : Tidy (endsLine r.taken) r.rest := by
  rw [← freshAfter_of_ne_nil hne true]
  apply Tidy.of_append
  rw [p.taken_append_rest hread]
  exact h

theorem newline_not_mem_declarationWord : '\n' ∉ declarationWord := by decide

/-- The word of a declaration that is in what is left was there before, since nothing is cut out of a
line. -/
theorem declarationWord_of_remainder {c : Char} {s : Text}
    (h : declarationWord <+: c :: (p.cutFrom .lineStart (c == '\n') s).remainder) :
    declarationWord <+: c :: s := by
  obtain ⟨y, hy⟩ := h
  obtain ⟨rfl, htail⟩ := List.cons.inj hy
  have hword : "string".toList <+: (p.cutFrom .lineStart false s).remainder := ⟨y, htail⟩
  rw [prefix_remainder_iff (by decide)] at hword
  exact List.cons_prefix_cons.mpr ⟨rfl, hword⟩

/-- What is left of a tidy text is tidy. -/
theorem Declares.tidy_remainder (hp : p.Declares) {fresh : Bool} {s : Text} (h : Tidy fresh s) :
    Tidy fresh (p.cutFrom .lineStart fresh s).remainder := by
  induction fresh, s using hp.induction with
  | nil fresh => rw [cutFrom_nil]; exact h
  | miss fresh c s hmiss ih =>
    rw [remainder_of_miss hmiss]
    exact ⟨fun hword => h.fresh (declarationWord_of_remainder hword), ih h.2⟩
  | hit r s hread hhit ih =>
    rw [remainder_of_hit hhit]
    exact (ih (Tidy.rest h hread (read_of_hit? hhit).2)).of_tidy

/-- In a tidy text it makes no difference where a declaration is looked for. -/
theorem Declares.cutFrom_anywhere (hp : p.Declares) {fresh : Bool} {s : Text} (h : Tidy fresh s) :
    p.cutFrom .anywhere fresh s = p.cutFrom .lineStart fresh s := by
  have hany : ∀ fresh s, p.hit? .anywhere fresh s = p.hit? .lineStart true s := fun _ _ => rfl
  induction fresh, s using hp.induction with
  | nil fresh => rw [cutFrom_nil, cutFrom_nil]
  | miss fresh c s hmiss ih =>
    have hmiss' : p.hit? .anywhere fresh (c :: s) = none := by
      rw [hany, hp.hit?_eq]
      cases fresh with
      | true => rwa [hp.hit?_eq] at hmiss
      | false =>
        rw [Option.eq_none_iff_forall_ne_some]
        intro r hr
        cases h.fresh (hp.prefix_of_read hr)
    rw [cutFrom_cons_of_miss hmiss, cutFrom_cons_of_miss hmiss', ih h.2]
  | hit r s hread hhit ih =>
    obtain ⟨t, ht, -⟩ := hp.quiet_of_hit hread
    have hs : s = '#' :: (t ++ r.rest) := by
      rw [← p.taken_append_rest hread, ht, List.cons_append]
    have hrest := ih (Tidy.rest h hread (read_of_hit? hhit).2)
    rw [hs] at hhit ⊢
    rw [cutFrom_cons_of_hit hhit, cutFrom_cons_of_hit ((hany _ _).trans hhit), hrest]

/-- What is left behind a hit on its line does not begin like a declaration, so every declaration of it
begins a line of its own. -/
theorem Tidy.mem_lineStarts_remainder {fresh : Bool} {s u : Text} (h : Tidy fresh s)
    (hu : u ∈ lineStarts true (p.cutFrom .lineStart fresh s).remainder)
    (hword : declarationWord <+: u) :
    u ∈ lineStarts fresh (p.cutFrom .lineStart fresh s).remainder := by
  cases fresh with
  | true => exact hu
  | false =>
    cases hk : (p.cutFrom .lineStart false s).remainder with
    | nil =>
      rw [hk, lineStarts_nil] at hu
      cases hu
    | cons c k =>
      rw [hk, lineStarts_cons, List.mem_append] at hu
      rcases hu with hu | hu
      · rw [if_pos rfl, List.mem_singleton] at hu
        rw [hu, ← hk, prefix_remainder_iff newline_not_mem_declarationWord] at hword
        cases h.fresh hword
      · rw [lineStarts_cons]
        exact List.mem_append_right _ hu

/-- Every declaration of what is left was one of the text, and the pattern refused it. -/
theorem Declares.mem_lineStarts_of_remainder (hp : p.Declares) {fresh : Bool} {s u : Text}
    (h : Tidy fresh s) (hu : u ∈ lineStarts fresh (p.cutFrom .lineStart fresh s).remainder)
    (hword : declarationWord <+: u) :
    ∃ v ∈ lineStarts fresh s, declarationWord <+: v ∧ p.read v = none ∧
      u = (p.cutFrom .lineStart true v).remainder := by
  induction fresh, s using hp.induction with
  | nil fresh =>
    rw [cutFrom_nil] at hu
    cases fresh <;> cases hu
  | miss fresh c s hmiss ih =>
    rw [remainder_of_miss hmiss, lineStarts_cons, List.mem_append] at hu
    rcases hu with hu | hu
    · cases fresh with
      | false => cases hu
      | true =>
        rw [if_pos rfl, List.mem_singleton] at hu
        subst hu
        refine ⟨c :: s, ?_, declarationWord_of_remainder hword, ?_, ?_⟩
        · rw [lineStarts_cons]
          exact List.mem_append_left _ (List.mem_singleton.mpr rfl)
        · rwa [hp.hit?_eq] at hmiss
        · rw [remainder_of_miss hmiss]
    · obtain ⟨v, hv, hvs⟩ := ih h.2 hu
      exact ⟨v, by rw [lineStarts_cons]; exact List.mem_append_right _ hv, hvs⟩
  | hit r s hread hhit ih =>
    have hne := (read_of_hit? hhit).2
    have hrest := Tidy.rest h hread hne
    have hstarts : ∀ v ∈ lineStarts (endsLine r.taken) r.rest, v ∈ lineStarts true s := by
      intro v hv
      rw [← p.taken_append_rest hread, lineStarts_append, freshAfter_of_ne_nil hne]
      exact List.mem_append_right _ hv
    rw [remainder_of_hit hhit] at hu
    obtain ⟨v, hv, hvs⟩ := ih hrest (Tidy.mem_lineStarts_remainder hrest hu hword)
    exact ⟨v, hstarts v hv, hvs⟩

end Pattern

end FirmwareIds
