import FirmwareIds.Proofs.Text.LineStarts
import FirmwareIds.Proofs.Text.Reading

/-!
# Text that a pattern takes no notice of

What stands behind a text can change how a pattern reads the text: a run goes on, a search finds its
end. A text is `Inert` for a pattern if it does neither, whatever it stands behind. A search through
text stays blind to it (`Inert.through`), a pattern whose end is blind is blind (`Inert.bind`), and
a cutting along such a pattern has the same hits with the text and without it (`Inert.hits_cut`).
-/

namespace FirmwareIds.Pattern

variable {α β : Type} {p : Pattern α} {z : Text}

/-- The pattern reads nothing that begins in the text `z`, and reads before `z` what it reads at the
end of a text. -/
structure Inert (p : Pattern α) (z : Text) : Prop where
  before : ∀ s, p.read (s ++ z) = (p.read s).map fun r => ⟨r.note, r.taken, r.rest ++ z⟩
  inside : ∀ u, u <:+ z → p.read u = none

/-! ## Searches -/

theorem nearest_eq_none {s : Text} (h : ∀ u, u <:+ s → p.read u = none) (skipped : List Char) :
    nearest p skipped s = none := by
  induction s generalizing skipped with
  | nil =>
    unfold nearest
    rw [h [] (List.suffix_refl _)]
  | cons c s ih =>
    unfold nearest
    rw [h (c :: s) (List.suffix_refl _)]
    exact ih (fun u hu => h u (hu.trans (List.suffix_cons c s))) _

theorem Inert.nearest_append (h : Inert p z) (skipped : List Char) (s : Text) :
    nearest p skipped (s ++ z) =
      (nearest p skipped s).map fun r => ⟨r.note, r.taken, r.rest ++ z⟩ := by
  induction s generalizing skipped with
  | nil =>
    rw [List.nil_append, nearest_eq_none h.inside, nearest_eq_none fun u hu => ?_]
    · rfl
    · exact h.inside u (hu.trans (List.nil_suffix))
  | cons c s ih =>
    have hread := h.before (c :: s)
    rw [List.cons_append] at hread ⊢
    unfold nearest
    rw [hread]
    cases p.read (c :: s) with
    | some r => rfl
    | none => exact ih (c :: skipped)

theorem Inert.through (h : Inert p z) : Inert (through p) z where
  before s := h.nearest_append [] s
  inside _ hu := nearest_eq_none (fun v hv => h.inside v (hv.trans hu)) []

/-- Behind a pattern that stops by itself, the rest decides. -/
theorem Inert.bind {f : α → Pattern β} (hp : p.Closed) (hf : ∀ a, Inert (f a) z) :
    Inert (p >>= f) z := by
  have hinside : ∀ u, u <:+ z → (p >>= f).read u = none := by
    intro u hu
    refine Option.eq_none_iff_forall_ne_some.mpr fun r h => ?_
    obtain ⟨r₁, y, h₁, h₂, -⟩ := read_bind_inv h
    have hrest : r₁.rest <:+ u := ⟨r₁.taken, p.taken_append_rest h₁⟩
    rw [(hf _).inside _ (hrest.trans hu)] at h₂
    cases h₂
  refine ⟨fun s => ?_, hinside⟩
  cases hs : (p >>= f).read s with
  | some r =>
    obtain ⟨r₁, y, h₁, h₂, hr⟩ := read_bind_inv hs
    have hrest := (hf r₁.note).before r₁.rest
    rw [h₂] at hrest
    rw [read_bind_of (hp.read_append h₁ z) hrest]
    exact congrArg (fun t => some (Reading.mk r.note t (r.rest ++ z))) hr.symm
  | none =>
    refine Option.eq_none_iff_forall_ne_some.mpr fun r h => ?_
    obtain ⟨r₁, y, h₁, h₂, -⟩ := read_bind_inv h
    have hall := p.taken_append_rest h₁
    rcases List.append_eq_append_iff.mp hall with ⟨more, hs', hrest⟩ | ⟨more, -, hz⟩
    · -- the first pattern ends before `z`, so it reads the same without it
      obtain ⟨end', hread⟩ := hp.read_of_append h₁ ⟨more, hs'.symm⟩
      have hmore : end' = more := by
        have := p.taken_append_rest hread
        rw [hs'] at this
        exact List.append_cancel_left this
      rw [hrest, (hf _).before more] at h₂
      obtain ⟨r₂, h₂, -⟩ := Option.map_eq_some_iff.mp h₂
      rw [read_bind_of hread (hmore ▸ h₂)] at hs
      cases hs
    · rw [(hf _).inside _ ⟨more, hz.symm⟩] at h₂
      cases h₂

/-! ## Cuttings -/

theorem firstFrom_eq_none {anchor : Anchor} {s : Text} (h : ∀ u, u <:+ s → p.read u = none)
    (fresh : Bool) (skipped : List Char) : p.firstFrom anchor fresh skipped s = none := by
  induction s generalizing fresh skipped with
  | nil => rfl
  | cons c s ih =>
    have hmiss : p.hit? anchor fresh (c :: s) = none := by
      unfold hit?
      rw [h (c :: s) (List.suffix_refl _)]
      exact ite_self _
    rw [firstFrom_cons, hmiss]
    exact ih (fun u hu => h u (hu.trans (List.suffix_cons c s))) _ _

theorem Inert.firstFrom_append (h : Inert p z) (anchor : Anchor) (fresh : Bool)
    (skipped : List Char) (s : Text) : p.firstFrom anchor fresh skipped (s ++ z) =
      (p.firstFrom anchor fresh skipped s).map fun x => (x.1, x.2 ++ z) := by
  induction s generalizing fresh skipped with
  | nil => exact firstFrom_eq_none h.inside fresh skipped
  | cons c s ih =>
    have hhit : p.hit? anchor fresh (c :: (s ++ z)) = (p.hit? anchor fresh (c :: s)).map
        fun r => ⟨r.note, r.taken, r.rest ++ z⟩ := by
      unfold hit?
      rw [← List.cons_append, h.before (c :: s)]
      split
      · rfl
      · cases p.read (c :: s) with
        | none => rfl
        | some r =>
          simp only [Option.map_some, Option.filter_some]
          split <;> rfl
    rw [List.cons_append, firstFrom_cons, firstFrom_cons, hhit]
    cases p.hit? anchor fresh (c :: s) with
    | some r => rfl
    | none => exact ih _ _

theorem Inert.hits_cutFrom (h : Inert p z) (anchor : Anchor) (fresh : Bool) (s : Text) :
    (p.cutFrom anchor fresh (s ++ z)).hits = (p.cutFrom anchor fresh s).hits := by
  fun_induction cutFrom p anchor fresh s with
  | case1 fresh s hnone => rw [cutFrom_eq, h.firstFrom_append, hnone]; rfl
  | case2 fresh s hit rest hfirst hlt more ih =>
    rw [cutFrom_eq, h.firstFrom_append, hfirst]
    exact congrArg (hit :: ·) ih

/-- What is taken no notice of adds no hit and changes none. -/
theorem Inert.hits_cut (h : Inert p z) (anchor : Anchor) (s : Text) :
    (p.cut anchor (s ++ z)).hits = (p.cut anchor s).hits :=
  h.hits_cutFrom anchor true s

end FirmwareIds.Pattern
