import FirmwareIds.Proofs.Text.LineStarts
import Mathlib.Data.List.Basic

/-!
# Where a search hits

A search takes the first place where its pattern reads, and goes on behind what was taken there. So the
hits stand in the text one behind the other, the pattern reads at the place of each, and no place where
it reads is passed over: some hit begins there or reaches over it. That is `sweep_cut`, step by step
from the front of the text to its end.

What a hit reaches over is lost only if the pattern reads inside its own hits. Where it does not
(`Apart`), the hits are all places where it reads, and what they note is a list of what stands in the
text, in order and once for each place (`Apart.lists_notes`).
-/

namespace FirmwareIds

variable {α β : Type}

/-! ## Places -/

/-- A line starts behind the first `i` characters. -/
def StartsLine (s : Text) (i : Nat) : Prop := i = 0 ∨ ∃ j, i = j + 1 ∧ s[j]? = some '\n'

theorem freshAfter_take_iff {s : Text} {i : Nat} (hi : i ≤ s.length) :
    freshAfter true (s.take i) = true ↔ StartsLine s i := by
  cases i with
  | zero => simp [StartsLine]
  | succ j =>
    have hne : s.take (j + 1) ≠ [] := by
      rw [← List.length_pos_iff, List.length_take]
      omega
    have hlast : (s.take (j + 1)).getLast? = s[j]? := by
      rw [List.getLast?_take, if_neg (Nat.succ_ne_zero j), Nat.add_sub_cancel,
        List.getElem?_eq_getElem (Nat.lt_of_succ_le hi)]
      rfl
    rw [freshAfter_of_ne_nil hne, endsLine, hlast, beq_iff_eq]
    simp [StartsLine]

/-- The list holds what is found in a text at its places, first to last and once for each place. -/
def ListsInOrder (At : Nat → α → Prop) (l : List α) : Prop :=
  ∃ found : List (Nat × α), found.Pairwise (fun a b => a.1 < b.1) ∧
    (∀ i a, (i, a) ∈ found ↔ At i a) ∧ found.map Prod.snd = l

namespace ListsInOrder

variable {At : Nat → α → Prop} {l : List α}

theorem congr (h : ListsInOrder At l) {At' : Nat → α → Prop} (hiff : ∀ i a, At i a ↔ At' i a) :
    ListsInOrder At' l := by
  obtain ⟨found, horder, hmem, hl⟩ := h
  exact ⟨found, horder, fun i a => (hmem i a).trans (hiff i a), hl⟩

theorem filter (h : ListsInOrder At l) (keep : α → Bool) :
    ListsInOrder (fun i a => At i a ∧ keep a = true) (l.filter keep) := by
  obtain ⟨found, horder, hmem, rfl⟩ := h
  refine ⟨found.filter fun x => keep x.2, horder.filter _, fun i a => ?_, ?_⟩
  · rw [List.mem_filter, hmem]
  · rw [List.filter_map]
    rfl

/-- What is found in a part of a text, seen from the front of the whole text. -/
theorem shift (h : ListsInOrder At l) (n : Nat) :
    ListsInOrder (fun i a => n ≤ i ∧ At (i - n) a) l := by
  obtain ⟨found, horder, hmem, rfl⟩ := h
  refine ⟨found.map fun x => (n + x.1, x.2), ?_, fun i a => ?_, ?_⟩
  · rw [List.pairwise_map]
    exact horder.imp fun hlt => Nat.add_lt_add_left hlt n
  · rw [List.mem_map]
    constructor
    · rintro ⟨⟨j, b⟩, hfound, heq⟩
      cases heq
      refine ⟨Nat.le_add_right n j, ?_⟩
      rw [Nat.add_sub_cancel_left]
      exact (hmem j b).mp hfound
    · rintro ⟨hle, hat⟩
      exact ⟨(i - n, a), (hmem _ _).mpr hat, by rw [Nat.add_sub_cancel' hle]⟩
  · rw [List.map_map]
    rfl

theorem nil (h : ∀ i a, ¬ At i a) : ListsInOrder At [] :=
  ⟨[], .nil, fun i a => ⟨fun hm => absurd hm List.not_mem_nil, fun hat => absurd hat (h i a)⟩, rfl⟩

/-- What is found before a place, and what is found from there on. -/
theorem append {At' : Nat → α → Prop} {l' : List α} (h : ListsInOrder At l)
    (h' : ListsInOrder At' l') (hbefore : ∀ i a j b, At i a → At' j b → i < j) :
    ListsInOrder (fun i a => At i a ∨ At' i a) (l ++ l') := by
  obtain ⟨found, horder, hmem, rfl⟩ := h
  obtain ⟨found', horder', hmem', rfl⟩ := h'
  refine ⟨found ++ found', List.pairwise_append.mpr ⟨horder, horder', ?_⟩, fun i a => ?_, ?_⟩
  · rintro ⟨i, a⟩ ha ⟨j, b⟩ hb
    exact hbefore i a j b ((hmem i a).mp ha) ((hmem' j b).mp hb)
  · rw [List.mem_append, hmem, hmem']
  · rw [List.map_append]

/-- What is found in each of some intervals, one interval behind the other. -/
theorem flatMap {blocks : List β} {start stop : β → Nat} {f : β → List α}
    (hapart : blocks.Pairwise fun a b => stop a ≤ start b)
    (hlists : ∀ b ∈ blocks,
      ListsInOrder (fun i a => (start b ≤ i ∧ i < stop b) ∧ At i a) (f b)) :
    ListsInOrder (fun i a => (∃ b ∈ blocks, start b ≤ i ∧ i < stop b) ∧ At i a)
      (blocks.flatMap f) := by
  induction blocks with
  | nil => exact nil fun i a h => by simp at h
  | cons b blocks ih =>
    obtain ⟨hfirst, hrest⟩ := List.pairwise_cons.mp hapart
    have happend := (hlists b (List.mem_cons_self ..)).append
      (ih hrest fun b hb => hlists b (List.mem_cons_of_mem _ hb)) ?_
    · refine happend.congr fun i a => ?_
      rw [← or_and_right]
      simp only [List.mem_cons, exists_eq_or_imp]
    · rintro i a j c ⟨⟨-, hi⟩, -⟩ ⟨⟨b', hb', hj, -⟩, -⟩
      have := hfirst b' hb'
      omega

end ListsInOrder

/-! ## Hits with their places -/

/-- What a pattern took and noted at a place of a text. -/
structure Occurrence (α : Type) where
  /-- The number of characters before it. -/
  start : Nat
  /-- The characters that the pattern took. -/
  taken : Text
  /-- What the pattern noted. -/
  note : α
  deriving DecidableEq

/-- The number of characters up to the end of what was taken. -/
def Occurrence.stop (o : Occurrence α) : Nat := o.start + o.taken.length

namespace Cutting

/-- The occurrences of some hits, with `n` characters before the gap of the first. -/
def occurrencesFrom (n : Nat) : List (Hit α) → List (Occurrence α)
  | [] => []
  | h :: hs =>
    let found : Occurrence α := ⟨n + h.skipped.length, h.taken, h.note⟩
    found :: occurrencesFrom found.stop hs

/-- The hits of a cutting as occurrences in the text that was cut. -/
def occurrences (k : Cutting α) : List (Occurrence α) := occurrencesFrom 0 k.hits

theorem occurrencesFrom_skip (n : Nat) (c : Char) (k : Cutting α) :
    occurrencesFrom n (k.skip c).hits = occurrencesFrom (n + 1) k.hits := by
  obtain ⟨_ | ⟨h, hs⟩, tail⟩ := k
  · rfl
  · have hlength : n + (h.skipped.length + 1) = n + 1 + h.skipped.length := by omega
    simp only [skip, occurrencesFrom, List.length_cons, hlength]

theorem pieces_eq_map_occurrences (k : Cutting α) :
    k.pieces = k.occurrences.map Occurrence.taken := by
  unfold pieces occurrences
  generalize 0 = n
  induction k.hits generalizing n with
  | nil => rfl
  | cons h hs ih => rw [occurrencesFrom, List.map_cons, List.map_cons, ← ih]

theorem notes_eq_map_occurrences (k : Cutting α) :
    k.notes = k.occurrences.map Occurrence.note := by
  unfold notes occurrences
  generalize 0 = n
  induction k.hits generalizing n with
  | nil => rfl
  | cons h hs ih => rw [occurrencesFrom, List.map_cons, List.map_cons, ← ih]

end Cutting

namespace Pattern

variable {p : Pattern α} {anchor : Anchor} {t : Text} {n : Nat} {found : List (Occurrence α)}

theorem hit?_eq_some_iff {fresh : Bool} {s : Text} {r : Reading α} :
    p.hit? anchor fresh s = some r ↔
      (anchor = .lineStart → fresh = true) ∧ p.read s = some r ∧ r.taken ≠ [] := by
  unfold hit?
  cases anchor <;> cases fresh <;> simp [Option.filter_eq_some_iff]

theorem lt_length_of_read {i : Nat} {r : Reading α} (hread : p.read (t.drop i) = some r)
    (hne : r.taken ≠ []) : i < t.length := by
  by_contra hlong
  rw [List.drop_eq_nil_of_le (by omega)] at hread
  exact hne (List.append_eq_nil_iff.mp (p.taken_append_rest hread)).1

/-- What the pattern takes at a place of the text, if it may begin there and takes something. -/
def hitAt? (p : Pattern α) (anchor : Anchor) (t : Text) (i : Nat) : Option (Reading α) :=
  p.hit? anchor (freshAfter true (t.take i)) (t.drop i)

theorem hitAt?_eq_some_iff {i : Nat} {r : Reading α} :
    p.hitAt? anchor t i = some r ↔
      (anchor = .lineStart → StartsLine t i) ∧ p.read (t.drop i) = some r ∧ r.taken ≠ [] := by
  unfold hitAt?
  rw [hit?_eq_some_iff]
  refine and_congr_left fun ⟨hread, hne⟩ => ?_
  rw [freshAfter_take_iff (Nat.le_of_lt (lt_length_of_read hread hne))]

theorem lt_length_of_hitAt? {i : Nat} {r : Reading α} (h : p.hitAt? anchor t i = some r) :
    i < t.length := by
  obtain ⟨-, hread, hne⟩ := hitAt?_eq_some_iff.mp h
  exact lt_length_of_read hread hne

/-! ## Sweeps -/

/-- A search through the text `t` from the place `n` on finds these occurrences, one behind the other;
each is what the pattern takes at its place, and each place where the pattern takes something is
reached by one. -/
structure Sweep (p : Pattern α) (anchor : Anchor) (t : Text) (n : Nat)
    (found : List (Occurrence α)) : Prop where
  behind : ∀ o ∈ found, n ≤ o.start
  apart : found.Pairwise fun a b => a.stop ≤ b.start
  reads : ∀ o ∈ found, ∃ rest, p.hitAt? anchor t o.start = some ⟨o.note, o.taken, rest⟩
  covers : ∀ i r, n ≤ i → p.hitAt? anchor t i = some r → ∃ o ∈ found, o.start ≤ i ∧ i < o.stop

theorem Sweep.start_lt_stop (h : p.Sweep anchor t n found) {o : Occurrence α} (ho : o ∈ found) :
    o.start < o.stop := by
  obtain ⟨rest, hhit⟩ := h.reads o ho
  exact Nat.lt_add_of_pos_right (List.length_pos_iff.mpr (hitAt?_eq_some_iff.mp hhit).2.2)

theorem sweep_nil (h : t.length ≤ n) : p.Sweep anchor t n [] where
  behind := List.forall_mem_nil _
  apart := .nil
  reads := List.forall_mem_nil _
  covers i r hi hr := by
    have := lt_length_of_hitAt? hr
    omega

/-- A place where nothing is taken. -/
theorem Sweep.miss (h : p.Sweep anchor t (n + 1) found) (hmiss : p.hitAt? anchor t n = none) :
    p.Sweep anchor t n found where
  behind o ho := Nat.le_of_succ_le (h.behind o ho)
  apart := h.apart
  reads := h.reads
  covers i r hi hr := by
    have hne : n ≠ i := by
      rintro rfl
      rw [hmiss] at hr
      cases hr
    exact h.covers i r (by omega) hr

/-- A place where something is taken: the search goes on behind that. -/
theorem Sweep.hit {r : Reading α} (h : p.Sweep anchor t (n + r.taken.length) found)
    (hhit : p.hitAt? anchor t n = some r) :
    p.Sweep anchor t n (⟨n, r.taken, r.note⟩ :: found) where
  behind o ho := by
    rcases List.mem_cons.mp ho with rfl | ho
    · exact Nat.le_refl n
    · exact Nat.le_of_add_right_le (h.behind o ho)
  apart := List.pairwise_cons.mpr ⟨h.behind, h.apart⟩
  reads := List.forall_mem_cons.mpr ⟨⟨r.rest, hhit⟩, h.reads⟩
  covers i r' hi hr := by
    by_cases hinside : i < n + r.taken.length
    · exact ⟨_, List.mem_cons_self .., hi, hinside⟩
    · obtain ⟨o, ho, hreach⟩ := h.covers i r' (by omega) hr
      exact ⟨o, List.mem_cons_of_mem _ ho, hreach⟩

/-- The hits of a cutting are what a search finds, from any place of a text on. -/
theorem sweep_cutFrom (p : Pattern α) (anchor : Anchor) (x s : Text) :
    p.Sweep anchor (x ++ s) x.length
      (Cutting.occurrencesFrom x.length (p.cutFrom anchor (freshAfter true x) s).hits) := by
  -- a hit may be long, so the induction is on the length of what is left
  induction hn : s.length using Nat.strongRecOn generalizing x s with
  | ind n ih =>
    subst hn
    have hat : p.hitAt? anchor (x ++ s) x.length = p.hit? anchor (freshAfter true x) s := by
      rw [hitAt?, List.take_left, List.drop_left]
    cases s with
    | nil =>
      rw [cutFrom_nil]
      exact sweep_nil (Nat.le_of_eq (by rw [List.append_nil]))
    | cons c s =>
      cases h : p.hit? anchor (freshAfter true x) (c :: s) with
      | none =>
        have hrest := ih s.length (Nat.lt_succ_self _) (x ++ [c]) s rfl
        rw [List.append_assoc, List.length_append, freshAfter_append] at hrest
        rw [cutFrom_cons_of_miss h, Cutting.occurrencesFrom_skip]
        rw [freshAfter_cons, freshAfter_nil] at hrest
        exact hrest.miss (hat.trans h)
      | some r =>
        obtain ⟨hread, hne⟩ := read_of_hit? h
        have hs := p.taken_append_rest hread
        have hlength : r.rest.length < (c :: s).length := by
          have := List.length_pos_iff.mpr hne
          rw [← hs, List.length_append]
          omega
        have hrest := ih r.rest.length hlength (x ++ r.taken) r.rest rfl
        rw [List.append_assoc, List.length_append, freshAfter_append,
          freshAfter_of_ne_nil hne, hs] at hrest
        rw [cutFrom_cons_of_hit h]
        exact hrest.hit (hat.trans h)

/-- What a cutting finds in its text. -/
theorem sweep_cut (p : Pattern α) (anchor : Anchor) (t : Text) :
    p.Sweep anchor t 0 (p.cut anchor t).occurrences :=
  sweep_cutFrom p anchor [] t

/-- The first note is that of the first place where the pattern takes something. -/
theorem first?_eq_some_iff {a : α} :
    p.first? anchor t = some a ↔
      ∃ i r, p.hitAt? anchor t i = some r ∧ r.note = a ∧ ∀ j < i, p.hitAt? anchor t j = none := by
  have hsweep := p.sweep_cut anchor t
  have hfirst : p.first? anchor t = (p.cut anchor t).occurrences.head?.map Occurrence.note := by
    rw [first?_eq, ← List.head?_map, ← Cutting.notes_eq, Cutting.notes_eq_map_occurrences,
      List.head?_map]
  rw [hfirst]
  cases hfound : (p.cut anchor t).occurrences with
  | nil =>
    rw [hfound] at hsweep
    constructor
    · nofun
    · rintro ⟨i, r, hr, -⟩
      obtain ⟨o, ho, -⟩ := hsweep.covers i r (Nat.zero_le i) hr
      exact absurd ho List.not_mem_nil
  | cons o found =>
    rw [hfound] at hsweep
    obtain ⟨rest, hhit⟩ := hsweep.reads o (List.mem_cons_self ..)
    -- what begins before the first occurrence is in none
    have hnone : ∀ j < o.start, p.hitAt? anchor t j = none := by
      intro j hj
      rw [Option.eq_none_iff_forall_ne_some]
      intro r hr
      obtain ⟨o', ho', hle, -⟩ := hsweep.covers j r (Nat.zero_le j) hr
      rcases List.mem_cons.mp ho' with rfl | ho'
      · omega
      · have hbehind := (List.pairwise_cons.mp hsweep.apart).1 o' ho'
        unfold Occurrence.stop at hbehind
        omega
    constructor
    · intro h
      obtain rfl := Option.some.inj h
      exact ⟨o.start, _, hhit, rfl, hnone⟩
    · rintro ⟨i, r, hr, rfl, hbefore⟩
      rcases Nat.lt_trichotomy i o.start with hlt | rfl | hlt
      · rw [hnone i hlt] at hr
        cases hr
      · rw [hhit] at hr
        obtain rfl := Option.some.inj hr
        rfl
      · rw [hbefore _ hlt] at hhit
        cases hhit

/-! ## Patterns that do not read inside their hits -/

/-- Behind the front of a hit and before its end, no other hit can begin. -/
structure Apart (p : Pattern α) (anchor : Anchor) : Prop where
  stop_le : ∀ {t : Text} {i j : Nat} {r r' : Reading α}, p.hitAt? anchor t i = some r →
    p.hitAt? anchor t j = some r' → i < j → i + r.taken.length ≤ j

/-- It is enough that the pattern refuses what begins inside a hit. -/
theorem apart_of_refused
    (h : ∀ {s : Text} {r : Reading α}, p.read s = some r → ∀ x v, r.taken = x ++ v → x ≠ [] →
      v ≠ [] → (anchor = .lineStart → endsLine x = true) → p.read (v ++ r.rest) = none) :
    p.Apart anchor := by
  refine ⟨fun {t i j r r'} hr hr' hlt => ?_⟩
  obtain ⟨-, hread, -⟩ := hitAt?_eq_some_iff.mp hr
  by_contra hinside
  -- the text from the second place on is the end of the hit, and what is behind it
  have hs := p.taken_append_rest hread
  have hx : r.taken.take (j - i) ≠ [] := by
    rw [← List.length_pos_iff, List.length_take]
    omega
  have hv : r.taken.drop (j - i) ≠ [] := by
    rw [← List.length_pos_iff, List.length_drop]
    omega
  have hdrop : t.drop j = r.taken.drop (j - i) ++ r.rest := by
    rw [← List.drop_append_of_le_length (by omega), hs, List.drop_drop]
    congr 1
    omega
  have htake : t.take j = t.take i ++ r.taken.take (j - i) := by
    have hfront : (t.drop i).take (j - i) = r.taken.take (j - i) := by
      rw [← hs, List.take_append_of_le_length (by omega)]
    rw [← hfront, ← List.take_add, Nat.add_sub_cancel' (Nat.le_of_lt hlt)]
  rw [hitAt?, hit?_eq_some_iff, hdrop, htake, freshAfter_append, freshAfter_of_ne_nil hx] at hr'
  obtain ⟨hfresh, hread', -⟩ := hr'
  rw [h hread _ _ (List.take_append_drop ..).symm hx hv hfresh] at hread'
  cases hread'

/-- The hits are all places where the pattern takes something. -/
theorem Apart.mem_occurrences_iff (hp : p.Apart anchor) {i : Nat} {a : α} :
    (∃ o ∈ (p.cut anchor t).occurrences, o.start = i ∧ o.note = a) ↔
      ∃ r, p.hitAt? anchor t i = some r ∧ r.note = a := by
  have hsweep := p.sweep_cut anchor t
  constructor
  · rintro ⟨o, ho, rfl, rfl⟩
    obtain ⟨rest, hhit⟩ := hsweep.reads o ho
    exact ⟨_, hhit, rfl⟩
  · rintro ⟨r, hr, rfl⟩
    obtain ⟨o, ho, hle, hlt⟩ := hsweep.covers i r (Nat.zero_le i) hr
    obtain ⟨rest, hhit⟩ := hsweep.reads o ho
    rcases Nat.lt_or_eq_of_le hle with hinside | rfl
    · have hstop : o.stop ≤ i := hp.stop_le hhit hr hinside
      omega
    · rw [hr] at hhit
      exact ⟨o, ho, rfl, by rw [Option.some.inj hhit]⟩

/-- What is noted is what stands at the places where the pattern takes something, in order. -/
theorem Apart.lists_notes (hp : p.Apart anchor) (t : Text) :
    ListsInOrder (fun i a => ∃ r, p.hitAt? anchor t i = some r ∧ r.note = a)
      (p.cut anchor t).notes := by
  have hsweep := p.sweep_cut anchor t
  refine ⟨(p.cut anchor t).occurrences.map fun o => (o.start, o.note), ?_, fun i a => ?_, ?_⟩
  · rw [List.pairwise_map]
    exact hsweep.apart.imp_of_mem fun ha _ hle => Nat.lt_of_lt_of_le (hsweep.start_lt_stop ha) hle
  · refine Iff.trans ?_ hp.mem_occurrences_iff
    simp only [List.mem_map, Prod.mk.injEq]
  · rw [List.map_map, Cutting.notes_eq_map_occurrences]
    rfl

end Pattern

end FirmwareIds
