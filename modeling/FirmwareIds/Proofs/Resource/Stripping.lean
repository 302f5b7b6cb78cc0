import FirmwareIds.Proofs.Resource.Blocks
import FirmwareIds.Session.Strip

/-!
# What stripping leaves of a resource file

A resource file is stripped in two passes: its definition lines are cut out, and then the blocks
with a foreign language, which are looked for in the text that the first pass has left. A block
whose languages all stay should come through both passes. `home_block_stays_iff` says when it does.

The first pass leaves the block as it is, but not what follows it. Where a definition line stood
between the block and variants of the same string, the block goes on with these variants now; and
if one of them is foreign, the block is removed with it. So the block stays if no foreign block
that the second pass finds begins with it. `foreign_variant_takes_home_block` is a file where one
does.
-/

namespace FirmwareIds

open Pattern Resource

/-- The text of a resource file between the two passes. -/
def OpenFile.kept (f : OpenFile) : Text := (Definition.takeLines f.content.text).2

/-- The text of a resource file behind both passes. -/
def OpenFile.stripped (f : OpenFile) : Text := f.strip.file.content.text

theorem OpenFile.stripped_eq (f : OpenFile) : f.stripped = (stripForeign f.kept).2 := rfl

namespace Resource

/-- A block that should stay: it has variants, all of them in languages that stay, and no line of
it is a definition line. -/
structure IsHome (b : Text) : Prop where
  tags_ne_nil : tags b ≠ []
  home : ∀ tag ∈ tags b, tag ∈ homeLanguages
  noLine : (definitionLine.cut .lineStart b).hits = []

instance (b : Text) : Decidable (IsHome b) :=
  decidable_of_iff (tags b ≠ [] ∧ (∀ tag ∈ tags b, tag ∈ homeLanguages) ∧
      (definitionLine.cut .lineStart b).hits.isEmpty = true)
    ⟨fun h => ⟨h.1, h.2.1, List.isEmpty_iff.mp h.2.2⟩,
      fun h => ⟨h.1, h.2, List.isEmpty_iff.mpr h.3⟩⟩

/-- A text is a block that some text holds. -/
def IsBlock (b : Text) : Prop := ∃ s r, block.read s = some r ∧ r.taken = b

theorem IsBlock.eq {b : Text} (h : IsBlock b) : ∃ t, b = declarationWord ++ t ∧ Quiet false t := by
  obtain ⟨s, r, hr, rfl⟩ := h
  exact declares_block.opens hr

/-- The characters of a block are a declaring pattern. -/
theorem IsBlock.declares {b : Text} (h : IsBlock b) : (word b).Declares where
  opens := by
    intro s r hr
    obtain ⟨-, he⟩ := read_word_inv hr
    rw [he]
    exact h.eq

theorem IsBlock.removeAll_eq {b s : Text} (h : IsBlock b) (hs : Tidy true s) :
    removeAll b s = ((word b).cut .lineStart s).remainder := by
  unfold removeAll cut
  rw [h.declares.cutFrom_anywhere hs]

theorem isBlock_of_mem_foreignBlocks {s g : Text} (h : g ∈ foreignBlocks s) :
    IsBlock g ∧ ∃ tag ∈ tags g, tag ∉ homeLanguages := by
  obtain ⟨hpiece, hforeign⟩ := List.mem_filter.mp h
  rw [declares_block.pieces_cut] at hpiece
  obtain ⟨u, -, hu⟩ := List.mem_filterMap.mp hpiece
  obtain ⟨r, hr, hg⟩ := Option.map_eq_some_iff.mp hu
  refine ⟨⟨u, r, hr, hg⟩, ?_⟩
  cases hf : foreignTags g with
  | nil => rw [hf] at hforeign; cases hforeign
  | cons tag rest =>
    have hmem : tag ∈ foreignTags g := by rw [hf]; exact List.mem_cons_self ..
    obtain ⟨htag, hhome⟩ := List.mem_filter.mp hmem
    exact ⟨tag, htag, by simpa using hhome⟩

/-- A foreign block is not the front of a block that should stay. -/
theorem not_prefix_of_home {g b : Text} (hg : IsBlock g) (hb : IsBlock b)
    (hforeign : ∃ tag ∈ tags g, tag ∉ homeLanguages) (hhome : ∀ tag ∈ tags b, tag ∈ homeLanguages) :
    ¬ g <+: b := by
  obtain ⟨s, r, hr, rfl⟩ := hg
  obtain ⟨t, q, hq, rfl⟩ := hb
  obtain ⟨tag, htag, hout⟩ := hforeign
  intro hp
  have hne : tags r.taken ≠ [] := List.ne_nil_of_mem htag
  obtain ⟨-, htags⟩ := block_of_front hr hq hp hne
  exact hout (hhome tag (htags.subset htag))

/-! ## A block that stays -/

/-- A block stays where another one is removed, unless one of them is the front of the other. -/
theorem mem_lineStarts_removeAll {g b y s : Text} (hg : IsBlock g) (hb : IsBlock b)
    (hs : Tidy true s) (hmem : b ++ y ∈ lineStarts true s) (hgb : ¬ g <+: b) (hbg : ¬ b <+: g) :
    ∃ z, b ++ z ∈ lineStarts true (removeAll g s) := by
  obtain ⟨t, rfl, ht⟩ := hb.eq
  rw [hg.removeAll_eq hs]
  refine hg.declares.mem_lineStarts_remainder hmem ht ?_
  rw [Option.eq_none_iff_forall_ne_some]
  intro r hr
  obtain ⟨he, -⟩ := read_word_inv hr
  rcases List.append_eq_append_iff.mp he with ⟨w, hw, -⟩ | ⟨w, hw, -⟩
  · exact hbg ⟨w, hw.symm⟩
  · exact hgb ⟨w, hw.symm⟩

theorem tidy_removeAll {g s : Text} (hg : IsBlock g) (hs : Tidy true s) :
    Tidy true (removeAll g s) := by
  rw [hg.removeAll_eq hs]
  exact hg.declares.tidy_remainder hs

/-- What one removal of a block preserves, the removal of several blocks preserves. -/
theorem foldl_removeAll (P : Text → Prop) (gs : List Text)
    (hstep : ∀ g ∈ gs, ∀ s, P s → P (removeAll g s)) {s : Text} (hs : P s) :
    P (gs.foldl (fun left g => removeAll g left) s) := by
  induction gs generalizing s with
  | nil => exact hs
  | cons g gs ih =>
    exact ih (fun g' hg' => hstep g' (List.mem_cons_of_mem _ hg'))
      (hstep g (List.mem_cons_self ..) s hs)

theorem mem_lineStarts_stripForeign {s b y : Text} (hs : Tidy true s) (hb : IsBlock b)
    (hhome : ∀ tag ∈ tags b, tag ∈ homeLanguages) (hmem : b ++ y ∈ lineStarts true s)
    (hfront : ∀ g ∈ foreignBlocks s, ¬ b <+: g) :
    ∃ z, b ++ z ∈ lineStarts true (stripForeign s).2 := by
  have hfold := foldl_removeAll (fun left => Tidy true left ∧ ∃ z, b ++ z ∈ lineStarts true left)
    (foreignBlocks s) ?_ ⟨hs, y, hmem⟩
  · exact hfold.2
  · rintro g hg left ⟨hleft, z, hz⟩
    obtain ⟨hblock, hforeign⟩ := isBlock_of_mem_foreignBlocks hg
    exact ⟨tidy_removeAll hblock hleft, mem_lineStarts_removeAll hblock hb hleft hz
      (not_prefix_of_home hblock hb hforeign hhome) (hfront g hg)⟩

/-! ## A block that goes -/

/-- The identifier that is declared at the front of a text. -/
def declared? (s : Text) : Option Text := (block.read s).map Reading.note

theorem mem_identifiers {s identifier : Text} :
    identifier ∈ identifiers s ↔ ∃ u ∈ lineStarts true s, declared? u = some identifier := by
  rw [identifiers_eq, List.mem_filterMap]
  rfl

theorem prefix_of_declared? {s identifier : Text} (h : declared? s = some identifier) :
    declarationWord <+: s := by
  obtain ⟨r, hr, -⟩ := Option.map_eq_some_iff.mp h
  exact declares_block.prefix_of_read hr

/-- What is declared is seen from the first line. -/
theorem declared?_of_firstLine_eq {s t identifier : Text} (h : firstLine s = firstLine t)
    (hs : declared? s = some identifier) : declared? t = some identifier := by
  obtain ⟨r, hr, rfl⟩ := Option.map_eq_some_iff.mp hs
  obtain ⟨blanks, name, z, rfl, hend, hr'⟩ := read_block_inv hr
  have hfeed : '\n' ∉ declarationWord ++ (blanks.text ++ name.text) := by
    simp [blanks.not_mem (c := '\n') (by decide), name.not_mem (c := '\n') (by decide),
      newline_not_mem_declarationWord]
  have hline : firstLine (declarationWord ++ (blanks.text ++ (name.text ++ z))) =
      declarationWord ++ (blanks.text ++ name.text) ++ firstLine z := by
    rw [← firstLine_append_of_not_mem hfeed]
    simp only [List.append_assoc]
  rw [hline] at h
  obtain ⟨y, rfl⟩ := (prefix_firstLine_iff hfeed).mp ⟨_, h⟩
  rw [firstLine_append_of_not_mem hfeed] at h
  have hend' : EndsRun isWordChar y := by
    intro c hc
    rw [← head?_firstLine, ← List.append_cancel_left h, head?_firstLine] at hc
    exact hend c hc
  unfold declared?
  rw [List.append_assoc, List.append_assoc, read_block_append blanks name hend', hr']
  rfl

/-- Every declaration left by a removal was there before, and the block was not removed there. -/
theorem declared_of_removeAll {g s u identifier : Text} (hg : IsBlock g) (hs : Tidy true s)
    (hu : u ∈ lineStarts true (removeAll g s)) (hd : declared? u = some identifier) :
    ∃ v ∈ lineStarts true s, declared? v = some identifier ∧ (word g).read v = none ∧
      u = ((word g).cutFrom .lineStart true v).remainder := by
  rw [hg.removeAll_eq hs] at hu
  obtain ⟨v, hv, hword, hnone, he⟩ :=
    hg.declares.mem_lineStarts_of_remainder hs hu (prefix_of_declared? hd)
  refine ⟨v, hv, declared?_of_firstLine_eq ?_ hd, hnone, he⟩
  rw [he]
  exact hg.declares.firstLine_remainder_of_refused hword hnone

/-- All declarations of the identifier begin with the block `g`. -/
def DeclaredBy (g identifier s : Text) : Prop :=
  ∀ u ∈ lineStarts true s, declared? u = some identifier → g <+: u

theorem declaredBy_removeAll {f g identifier s : Text} (hf : IsBlock f) (hg : IsBlock g)
    (hs : Tidy true s) (h : DeclaredBy g identifier s) :
    DeclaredBy g identifier (removeAll f s) := by
  intro u hu hd
  obtain ⟨v, hv, hdv, hnone, rfl⟩ := declared_of_removeAll hf hs hu hd
  obtain ⟨z, rfl⟩ := h v hv hdv
  obtain ⟨t, rfl, ht⟩ := hg.eq
  obtain ⟨y, hy⟩ := hf.declares.remainder_of_refused hnone ht
  exact ⟨y, hy.symm⟩

/-- Where all declarations of an identifier begin with a block, its removal leaves none. -/
theorem not_mem_identifiers_removeAll {g identifier s : Text} (hg : IsBlock g) (hs : Tidy true s)
    (h : DeclaredBy g identifier s) : identifier ∉ identifiers (removeAll g s) := by
  intro hmem
  obtain ⟨u, hu, hd⟩ := mem_identifiers.mp hmem
  obtain ⟨v, hv, hdv, hnone, -⟩ := declared_of_removeAll hg hs hu hd
  obtain ⟨z, rfl⟩ := h v hv hdv
  rw [read_word_append] at hnone
  cases hnone

theorem not_mem_identifiers_stripForeign {g identifier s : Text} (hs : Tidy true s)
    (hg : g ∈ foreignBlocks s) (h : DeclaredBy g identifier s) :
    identifier ∉ identifiers (stripForeign s).2 := by
  obtain ⟨before, after, hsplit⟩ := List.append_of_mem hg
  have hblock : ∀ f ∈ foreignBlocks s, IsBlock f := fun f hf => (isBlock_of_mem_foreignBlocks hf).1
  have hgblock := hblock g hg
  show identifier ∉ identifiers ((foreignBlocks s).foldl _ s)
  rw [hsplit] at hblock ⊢
  rw [List.foldl_append, List.foldl_cons]
  -- up to the removal of the block its declarations begin with it, and then there are none
  have hbefore : Tidy true (before.foldl (fun left b => removeAll b left) s) ∧
      DeclaredBy g identifier (before.foldl (fun left b => removeAll b left) s) := by
    refine foldl_removeAll (fun left => Tidy true left ∧ DeclaredBy g identifier left) before ?_
      ⟨hs, h⟩
    intro f hf left hleft
    have hfblock := hblock f (List.mem_append_left _ hf)
    exact ⟨tidy_removeAll hfblock hleft.1,
      declaredBy_removeAll hfblock hgblock hleft.1 hleft.2⟩
  have hafter := foldl_removeAll (fun left => Tidy true left ∧ identifier ∉ identifiers left)
    after ?_
    ⟨tidy_removeAll hgblock hbefore.1,
      not_mem_identifiers_removeAll hgblock hbefore.1 hbefore.2⟩
  · exact hafter.2
  · rintro f hf left ⟨hleft, hnot⟩
    have hfblock := hblock f (List.mem_append_right _ (List.mem_cons_of_mem _ hf))
    refine ⟨tidy_removeAll hfblock hleft, fun hmem => hnot ?_⟩
    obtain ⟨u, hu, hd⟩ := mem_identifiers.mp hmem
    obtain ⟨v, hv, hdv, -, -⟩ := declared_of_removeAll hfblock hleft hu hd
    exact mem_identifiers.mpr ⟨v, hv, hdv⟩

theorem eq_of_count_filterMap {α β : Type} [BEq β] [LawfulBEq β] {f : α → Option β}
    {l : List α} {a : β} (h : (l.filterMap f).count a = 1) {u v : α} (hu : u ∈ l) (hv : v ∈ l)
    (hfu : f u = some a) (hfv : f v = some a) : u = v := by
  obtain ⟨before, after, rfl⟩ := List.append_of_mem hu
  rw [List.filterMap_append, List.filterMap_cons_some hfu, List.count_append,
    List.count_cons_self] at h
  rcases List.mem_append.mp hv with hv | hv
  · have := List.count_pos_iff.mpr (List.mem_filterMap.mpr ⟨v, hv, hfv⟩)
    omega
  · rcases List.mem_cons.mp hv with hv | hv
    · exact hv.symm
    · have := List.count_pos_iff.mpr (List.mem_filterMap.mpr ⟨v, hv, hfv⟩)
      omega

/-- An identifier that one block declares is declared by no other. -/
theorem declaredBy_of_count {s g : Text} {r : Reading Text} {identifier : Text}
    (hcount : (identifiers s).count identifier = 1) {u : Text} (hu : u ∈ lineStarts true s)
    (hr : block.read u = some r) (hg : r.taken = g) (hnote : r.note = identifier) :
    DeclaredBy g identifier s := by
  intro v hv hd
  rw [identifiers_eq] at hcount
  have hdu : (block.read u).map Reading.note = some identifier := by rw [hr, ← hnote]; rfl
  rw [eq_of_count_filterMap hcount hv hu hd hdu, ← hg]
  exact ⟨r.rest, block.taken_append_rest hr⟩

/-- A hit of a block is a block at a line start. -/
theorem read_of_mem_hits {s : Text} {h : Hit Text} (hh : h ∈ (block.cut .lineStart s).hits) :
    ∃ u r, u ∈ lineStarts true s ∧ block.read u = some r ∧ r.taken = h.taken ∧
      r.note = h.note := by
  have hmem : (h.taken, h.note) ∈ (block.cutFrom .lineStart true s).readings :=
    List.mem_map.mpr ⟨h, hh, rfl⟩
  rw [declares_block.readings_cutFrom] at hmem
  obtain ⟨u, hu, hr⟩ := List.mem_filterMap.mp hmem
  obtain ⟨r, hread, he⟩ := Option.map_eq_some_iff.mp hr
  exact ⟨u, r, hu, hread, (Prod.mk.inj he).1, (Prod.mk.inj he).2⟩

end Resource

/-- The first pass leaves a block that should stay where it is. -/
theorem OpenFile.mem_lineStarts_kept {f : OpenFile} {u : Text} {r : Reading Text}
    (hu : u ∈ lineStarts true f.content.text) (hr : block.read u = some r)
    (hhome : IsHome r.taken) : ∃ y, r.taken ++ y ∈ lineStarts true f.kept := by
  have hnone := read_definitionLine_eq_none hr hhome.noLine
  obtain ⟨t, ht, hquiet⟩ := declares_block.opens hr
  rw [← block.taken_append_rest hr, ht] at hu hnone
  rw [ht]
  exact declares_definitionLine.mem_lineStarts_remainder hu hquiet hnone

/-- A block comes through stripping: its identifier is defined, and its characters are there. -/
def OpenFile.Keeps (f : OpenFile) (h : Hit Text) : Prop :=
  h.note ∈ identifiers f.stripped ∧ h.taken <:+: f.stripped

instance (f : OpenFile) (h : Hit Text) : Decidable (f.Keeps h) :=
  inferInstanceAs (Decidable (_ ∧ _))

/-- Let the word of a declaration stand at line starts only, once the definition lines are out. A
block that should stay comes through stripping if no foreign block begins with it; and where no
other block declares its identifier, only then. -/
theorem home_block_stays_iff {f : OpenFile} {h : Hit Text}
    (hh : h ∈ (block.cut .lineStart f.content.text).hits) (hhome : IsHome h.taken)
    (htidy : Tidy true f.kept) :
    ((∀ g ∈ foreignBlocks f.kept, ¬ h.taken <+: g) → f.Keeps h) ∧
      ((identifiers f.kept).count h.note = 1 →
        (f.Keeps h ↔ ∀ g ∈ foreignBlocks f.kept, ¬ h.taken <+: g)) := by
  obtain ⟨u, r, hu, hr, htaken, hnote⟩ := read_of_mem_hits hh
  rw [← htaken] at hhome
  obtain ⟨y, hy⟩ := f.mem_lineStarts_kept hu hr hhome
  have hstays : (∀ g ∈ foreignBlocks f.kept, ¬ h.taken <+: g) → f.Keeps h := by
    intro hfront
    rw [← htaken] at hfront
    obtain ⟨z, hz⟩ :=
      mem_lineStarts_stripForeign htidy ⟨u, r, hr, rfl⟩ hhome.home hy hfront
    refine ⟨mem_identifiers.mpr ⟨_, hz, ?_⟩, ?_⟩
    · rw [← hnote]
      exact read_taken_block_append hr hhome.tags_ne_nil z
    · obtain ⟨-, x, hx, -⟩ := mem_lineStarts_iff.mp hz
      rw [← htaken, f.stripped_eq, hx]
      exact ⟨x, z, List.append_assoc ..⟩
  refine ⟨hstays, fun hcount => ⟨fun hkeeps g hg hp => ?_, hstays⟩⟩
  -- the foreign block stands for the identifier alone, so nothing of it is left
  obtain ⟨hpiece, -⟩ := List.mem_filter.mp hg
  rw [declares_block.pieces_cut] at hpiece
  obtain ⟨v, hv, hread⟩ := List.mem_filterMap.mp hpiece
  obtain ⟨q, hq, hqg⟩ := Option.map_eq_some_iff.mp hread
  have hqnote : q.note = h.note := by
    rw [← htaken, ← hqg] at hp
    rw [← hnote]
    exact (block_of_front hr hq hp hhome.tags_ne_nil).1.symm
  exact not_mem_identifiers_stripForeign htidy hg (declaredBy_of_count hcount hv hq hqg hqnote)
    hkeeps.1

/-- A file where a foreign block stands beside one that should stay. -/
def besideForeign : OpenFile where
  path := ⟨"root/a.uni".toList⟩
  content := {
    text := ("#string STR_A #language en-US \"Alpha\"\n" ++
      "#string STR_B #language en-US \"Beta\"\n" ++
      "              #language fr-FR \"Beta fr\"\n").toList }

theorem home_block_stays_beside_foreign :
    ∃ h ∈ (block.cut .lineStart besideForeign.content.text).hits,
      IsHome h.taken ∧ Tidy true besideForeign.kept ∧
        (identifiers besideForeign.kept).count h.note = 1 ∧ besideForeign.Keeps h := by
  obtain ⟨h, hh, hhome, hcount, hfront⟩ :
      ∃ h ∈ (block.cut .lineStart besideForeign.content.text).hits, IsHome h.taken ∧
        (identifiers besideForeign.kept).count h.note = 1 ∧
        ∀ g ∈ foreignBlocks besideForeign.kept, ¬ h.taken <+: g := by
    decide +kernel
  have htidy : Tidy true besideForeign.kept := by decide +kernel
  exact ⟨h, hh, hhome, htidy, hcount,
    ((home_block_stays_iff hh hhome htidy).2 hcount).mpr hfront⟩

/-- A file where a foreign variant follows the definition line of its string, and that line follows
a block that should stay. -/
def behindLine : OpenFile where
  path := ⟨"root/a.uni".toList⟩
  content := {
    text := ("#string STR_A #language en-US \"Alpha\"\n" ++
      "#string STR_A #language uqi \"x0001\"\n" ++
      "                #language fr-FR \"Alpha fr\"\n").toList }

/-- Once the definition line is out, the foreign variant belongs to the block before it, and the
block is removed. -/
theorem foreign_variant_takes_home_block :
    ∃ h ∈ (block.cut .lineStart behindLine.content.text).hits,
      IsHome h.taken ∧ behindLine.stripped = [] ∧ ¬ behindLine.Keeps h := by
  decide +kernel

end FirmwareIds
