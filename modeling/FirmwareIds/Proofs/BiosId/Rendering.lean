import FirmwareIds.Proofs.BiosId.Settings
import FirmwareIds.Proofs.Text.Lines
import Mathlib.Data.List.Nodup

/-!
# Renderings of settings

Settings can be written down in many ways: their lines may come in any order, with white space around
either separator, between empty lines and comments, and between other sections (`Renders`). What a line
is does not depend on what stands around it, so a reader is led through such a text line by line
(`Leads`): idle lines and other sections leave the pairs as they are, and the lines of the section add
their pairs one by one. So every rendering is read as the values it was made of (`parse_of_renders`).
-/

namespace FirmwareIds.BiosId

open Text

/-! ## Kinds of lines -/

/-- An empty line or a comment. -/
def IsIdle (line : Text) : Prop :=
  ∃ before : AnyOf isWhite, line = before.text ∨
    ∃ mark rest, (mark = '#' ∨ mark = ';') ∧ line = before.text ++ mark :: rest

/-- The header of the section `name`. -/
def IsHeader (name line : Text) : Prop :=
  ∃ (before after : AnyOf isWhite) (inner : Text),
    line = before.text ++ ('[' :: inner ++ [']']) ++ after.text ∧ inner.trim = name

theorem of_idle {line : Text} (h : IsIdle line) : Line.of line = .idle := by
  obtain ⟨before, rfl | ⟨mark, rest, hmark, rfl⟩⟩ := h
  · have htrim := trim_append_trimmed before (.empty isWhite) isTrimmed_nil
    rw [show (AnyOf.empty isWhite).text = [] from rfl, List.append_nil, List.append_nil] at htrim
    unfold Line.of
    rw [htrim]
  · have hwhite : isWhite mark = false := by
      rcases hmark with rfl | rfl <;> decide
    unfold Line.of
    rw [trim_append_cons before hwhite]
    rcases hmark with rfl | rfl <;> rfl

theorem of_header {name line : Text} (h : IsHeader name line) : Line.of line = .header name := by
  obtain ⟨before, after, inner, rfl, rfl⟩ := h
  have htrimmed : IsTrimmed ('[' :: inner ++ [']']) := by
    refine ⟨endsRun_cons (by decide) _, ?_⟩
    rw [List.reverse_append]
    exact endsRun_cons (by decide) _
  unfold Line.of
  rw [trim_append_trimmed before after htrimmed]
  simp [headerName?]

theorem isHeader_of_of {name line : Text} (h : Line.of line = .header name) : IsHeader name line := by
  obtain ⟨before, after, hline, -⟩ := exists_append_trim line
  unfold Line.of at h
  dsimp only at h
  split at h
  · cases h
  · cases h
  · cases h
  · split at h
    · next name' hname =>
      cases h
      unfold headerName? at hname
      split at hname
      · next rest hrest =>
        split at hname
        · next hlast =>
          obtain ⟨inner, rfl⟩ := List.getLast?_eq_some_iff.mp hlast
          rw [List.dropLast_concat] at hname
          rw [hrest] at hline
          exact ⟨before, after, inner, hline, Option.some.inj hname⟩
        · cases hname
      · cases hname
    · cases h

/-- A carriage return at its end does not change what a line is. -/
theorem of_readLine (line : Text) : Line.of (readLine line) = Line.of line := by
  unfold readLine
  split
  · next hlast =>
    obtain ⟨front, rfl⟩ := List.getLast?_eq_some_iff.mp hlast
    rw [List.dropLast_concat]
    have htrim : trim (front ++ ['\r']) = trim front := by
      obtain ⟨before, after, hfront, htrimmed⟩ := exists_append_trim front
      have hwhite : ∀ c ∈ after.text ++ ['\r'], isWhite c = true := by
        intro c hc
        rcases List.mem_append.mp hc with hc | hc
        · exact after.class_of_mem hc
        · rw [List.mem_singleton.mp hc]
          decide
      have hwhole := trim_append_trimmed before ⟨_, hwhite⟩ htrimmed
      rw [show AnyOf.text ⟨_, hwhite⟩ = after.text ++ ['\r'] from rfl, ← List.append_assoc,
        ← hfront] at hwhole
      exact hwhole
    unfold Line.of
    rw [htrim]
    cases front with
    | nil => rfl
    | cons c front => rfl
  · rfl

/-! ## Renderings -/

/-- Lines of sections with other names than `wanted`, and of nothing else. Before the first header they
are idle; behind a header any line may stand that is no header itself. -/
inductive Elsewhere (wanted : Text) : List Text → Prop
  | nil : Elsewhere wanted []
  | idle {line : Text} {lines : List Text} (hidle : IsIdle line) (hrest : Elsewhere wanted lines) :
    Elsewhere wanted (line :: lines)
  | section_ {name header : Text} {content lines : List Text} (hheader : IsHeader name header)
    (hname : name ≠ wanted) (hcontent : ∀ line ∈ content, ∀ name, ¬ IsHeader name line)
    (hrest : Elsewhere wanted lines) : Elsewhere wanted (header :: content ++ lines)

/-- A line that gives an item its value. -/
def Item.setting (item : Item) (before : AnyOf isWhite) (separator : Char) (after : AnyOf isWhite)
    (value : Text) : Text :=
  item.key ++ before.text ++ separator :: (after.text ++ value)

/-- Lines that give the items their values, with idle lines between them. -/
inductive Gives : List Text → List (Item × Text) → Prop
  | nil : Gives [] []
  | idle {line : Text} {lines : List Text} {items : List (Item × Text)} (hidle : IsIdle line)
    (hrest : Gives lines items) : Gives (line :: lines) items
  | item (item : Item) (before : AnyOf isWhite) {separator : Char}
    (hseparator : separator = '=' ∨ separator = ':') (after : AnyOf isWhite) (value : Text)
    {lines : List Text} {items : List (Item × Text)} (hrest : Gives lines items) :
    Gives (item.setting before separator after value :: lines) ((item, value) :: items)

/-- The text has one section with settings, which gives the items their values. -/
def Renders (s : Text) (items : List (Item × Text)) : Prop :=
  ∃ before header body after, s.Spells (before ++ header :: (body ++ after)) ∧
    Elsewhere Settings.sectionName before ∧ IsHeader Settings.sectionName header ∧
    Gives body items ∧ Elsewhere Settings.sectionName after

/-! ## Lines with a value -/

/-- What a value can be: it has the number of characters of its item, and no white space around it. -/
structure Item.Fits (item : Item) (value : Text) : Prop where
  width : value.length = item.width
  trimmed : value.IsTrimmed

instance (item : Item) (value : Text) : Decidable (item.Fits value) :=
  decidable_of_iff (value.length = item.width ∧ value.IsTrimmed)
    ⟨fun h => ⟨h.1, h.2⟩, fun h => ⟨h.width, h.trimmed⟩⟩

namespace Item

theorem width_pos (item : Item) : 0 < item.width := by
  cases item <;> decide

/-- A key begins like no other line. -/
theorem key_eq (item : Item) : ∃ c rest, item.key = c :: rest ∧ isBlank c = false ∧ c ≠ '#' ∧
    c ≠ ';' ∧ c ≠ '[' := by
  cases item <;> exact ⟨_, _, rfl, by decide⟩

/-- A key holds neither white space nor a separator. -/
theorem key_class (item : Item) : ∀ c ∈ item.key, isWhite c = false ∧ isSeparator c = false := by
  have hall : item.key.all (fun c => !isWhite c && !isSeparator c) = true := by
    cases item <;> decide
  intro c hc
  simpa using List.all_eq_true.mp hall c hc

theorem isTrimmed_key (item : Item) : IsTrimmed item.key := by
  constructor
  · intro c hc
    exact (item.key_class c (List.mem_of_mem_head? hc)).1
  · intro c hc
    exact (item.key_class c (List.mem_reverse.mp (List.mem_of_mem_head? hc))).1

theorem key_injective : Function.Injective key := by
  intro item item' h
  have hitem := ofKey?_eq_some_iff.mpr h
  rw [ofKey?_eq_some_iff.mpr rfl] at hitem
  exact (Option.some.inj hitem).symm

end Item

theorem of_content {c : Char} {rest : Text} (htrimmed : IsTrimmed (c :: rest))
    (hblank : isBlank c = false) (hhash : c ≠ '#') (hsemicolon : c ≠ ';') (hbracket : c ≠ '[') :
    Line.of (c :: rest) = .content false (c :: rest) := by
  unfold Line.of
  rw [htrimmed.trim_eq]
  dsimp only
  split
  · next h => cases h
  · next h => exact absurd (List.cons.inj h).1 hhash
  · next h => exact absurd (List.cons.inj h).1 hsemicolon
  · have hnone : headerName? (c :: rest) = none := by
      unfold headerName?
      split
      · next h => exact absurd (List.cons.inj h).1 hbracket
      · rfl
    rw [hnone, List.head?_cons, Option.any_some, hblank]

section

variable {item : Item} {before after : AnyOf isWhite} {separator : Char} {value : Text}

/-- A line with a value is what it looks like. -/
theorem of_setting (hvalue : item.Fits value) :
    Line.of (item.setting before separator after value) =
      .content false (item.setting before separator after value) := by
  obtain ⟨c, rest, hkey, hblank, hhash, hsemicolon, hbracket⟩ := item.key_eq
  have hc : c ∈ item.key := by
    rw [hkey]
    exact List.mem_cons_self ..
  have htrimmed : IsTrimmed (item.setting before separator after value) := by
    unfold Item.setting
    constructor
    · rw [hkey]
      exact endsRun_cons (item.key_class c hc).1 _
    · -- the last character is that of the value
      cases hreverse : value.reverse with
      | nil =>
        have hlength := hvalue.width
        rw [List.reverse_eq_nil_iff.mp hreverse] at hlength
        exact absurd hlength (Nat.ne_of_lt item.width_pos)
      | cons d behind =>
        have hd : isWhite d = false := hvalue.trimmed.back d (by rw [hreverse]; rfl)
        rw [List.reverse_append, List.reverse_cons, List.reverse_append, hreverse]
        exact endsRun_cons hd _
  unfold Item.setting at htrimmed ⊢
  rw [hkey] at htrimmed ⊢
  exact of_content htrimmed hblank hhash hsemicolon hbracket

/-- And it is divided where it was put together. -/
theorem keyValue?_setting (hseparator : separator = '=' ∨ separator = ':')
    (hvalue : item.Fits value) :
    keyValue? (item.setting before separator after value) = some (item.key, value) := by
  have hfront : ∀ d ∈ item.key ++ before.text, (!isSeparator d) = true := by
    intro d hd
    rw [Bool.not_eq_true']
    rcases List.mem_append.mp hd with hd | hd
    · exact (item.key_class d hd).2
    · have hwhite := before.class_of_mem hd
      apply Bool.eq_false_iff.mpr
      intro hd
      simp only [isSeparator, Bool.or_eq_true, beq_iff_eq] at hd
      rcases hd with rfl | rfl <;> exact absurd hwhite (by decide)
  have hends : EndsRun (!isSeparator ·) (separator :: (after.text ++ value)) := by
    apply endsRun_cons
    rcases hseparator with rfl | rfl <;> decide
  have hname := trim_append_trimmed (.empty isWhite) before item.isTrimmed_key
  have htext := trim_append_trimmed after (.empty isWhite) hvalue.trimmed
  rw [show (AnyOf.empty isWhite).text = [] from rfl] at hname htext
  rw [List.append_nil] at htext
  unfold keyValue? Item.setting
  rw [dropWhile_append_of_endsRun hfront hends, takeWhile_append_of_endsRun hfront hends]
  exact congrArg some (Prod.ext hname htext)

end

/-! ## Leading a reader through lines -/

namespace Reader

variable {wanted : Text} {r r' r'' : Reader} {raws raws' : List Text}

/-- The lines lead the reader from `r` to `r'`, whatever their numbers are. -/
def Leads (wanted : Text) (r : Reader) (raws : List Text) (r' : Reader) : Prop :=
  ∀ number, r.lines wanted number raws = .ok r'

theorem leads_nil (wanted : Text) (r : Reader) : Leads wanted r [] r := fun _ => rfl

theorem Leads.cons {raw : Text} (h : ∀ number, r.line wanted number raw = .ok r')
    (hrest : Leads wanted r' raws r'') : Leads wanted r (raw :: raws) r'' := by
  intro number
  rw [Reader.lines, h]
  exact hrest _

theorem Leads.append (h : Leads wanted r raws r') (h' : Leads wanted r' raws' r'') :
    Leads wanted r (raws ++ raws') r'' := by
  intro number
  have hlines := h number
  clear h
  induction raws generalizing r number with
  | nil =>
    cases hlines
    exact h' number
  | cons raw raws ih =>
    rw [Reader.lines] at hlines
    rw [List.cons_append, Reader.lines]
    cases hline : r.line wanted number raw with
    | error problem =>
      rw [hline] at hlines
      cases hlines
    | ok r₁ =>
      rw [hline] at hlines
      exact ih _ hlines

/-- Of a line, only what it is counts. -/
theorem lines_congr (h : raws.map Line.of = raws'.map Line.of) (number : Nat) :
    r.lines wanted number raws = r.lines wanted number raws' := by
  induction raws generalizing r raws' number with
  | nil =>
    rw [List.map_eq_nil_iff.mp h.symm]
  | cons raw raws ih =>
    obtain ⟨raw', rest, rfl, hraw, hrest⟩ := List.map_eq_cons_iff.mp h.symm
    have hline : r.line wanted number raw = r.line wanted number raw' := by
      unfold line
      rw [hraw]
    rw [Reader.lines, Reader.lines, hline]
    cases r.line wanted number raw' with
    | error problem => rfl
    | ok r₁ => exact ih hrest.symm _

theorem line_idle {raw : Text} (h : IsIdle raw) (number : Nat) :
    r.line wanted number raw = .ok r := by
  unfold line
  rw [of_idle h]

theorem line_header {name raw : Text} (h : IsHeader name raw) (number : Nat) :
    r.line wanted number raw =
      .ok { r with current := some name, found := r.found || name == wanted } := by
  unfold line
  rw [of_header h]

/-- In a section with another name, a line that is no header counts for nothing. -/
theorem line_elsewhere {name raw : Text} (hcurrent : r.current = some name) (hname : name ≠ wanted)
    (h : ∀ name, ¬ IsHeader name raw) (number : Nat) : r.line wanted number raw = .ok r := by
  unfold line
  rw [hcurrent]
  cases hof : Line.of raw with
  | idle => rfl
  | header name => exact absurd (isHeader_of_of hof) (h name)
  | content indented line => exact if_neg hname

theorem leads_elsewhere {name : Text} (hcurrent : r.current = some name) (hname : name ≠ wanted)
    (h : ∀ raw ∈ raws, ∀ name, ¬ IsHeader name raw) : Leads wanted r raws r := by
  induction raws with
  | nil => exact leads_nil wanted r
  | cons raw raws ih =>
    exact .cons (line_elsewhere hcurrent hname (h raw (List.mem_cons_self ..)))
      (ih fun raw hraw => h raw (List.mem_cons_of_mem _ hraw))

/-- Other sections change nothing but the section that the next line belongs to. -/
theorem leads_of_elsewhere (h : Elsewhere wanted raws) (r : Reader) :
    ∃ current, Leads wanted r raws { r with current := current } := by
  induction h generalizing r with
  | nil => exact ⟨r.current, leads_nil wanted r⟩
  | idle hidle _ ih =>
    obtain ⟨current, hrest⟩ := ih r
    exact ⟨current, hrest.cons (line_idle hidle)⟩
  | @section_ name header content lines hheader hname hcontent _ ih =>
    obtain ⟨current, hrest⟩ := ih { r with current := some name }
    have hopens : ∀ number, r.line wanted number header = .ok { r with current := some name } := by
      intro number
      rw [line_header hheader, beq_eq_false_iff_ne.mpr hname, Bool.or_false]
    exact ⟨current, ((leads_elsewhere rfl hname hcontent).append hrest).cons hopens⟩

/-- A line with a value adds its pair. -/
theorem line_setting {item : Item} {before after : AnyOf isWhite} {separator : Char} {value : Text}
    (hcurrent : r.current = some wanted) (hnew : item.key ∉ r.pairs.map Prod.fst)
    (hseparator : separator = '=' ∨ separator = ':') (hvalue : item.Fits value) (number : Nat) :
    r.line wanted number (item.setting before separator after value) =
      .ok { r with pairs := r.pairs ++ [(item.key, value)] } := by
  have hany : ¬ r.pairs.any (·.1 == item.key) = true := by
    intro h
    obtain ⟨pair, hpair, hkey⟩ := List.any_eq_true.mp h
    exact hnew (List.mem_map.mpr ⟨pair, hpair, eq_of_beq hkey⟩)
  have hcontent : r.content number false (item.setting before separator after value) =
      .ok { r with pairs := r.pairs ++ [(item.key, value)] } := by
    unfold content
    rw [Bool.false_and, if_neg Bool.false_ne_true, keyValue?_setting hseparator hvalue]
    exact if_neg hany
  rw [← hcontent]
  unfold line
  rw [of_setting hvalue, hcurrent]
  exact if_pos rfl

end Reader

/-- The pair that gives an item its value. -/
def pairOf (x : Item × Text) : Text × Text := (x.1.key, x.2)

/-- The lines of the section add their pairs, in order. -/
theorem Gives.leads {raws : List Text} {items : List (Item × Text)} {r : Reader}
    (h : Gives raws items) (hcurrent : r.current = some Settings.sectionName)
    (hkeys : ((r.pairs ++ items.map pairOf).map Prod.fst).Nodup)
    (hfits : ∀ x ∈ items, x.1.Fits x.2) :
    Reader.Leads Settings.sectionName r raws { r with pairs := r.pairs ++ items.map pairOf } := by
  induction h generalizing r with
  | nil =>
    rw [List.map_nil, List.append_nil]
    exact Reader.leads_nil _ r
  | idle hidle _ ih => exact (ih hcurrent hkeys hfits).cons (Reader.line_idle hidle)
  | @item item before separator hseparator after value raws items _ ih =>
    have hsplit : r.pairs ++ ((item, value) :: items).map pairOf =
        (r.pairs ++ [(item.key, value)]) ++ items.map pairOf := by
      rw [List.map_cons, List.append_assoc]
      rfl
    have hnew : item.key ∉ r.pairs.map Prod.fst := by
      rw [List.map_append, List.nodup_append] at hkeys
      intro hmem
      exact hkeys.2.2 _ hmem _ (List.mem_cons_self ..) rfl
    rw [hsplit] at hkeys ⊢
    have hrest := ih (r := { r with pairs := r.pairs ++ [(item.key, value)] }) hcurrent hkeys
      fun x hx => hfits x (List.mem_cons_of_mem _ hx)
    exact hrest.cons fun number =>
      Reader.line_setting hcurrent hnew hseparator (hfits _ (List.mem_cons_self ..)) number

/-- A rendering is read as the pairs it was made of. -/
theorem readSection_of_renders {s : Text} {items : List (Item × Text)} (h : Renders s items)
    (hkeys : ((items.map pairOf).map Prod.fst).Nodup) (hfits : ∀ x ∈ items, x.1.Fits x.2) :
    readSection Settings.sectionName s = .ok (some (items.map pairOf)) := by
  obtain ⟨before, header, body, after, hspells, hbefore, hheader, hbody, hafter⟩ := h
  obtain ⟨current, hfront⟩ := Reader.leads_of_elsewhere hbefore {}
  have hopens : ∀ number, Reader.line Settings.sectionName { current := current } number header =
      .ok { current := some Settings.sectionName, found := true } := by
    intro number
    rw [Reader.line_header hheader, beq_self_eq_true]
    rfl
  have hgiven := hbody.leads (r := { current := some Settings.sectionName, found := true }) rfl
    hkeys hfits
  obtain ⟨current', hbehind⟩ := Reader.leads_of_elsewhere hafter
    { current := some Settings.sectionName, found := true, pairs := items.map pairOf }
  have hleads := hfront.append ((hgiven.append hbehind).cons hopens)
  unfold readSection
  rw [Reader.lines_congr (hspells.map_lines of_readLine), hleads 1]
  rfl

/-! ## The settings of a rendering -/

namespace Settings

/-- What an item gets from pairs: its value if it is given, or else what it is without one. -/
theorem value_pairs {items : List (Item × Text)} (hkeys : ((items.map pairOf).map Prod.fst).Nodup)
    (item : Item) :
    (∀ v, (item, v) ∈ items → value (items.map pairOf) item = .ok v) ∧
      ∀ v, item ∉ items.map Prod.fst → item.default? = some v →
        value (items.map pairOf) item = .ok v := by
  constructor
  · intro v hmem
    have hlookup := lookup_eq_some_of_mem hkeys (List.mem_map_of_mem hmem)
    apply value_eq_ok_iff.mpr
    show ((items.map pairOf).lookup (pairOf (item, v)).1).or item.default? = some v
    rw [hlookup]
    rfl
  · intro v hnot hdefault
    have hlookup : (items.map pairOf).lookup item.key = none := by
      apply List.lookup_eq_none_iff.mpr
      intro pair hpair
      obtain ⟨x, hx, rfl⟩ := List.mem_map.mp hpair
      apply bne_iff_ne.mpr
      intro hsame
      exact hnot (List.mem_map.mpr ⟨x, hx, (Item.key_injective hsame).symm⟩)
    exact value_eq_ok_iff.mpr (by rw [hlookup, hdefault]; rfl)

/-- Where every item has a value, there are settings with these values. -/
theorem exists_get_ok {pairs : List (Text × Text)} (h : ∀ item, ∃ v, value pairs item = .ok v) :
    ∃ cfg : Settings, ∀ item, value pairs item = .ok (cfg.get item) := by
  choose v hv using h
  refine ⟨⟨v .boardId, v .boardRev, v .boardExt, v .buildType, v .versionMajor,
    v .versionMinor⟩, fun item => ?_⟩
  cases item <;> exact hv _

/-- Every rendering of settings is accepted, and each item has the value that it was given; a part of the
version that was given none is noughts. -/
theorem parse_of_renders {s : Text} {items : List (Item × Text)} (h : Renders s items)
    (hitems : (items.map Prod.fst).Nodup)
    (hneeded : ∀ item ∈ [Item.boardId, .boardRev, .boardExt, .buildType], item ∈ items.map Prod.fst)
    (hfits : ∀ x ∈ items, x.1.Fits x.2) :
    ∃ cfg, parse s = .ok cfg ∧ (∀ x ∈ items, cfg.get x.1 = x.2) ∧
      (.versionMajor ∉ items.map Prod.fst → cfg.versionMajor = "0000".toList) ∧
      (.versionMinor ∉ items.map Prod.fst → cfg.versionMinor = "00".toList) := by
  have hkeys : ((items.map pairOf).map Prod.fst).Nodup := by
    have hmap : (items.map pairOf).map Prod.fst = (items.map Prod.fst).map Item.key := by
      rw [List.map_map, List.map_map]
      rfl
    rw [hmap]
    exact hitems.map Item.key_injective
  have hvalue := value_pairs hkeys
  have hsome : ∀ item, ∃ v, value (items.map pairOf) item = .ok v := by
    intro item
    by_cases hgiven : item ∈ items.map Prod.fst
    · obtain ⟨x, hx, rfl⟩ := List.mem_map.mp hgiven
      exact ⟨x.2, (hvalue x.1).1 x.2 hx⟩
    · have hdefault : ∃ v, item.default? = some v := by
        cases item with
        | versionMajor => exact ⟨_, rfl⟩
        | versionMinor => exact ⟨_, rfl⟩
        | _ => exact absurd (hneeded _ (by decide)) hgiven
      obtain ⟨v, hv⟩ := hdefault
      exact ⟨v, (hvalue item).2 v hgiven hv⟩
  obtain ⟨cfg, hcfg⟩ := exists_get_ok hsome
  have hget : ∀ {item v}, value (items.map pairOf) item = .ok v → cfg.get item = v := by
    intro item v hv
    rw [hcfg] at hv
    exact Except.ok.inj hv
  refine ⟨cfg, parse_eq_ok_iff.mpr ⟨_, readSection_of_renders h hkeys hfits, ?_⟩, ?_, ?_, ?_⟩
  · refine ofPairs_eq_ok_iff.mpr ⟨?_, hcfg⟩
    intro pair hpair
    obtain ⟨x, hx, rfl⟩ := List.mem_map.mp hpair
    exact check_eq_ok_iff.mpr ⟨x.1, rfl, (hfits x hx).width⟩
  · intro x hx
    exact hget ((hvalue x.1).1 x.2 hx)
  · intro hnot
    exact hget ((hvalue .versionMajor).2 _ hnot rfl)
  · intro hnot
    exact hget ((hvalue .versionMinor).2 _ hnot rfl)

/-- Values that look like other lines. -/
def oddItems : List (Item × Text) :=
  [(.boardRev, "=".toList), (.boardExt, ":=:".toList), (.boardId, "[a b:c]".toList),
    (.buildType, ";".toList), (.versionMajor, "#1;]".toList)]

/-- One space. -/
def space : AnyOf isWhite := ⟨[' '], List.all_eq_true.mp (by decide)⟩

/-- Lines with these values, and between them a comment and an empty line. -/
def oddLines : List Text :=
  [Item.setting .boardRev space ':' (.empty _) "=".toList, '#' :: " BOARD_REV".toList, [],
    Item.setting .boardExt space '=' space ":=:".toList,
    Item.setting .boardId (.empty _) '=' (.empty _) "[a b:c]".toList,
    Item.setting .buildType (.empty _) ':' space ";".toList,
    Item.setting .versionMajor space '=' (.empty _) "#1;]".toList]

/-- A section with another name and with a line that would be one too many. -/
def otherSection : List Text := ['[' :: "other".toList ++ [']'], "BOARD_ID".toList]

/-- The lines between other sections, behind a comment that looks like their header. -/
def oddSettings : Text :=
  ((';' :: " [config]".toList) :: otherSection ++
    ('[' :: sectionName ++ [']']) :: (oddLines ++ otherSection)).flatMap (· ++ ['\r', '\n'])

theorem isIdle_comment {mark : Char} (h : mark = '#' ∨ mark = ';') (rest : Text) :
    IsIdle (mark :: rest) :=
  ⟨.empty isWhite, Or.inr ⟨mark, rest, h, rfl⟩⟩

theorem isHeader_brackets (inner : Text) : IsHeader inner.trim ('[' :: inner ++ [']']) :=
  ⟨.empty isWhite, .empty isWhite, inner, (List.append_nil _).symm, rfl⟩

theorem elsewhere_otherSection : Elsewhere sectionName otherSection := by
  refine @Elsewhere.section_ _ _ _ ["BOARD_ID".toList] _ (isHeader_brackets "other".toList)
    (by decide +kernel) ?_ .nil
  intro line hline name hheader
  have hcontent : Line.of "BOARD_ID".toList = .content false "BOARD_ID".toList := by
    decide +kernel
  rw [← List.mem_singleton.mp hline, of_header hheader] at hcontent
  cases hcontent

theorem gives_oddLines : Gives oddLines oddItems :=
  .item _ _ (Or.inr rfl) _ _ <| .idle (isIdle_comment (Or.inl rfl) _) <|
    .idle ⟨.empty isWhite, Or.inl rfl⟩ <| .item _ _ (Or.inl rfl) _ _ <|
    .item _ _ (Or.inl rfl) _ _ <| .item _ _ (Or.inr rfl) _ _ <| .item _ _ (Or.inl rfl) _ _ .nil

theorem renders_oddSettings : Renders oddSettings oddItems := by
  refine ⟨(';' :: " [config]".toList) :: otherSection, '[' :: sectionName ++ [']'], oddLines,
    otherSection, spells_flatMap (by decide +kernel),
    .idle (isIdle_comment (Or.inr rfl) _) elsewhere_otherSection, ?_, gives_oddLines,
    elsewhere_otherSection⟩
  have htrim : sectionName.trim = sectionName := by decide +kernel
  have hheader := isHeader_brackets sectionName
  rwa [htrim] at hheader

/-- They are read as they were written. -/
theorem oddSettings_parsed :
    Renders oddSettings oddItems ∧ ∃ cfg, parse oddSettings = .ok cfg ∧
      cfg.boardId = "[a b:c]".toList ∧ cfg.versionMinor = "00".toList := by
  obtain ⟨cfg, hparse, hgiven, -, hminor⟩ := parse_of_renders renders_oddSettings
    (by decide) (by decide) (by decide +kernel)
  exact ⟨renders_oddSettings, cfg, hparse, hgiven (.boardId, _) (by decide), hminor (by decide)⟩

end Settings

end FirmwareIds.BiosId
