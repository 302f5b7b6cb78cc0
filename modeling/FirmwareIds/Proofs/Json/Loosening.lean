import FirmwareIds.Proofs.Json.Record

/-!
# Objects with other keys in another order

The fields of an object have names, so their order says nothing, and a reader of records passes over
names that it does not know. A value is loosened by what that allows: at any depth, neighbours in an
object change places, and fields with unknown names are put in. Which names are unknown depends on the
record that an object stands for, and `Shape` says which record that is.

A reader is tolerant if it reads a loosened value as it reads the value. Readers of lists and of records
are tolerant if the readers of their parts are: `tolerant_listOf?` and `tolerant_record?`.
-/

namespace FirmwareIds.Json

/-- What a value is read as. -/
inductive Shape where
  /-- A value without fields or items of its own. -/
  | whole
  | list (item : Shape)
  /-- A record with the shapes of its fields, by name. -/
  | record (fields : List (Text × Shape))

/-- The one value loosened to the other. -/
inductive Loosened : Shape → Json → Json → Prop where
  | refl (shape : Shape) (j : Json) : Loosened shape j j
  /-- Two neighbours in an object change places. -/
  | swap {known : List (Text × Shape)} {field other : Text × Json} (hne : field.1 ≠ other.1)
      (before behind : List (Text × Json)) :
      Loosened (.record known) (.object (before ++ field :: other :: behind))
        (.object (before ++ other :: field :: behind))
  /-- A field with an unknown name is put into an object. -/
  | extra {known : List (Text × Shape)} {name : Text} (hunknown : known.lookup name = none) (j : Json)
      (before behind : List (Text × Json)) :
      Loosened (.record known) (.object (before ++ behind)) (.object (before ++ (name, j) :: behind))
  /-- A field of an object is loosened. -/
  | field {known : List (Text × Shape)} {name : Text} {shape : Shape} {j j' : Json}
      (hknown : known.lookup name = some shape) (h : Loosened shape j j')
      (before behind : List (Text × Json)) :
      Loosened (.record known) (.object (before ++ (name, j) :: behind))
        (.object (before ++ (name, j') :: behind))
  /-- An item of an array is loosened. -/
  | item {shape : Shape} {j j' : Json} (h : Loosened shape j j') (before behind : List Json) :
      Loosened (.list shape) (.array (before ++ j :: behind)) (.array (before ++ j' :: behind))
  | trans {shape : Shape} {j₁ j₂ j₃ : Json} (h : Loosened shape j₁ j₂) (h' : Loosened shape j₂ j₃) :
      Loosened shape j₁ j₃

/-- The fields of an object may stand in any order, if their names are distinct. -/
theorem Loosened.of_perm {known : List (Text × Shape)} {fields fields' : List (Text × Json)}
    (hnames : (fields.map Prod.fst).Nodup) (h : fields.Perm fields') :
    Loosened (.record known) (.object fields) (.object fields') := by
  -- the fields that both lists begin with are put before the part that is changed
  suffices hfront : ∀ before,
      Loosened (.record known) (.object (before ++ fields)) (.object (before ++ fields')) from
    hfront []
  induction h with
  | nil => exact fun before => .refl _ _
  | cons field _ ih =>
    intro before
    have hmore := ih (List.nodup_cons.mp hnames).2 (before ++ [field])
    rwa [List.append_assoc, List.append_assoc] at hmore
  | swap field other rest =>
    have hne : other.1 ≠ field.1 := fun he =>
      (List.nodup_cons.mp hnames).1 (List.mem_cons.mpr (Or.inl he))
    exact fun before => .swap hne before rest
  | trans hperm _ ih ih' =>
    have hnames' := (hperm.map Prod.fst).nodup_iff.mp hnames
    exact fun before => (ih hnames before).trans (ih' hnames' before)

/-! ## Tolerant readers -/

variable {α : Type}

/-- The reader reads a loosened value as it reads the value. -/
def Tolerant (shape : Shape) (read : Json → Option α) : Prop :=
  ∀ {j j' : Json}, Loosened shape j j' → read j' = read j

theorem tolerant_whole (read : Json → Option α) : Tolerant .whole read := by
  intro j j' h
  generalize hshape : Shape.whole = shape at h
  induction h with
  | refl => rfl
  | swap | extra | field | item => cases hshape
  | trans _ _ ih ih' => exact (ih' hshape).trans (ih hshape)

theorem tolerant_listOf? {item : Shape} {read : Json → Option α} (hread : Tolerant item read) :
    Tolerant (.list item) (listOf? read) := by
  intro j j' h
  generalize hshape : Shape.list item = shape at h
  induction h with
  | refl => rfl
  | swap | extra | field => cases hshape
  | item h before behind _ =>
    cases hshape
    show (before ++ _ :: behind).mapM read = (before ++ _ :: behind).mapM read
    rw [List.mapM_append, List.mapM_append, List.mapM_cons, List.mapM_cons, hread h]
  | trans _ _ ih ih' => exact (ih' hshape).trans (ih hshape)

/-! ## Records -/

/-- The known fields of a record agree: each is missing in both, or loosened. -/
def FieldsAgree (known : List (Text × Shape)) (field? field?' : Text → Option Json) : Prop :=
  ∀ name shape, known.lookup name = some shape →
    Option.Rel (Loosened shape) (field? name) (field?' name)

variable {known : List (Text × Shape)}

theorem FieldsAgree.of_eq {field? field?' : Text → Option Json}
    (h : ∀ name, known.lookup name ≠ none → field?' name = field? name) :
    FieldsAgree known field? field?' := by
  intro name shape hname
  rw [h name (by rw [hname]; exact Option.some_ne_none shape)]
  cases field? name with
  | none => exact .none
  | some j => exact .some (.refl shape j)

/-- What is related step by step is missing all along or nowhere. -/
theorem rel_trans {β : Type} {r : β → β → Prop} (hr : ∀ {a b c}, r a b → r b c → r a c)
    {x y z : Option β} (h : Option.Rel r x y) (h' : Option.Rel r y z) : Option.Rel r x z := by
  cases h with
  | none => exact h'
  | some hab =>
    cases h' with
    | some hbc => exact .some (hr hab hbc)

theorem record?_of_loosened (names : List Text) {j j' : Json}
    (h : Loosened (.record known) j j') :
    Option.Rel (FieldsAgree known) (j.record? names) (j'.record? names) := by
  generalize hshape : Shape.record known = shape at h
  induction h with
  | refl _ j =>
    cases j.record? names with
    | none => exact .none
    | some field? => exact .some (.of_eq fun _ _ => rfl)
  | swap hne before behind =>
    refine .some (.of_eq fun name _ => ?_)
    simp only [lookup_append, lookup_cons]
    split
    · next h =>
      rw [if_neg fun h' => hne (h'.trans h.symm)]
    · rfl
  | extra hunknown j before behind =>
    cases hshape
    refine .some (.of_eq fun name hname => ?_)
    have hne : _ ≠ name := fun he => hname (he ▸ hunknown)
    rw [lookup_append, lookup_append, lookup_cons, if_neg hne]
  | field hknown h before behind _ =>
    cases hshape
    refine .some fun name shape hname => ?_
    rw [lookup_append, lookup_append, lookup_cons, lookup_cons]
    cases lookup before name with
    | some j => exact .some (.refl shape j)
    | none =>
      rw [Option.none_or, Option.none_or]
      split
      · next he =>
        rw [← he, hknown] at hname
        cases hname
        exact .some h
      · cases lookup behind name with
        | none => exact .none
        | some j => exact .some (.refl shape j)
  | item => cases hshape
  | trans _ _ ih ih' =>
    refine rel_trans (fun h h' name shape hname => ?_) (ih hshape) (ih' hshape)
    exact rel_trans .trans (h name shape hname) (h' name shape hname)

/-- A reader of records is tolerant if fields that agree are all the same to it. -/
theorem tolerant_record? (names : List Text) {body : (Text → Option Json) → Option α}
    (hbody : ∀ field? field?', FieldsAgree known field? field?' → body field?' = body field?) :
    Tolerant (.record known) fun j => j.record? names >>= body := by
  intro j j' h
  have hrel := record?_of_loosened names h
  show j'.record? names >>= body = j.record? names >>= body
  generalize j.record? names = fields, j'.record? names = fields' at hrel ⊢
  cases hrel with
  | none => rfl
  | some hagree => exact hbody _ _ hagree

theorem FieldsAgree.required_eq {field? field?' : Text → Option Json}
    (h : FieldsAgree known field? field?') {shape : Shape} {read : Json → Option α}
    (hread : Tolerant shape read) {name : String}
    (hname : known.lookup name.toList = some shape) :
    required field?' name read = required field? name read := by
  have hrel := h _ _ hname
  unfold required
  generalize field? name.toList = x, field?' name.toList = x' at hrel ⊢
  cases hrel with
  | none => rfl
  | some h => exact hread h

theorem FieldsAgree.listOrEmpty_eq {field? field?' : Text → Option Json}
    (h : FieldsAgree known field? field?') {item : Shape} {read : Json → Option α}
    (hread : Tolerant item read) {name : String}
    (hname : known.lookup name.toList = some (.list item)) :
    listOrEmpty field?' name read = listOrEmpty field? name read := by
  have hrel := h _ _ hname
  unfold listOrEmpty
  generalize field? name.toList = x, field?' name.toList = x' at hrel ⊢
  cases hrel with
  | none => rfl
  | some h => exact tolerant_listOf? hread h

end FirmwareIds.Json
