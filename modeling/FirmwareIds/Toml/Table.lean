import FirmwareIds.Text.Basic

/-!
# Tables of settings

A table comes into being in one of four ways, and the way decides who may still add to it. A
header opens a table once; dotted keys may go on adding to a table that dotted keys made; a table
that only stands on the way to the header of another one may still be opened; and a table written
out between braces is complete. No key is given twice.
-/

namespace FirmwareIds.Toml

/-- How a table came into being. -/
inductive Origin where
  /-- By a header below it. -/
  | implied
  /-- By a dotted key. -/
  | dotted
  /-- By its own header. -/
  | header
  /-- Between braces. -/
  | braces
  deriving DecidableEq

/-- A value of settings. -/
inductive Value where
  /-- A number, a truth value, a date or a time; no setting takes one, whichever it is. -/
  | scalar
  | string (s : Text)
  | array (items : List Value)
  | table (origin : Origin) (fields : List (Text × Value))
  deriving Inhabited

/-- What a table holds, in the order in which it was given. -/
abbrev Fields := List (Text × Value)

namespace Fields

/-- The value of a key. -/
def get? (fields : Fields) (key : Text) : Option Value :=
  (fields.find? (·.1 == key)).map (·.2)

/-- The fields with another value for a key, which keeps its place; a new key comes last. -/
def set (fields : Fields) (key : Text) (v : Value) : Fields :=
  match fields with
  | [] => [(key, v)]
  | field :: rest => if field.1 = key then (key, v) :: rest else field :: set rest key v

/-- Gives a key its value. Of a dotted key, all parts but the last go through tables that are open
to dotted keys, and the last of these tables is one that dotted keys made. -/
def assign (fields : Fields) : (path : List Text) → Value → Option Fields
  | [], _ => none
  | [key], v => if (fields.get? key).isNone then some (fields.set key v) else none
  | key :: next :: rest, v =>
    match fields.get? key with
    | none => (assign [] (next :: rest) v).map fun sub => fields.set key (.table .dotted sub)
    | some (.table origin sub) =>
      if origin = .dotted ∨ (origin = .implied ∧ rest ≠ []) then
        (assign sub (next :: rest) v).map fun sub => fields.set key (.table origin sub)
      else none
    | some _ => none

/-- Opens the table of a header. -/
def openTable (fields : Fields) : (path : List Text) → Option Fields
  | [] => none
  | [key] =>
    match fields.get? key with
    | none => some (fields.set key (.table .header []))
    | some (.table .implied sub) => some (fields.set key (.table .header sub))
    | some _ => none
  | key :: next :: rest =>
    match fields.get? key with
    | none => (openTable [] (next :: rest)).map fun sub => fields.set key (.table .implied sub)
    | some (.table .braces _) => none
    | some (.table origin sub) =>
      (openTable sub (next :: rest)).map fun sub => fields.set key (.table origin sub)
    | some _ => none

/-- Changes the table that a header opened. -/
def within (fields : Fields) (change : Fields → Option Fields) : (path : List Text) → Option Fields
  | [] => change fields
  | key :: rest =>
    match fields.get? key with
    | some (.table origin sub) =>
      (within sub change rest).map fun sub => fields.set key (.table origin sub)
    | _ => none

/-- The table of keys with their values. -/
def ofPairs (pairs : List (List Text × Value)) : Option Fields :=
  pairs.foldlM (fun fields pair => fields.assign pair.1 pair.2) []

end Fields

end FirmwareIds.Toml
