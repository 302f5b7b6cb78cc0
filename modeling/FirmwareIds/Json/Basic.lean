import FirmwareIds.Text.Basic

/-!
# JSON values

The values that a report is stored in, and how a record is found in one. A record is an object,
or an array of its fields in order; then fields at the end may be left out. An object may hold
more than the fields, an array may not.
-/

namespace FirmwareIds

/-- A JSON value. -/
inductive Json where
  | null
  | bool (b : Bool)
  | integer (n : Int)
  /-- A number that is not written as an integer, as it is written. -/
  | fraction (numeral : Text)
  | string (s : Text)
  | array (items : List Json)
  | object (fields : List (Text × Json))
  deriving Inhabited

namespace Json

/-- A natural number as a value. -/
def ofNat (n : Nat) : Json := .integer n

/-- Texts as an array. -/
def ofTexts (items : List Text) : Json := .array (items.map .string)

def text? : Json → Option Text
  | .string s => some s
  | _ => none

/-- The number, if it is a natural one below the bound. -/
def natBelow? (bound : Nat) : Json → Option Nat
  | .integer (.ofNat n) => if n < bound then some n else none
  | _ => none

/-- The items of an array, if every one of them can be read. -/
def listOf? {α : Type} (read : Json → Option α) : Json → Option (List α)
  | .array items => items.mapM read
  | _ => none

/-- The word of a value that is one of several words. It is a string, or an object whose one key
is the word and whose value is null. -/
def word? : Json → Option Text
  | .string s => some s
  | .object [(s, .null)] => some s
  | _ => none

/-- The value that stands for a name in a list of pairs. -/
def lookup (fields : List (Text × Json)) (name : Text) : Option Json :=
  (fields.find? (·.1 == name)).map (·.2)

/-- The fields of a record, by name, when `names` are all its fields in order. -/
def record? (names : List Text) : Json → Option (Text → Option Json)
  | .object fields => some (lookup fields)
  | .array items => if items.length ≤ names.length then some (lookup (names.zip items)) else none
  | _ => none

/-- A field that must be there. -/
def required {α : Type} (field? : Text → Option Json) (name : String)
    (read : Json → Option α) : Option α :=
  (field? name.toList).bind read

/-- A list that is empty if its field is not there. -/
def listOrEmpty {α : Type} (field? : Text → Option Json) (name : String)
    (read : Json → Option α) : Option (List α) :=
  match field? name.toList with
  | none => some []
  | some items => items.listOf? read

end Json

end FirmwareIds
