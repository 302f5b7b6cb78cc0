import FirmwareIds.Json.Basic
import FirmwareIds.Text.Numeral

/-!
# Printing JSON

A value is printed over several lines, two blanks deeper at each level, with the fields of an
object in the order of their names. Only what must be escaped is escaped.
-/

namespace FirmwareIds.Json

/-- A character inside quotation marks. -/
def quotedChar (c : Char) : Text :=
  match c with
  | '"' => "\\\"".toList
  | '\\' => "\\\\".toList
  | '\x08' => "\\b".toList
  | '\x0c' => "\\f".toList
  | '\n' => "\\n".toList
  | '\r' => "\\r".toList
  | '\t' => "\\t".toList
  | c =>
    let n := c.toNat
    if n < 32 then "\\u00".toList ++ [Nat.digitChar (n / 16), Nat.digitChar (n % 16)] else [c]

/-- A text in quotation marks. -/
def quoted (s : Text) : Text := '"' :: s.flatMap quotedChar ++ ['"']

/-- The start of a line at a level. -/
def newLine (level : Nat) : Text := '\n' :: List.replicate (2 * level) ' '

/-- Printed parts between brackets, each on lines of its own one level deeper. -/
def bracketed (level : Nat) (opening closing : Char) (parts : List Text) : Text :=
  if parts.isEmpty then [opening, closing]
  else
    opening :: [','].intercalate (parts.map (newLine (level + 1) ++ ·)) ++ newLine level
      ++ [closing]

/-- A printed field. -/
def printedField (field : Text × Text) : Text := quoted field.1 ++ ": ".toList ++ field.2

mutual

/-- Prints a value that starts at a level. -/
def print (level : Nat) : Json → Text
  | .null => "null".toList
  | .bool b => (if b then "true" else "false").toList
  | .integer (.ofNat n) => Text.decimal n
  | .integer (.negSucc n) => '-' :: Text.decimal (n + 1)
  | .fraction numeral => numeral
  | .string s => quoted s
  | .array items => bracketed level '[' ']' (printItems (level + 1) items)
  | .object fields =>
    bracketed level '\x7b' '\x7d'
      (((printFields (level + 1) fields).mergeSort fun a b => Text.le a.1 b.1).map printedField)

/-- Prints the items of an array. -/
def printItems (level : Nat) : List Json → List Text
  | [] => []
  | j :: rest => print level j :: printItems level rest

/-- Prints the values of an object beside their names. -/
def printFields (level : Nat) : List (Text × Json) → List (Text × Text)
  | [] => []
  | (name, j) :: rest => (name, print level j) :: printFields level rest

end

/-- A value as the content of a file. -/
def pretty (j : Json) : Text := print 0 j

end FirmwareIds.Json
