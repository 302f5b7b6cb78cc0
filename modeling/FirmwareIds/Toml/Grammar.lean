import FirmwareIds.Toml.Scalar
import FirmwareIds.Toml.Table

/-!
# The grammar of settings

Settings are written in TOML 1.0. A header for an array of tables is left out: no setting is such
an array, so a text with that header has no reading.

The patterns follow the grammar rule by rule. In strings over several lines every line end is read
as a line feed, and up to two quotation marks may stand at any place, also before the three that
close the string. Arrays and tables may lie in each other, and keys may be made of parts, only so
often; `limit` is the bound of both.
-/

namespace FirmwareIds.Toml

open Pattern

/-- A character that may stand in a comment: a tab, or any that is no control character. -/
def isPlain (c : Char) : Bool := c == '\t' || (' ' ≤ c && c != '\x7f')

/-- A character that stands for itself between quotation marks. -/
def isBasic (c : Char) : Bool := isPlain c && c != '"' && c != '\\'

/-- A character that may stand between apostrophes. -/
def isLiteral (c : Char) : Bool := isPlain c && c != '\x27'

/-- A character of a key without quotation marks. -/
def isBare (c : Char) : Bool := c.isAlphanum || c == '_' || c == '-'

/-- A line end, read as a line feed. -/
def newline : Pattern Text := do
  oneOf [word ['\n'], word ['\r', '\n']]
  return ['\n']

/-- A comment up to the end of its line. -/
def comment : Pattern Unit := do
  word ['#']
  let _ ← many isPlain

/-- Blanks, comments and line ends between the items of an array. -/
def freeSpace : Pattern Unit := do
  let commented : Pattern Text := do
    comment
    newline
  let _ ← star (oneOf [many1 isBlank, newline, commented])

/-! ## Strings -/

/-- The character with this number, if there is one. -/
def charOf? (n : Nat) : Option Char :=
  if n < 0xD800 ∨ (0xDFFF < n ∧ n < 0x110000) then some (Char.ofNat n) else none

/-- A character by its number in `n` digits. -/
def numbered (mark : Char) (n : Nat) : Pattern Text := do
  word [mark]
  let digits ← exactly n isHexDigit
  let c ← given (charOf? (Text.ofHex digits))
  return [c]

/-- The characters behind a backslash that stand for another one. -/
def escapes : List (Char × Char) :=
  [('b', '\x08'), ('t', '\t'), ('n', '\n'), ('f', '\x0c'), ('r', '\r'), ('"', '"'), ('\\', '\\')]

/-- An escaped character. -/
def escaped : Pattern Text := do
  word ['\\']
  let simple := escapes.map fun (mark, c) => do
    word [mark]
    return [c]
  oneOf (simple ++ [numbered 'u' 4, numbered 'U' 8])

/-- A string between quotation marks. -/
def basicString : Pattern Text := do
  word ['"']
  let parts ← star (oneOf [many1 isBasic, escaped])
  word ['"']
  return parts.flatten

/-- A string between apostrophes. -/
def literalString : Pattern Text := do
  word ['\x27']
  let s ← many isLiteral
  word ['\x27']
  return s

/-- A backslash at the end of a line: it hides the line end and the white space after it. -/
def hiddenLineEnd : Pattern Text := do
  word ['\\']
  let _ ← many isBlank
  let _ ← newline
  let _ ← star (oneOf [many1 isBlank, newline])
  return []

/-- A string over several lines between three marks; `part` reads what else may be in it. A line
end right behind the opening marks does not count. -/
def longString (mark : Char) (part : Pattern Text) : Pattern Text := do
  let marked : Pattern Text := do
    let marks ← between 1 2 (· == mark)
    let s ← part
    return marks ++ s
  word [mark, mark, mark]
  let _ ← maybe newline
  let parts ← star (oneOf [part, marked])
  let marks ← between 3 5 (· == mark)
  return parts.flatten ++ marks.drop 3

/-- A string of any of the four kinds. -/
def string : Pattern Text :=
  oneOf [longString '"' (oneOf [many1 isBasic, hiddenLineEnd, escaped, newline]), basicString,
    longString '\x27' (oneOf [many1 isLiteral, newline]), literalString]

/-! ## Keys and values -/

/-- A part of a key with the blanks around it. -/
def keyPart : Pattern Text := do
  let _ ← many isBlank
  let part ← oneOf [basicString, literalString, many1 isBare]
  let _ ← many isBlank
  return part

/-- The greatest number of arrays and tables that lie in each other, and of the parts of a key. -/
def limit : Nat := 79

/-- A key: parts between dots. -/
def key : Pattern (List Text) := do
  let first ← keyPart
  let rest ← star do
    word ['.']
    keyPart
  require (rest.length < limit)
  return first :: rest

/-- Items with a separator between them, perhaps none. -/
def separated {α : Type} (item : Pattern α) (separator : Pattern Unit) : Pattern (List α) := do
  match ← maybe item with
  | none => return []
  | some first =>
    let rest ← star do
      separator
      item
    return first :: rest

/-- A key and its value, with the blanks around them. -/
def pair (value : Pattern Value) : Pattern (List Text × Value) := do
  let path ← key
  word ['=']
  let _ ← many isBlank
  let v ← value
  let _ ← many isBlank
  return (path, v)

/-- An array. A comma may follow the last item. -/
def array (value : Pattern Value) : Pattern Value := do
  word ['[']
  freeSpace
  let items ← separated value do
    freeSpace
    word [',']
    freeSpace
  freeSpace
  let _ ← optional fun c => c == ',' && !items.isEmpty
  freeSpace
  word [']']
  return .array items

/-- A table between braces, on one line. -/
def braced (value : Pattern Value) : Pattern Value := do
  word ['\x7b']
  let pairs ← separated (pair value) (word [','])
  let _ ← many isBlank
  word ['\x7d']
  let fields ← given (Fields.ofPairs pairs)
  return .table .braces fields

/-- A value that holds no other. -/
def simple : Pattern Value :=
  oneOf [string >>= fun s => return .string s, scalar >>= fun _ => return .scalar]

/-- A value in which at most `depth` arrays and tables lie in each other. -/
def value : (depth : Nat) → Pattern Value
  | 0 => simple
  | depth + 1 =>
    let inner := value depth
    oneOf [simple, array inner, braced inner]

/-! ## Lines -/

/-- A line of settings. -/
inductive Line where
  | idle
  /-- The header of a table. -/
  | header (path : List Text)
  | pair (path : List Text) (v : Value)

/-- A header of a table. -/
def header : Pattern Line := do
  word ['[']
  let path ← key
  word [']']
  return .header path

/-- A line with its end. -/
def line : Pattern Line := do
  let _ ← many isBlank
  let content ← oneOf [header, pair (value limit) >>= fun p => return .pair p.1 p.2,
    done .idle]
  let _ ← many isBlank
  let _ ← maybe comment
  oneOf [newline >>= fun _ => done (), atEnd]
  return content

/-- All lines of a text. -/
def lines : Pattern (List Line) := do
  let _ ← optional (· == '\uFEFF')
  let all ← star line
  atEnd
  return all

end FirmwareIds.Toml
