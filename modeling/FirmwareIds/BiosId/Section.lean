import FirmwareIds.BiosId.Problem
import FirmwareIds.Text.White

/-!
# Sections of settings

A settings text is made of sections. A header in brackets opens one, and its lines give a value to
a key each:

    # comment
    [config]
    BOARD_ID = KBLRVP1
    BOARD_REV : 1

An indented line continues the value before it. Empty lines and comments count for nothing, and in
sections other than the wanted one every line does. A key has one value.
-/

namespace FirmwareIds.BiosId

/-- What a line of settings is. -/
inductive Line where
  /-- An empty line or a comment. -/
  | idle
  /-- The header of the section `name`. -/
  | header (name : Text)
  /-- Any other line, without the white space around it. -/
  | content (indented : Bool) (line : Text)
  deriving DecidableEq

/-- The name between the brackets of a header. -/
def headerName? (line : Text) : Option Text :=
  match line with
  | '[' :: rest => if rest.getLast? = some ']' then some (Text.trim rest.dropLast) else none
  | _ => none

/-- What a line is. -/
def Line.of (raw : Text) : Line :=
  let line := raw.trim
  match line with
  | [] | '#' :: _ | ';' :: _ => .idle
  | _ =>
    match headerName? line with
    | some name => .header name
    | none => .content (raw.head?.any isBlank) line

/-- Whether the character separates a key from its value. -/
def isSeparator (c : Char) : Bool := c == '=' || c == ':'

/-- The key and the value of a line: what is before the first separator and what is after it. -/
def keyValue? (line : Text) : Option (Text × Text) :=
  match line.dropWhile (!isSeparator ·) with
  | [] => none
  | _ :: value => some (Text.trim (line.takeWhile (!isSeparator ·)), Text.trim value)

/-- The settings read so far. -/
structure Reader where
  /-- The section that the next line belongs to. -/
  current : Option Text := none
  /-- Whether the wanted section was opened. -/
  found : Bool := false
  /-- The keys of the wanted section with their values, in order. -/
  pairs : List (Text × Text) := []
  deriving DecidableEq

namespace Reader

/-- Continues the last value. -/
def continueLast (line : Text) : List (Text × Text) → List (Text × Text)
  | [] => []
  | [(key, value)] => [(key, value ++ '\n' :: line)]
  | pair :: rest => pair :: continueLast line rest

/-- Takes in a line of the wanted section. The line counts from one. -/
def content (r : Reader) (number : Nat) (indented : Bool) (line : Text) :
    Except Problem Reader :=
  if indented && !r.pairs.isEmpty then .ok { r with pairs := continueLast line r.pairs }
  else
    match keyValue? line with
    | none => .error (.noSeparator number)
    | some (key, value) =>
      if r.pairs.any (·.1 == key) then .error (.duplicated key)
      else .ok { r with pairs := r.pairs ++ [(key, value)] }

/-- Takes in a line. -/
def line (wanted : Text) (r : Reader) (number : Nat) (raw : Text) : Except Problem Reader :=
  match Line.of raw, r.current with
  | .idle, _ => .ok r
  | .header name, _ => .ok { r with current := some name, found := r.found || name == wanted }
  | .content .., none => .error (.entryOutside number)
  | .content indented line, some name =>
    if name = wanted then r.content number indented line else .ok r

/-- Takes in lines, the first of which has the number `number`. -/
def lines (wanted : Text) (r : Reader) (number : Nat) : List Text → Except Problem Reader
  | [] => .ok r
  | raw :: rest =>
    match r.line wanted number raw with
    | .error problem => .error problem
    | .ok r => r.lines wanted (number + 1) rest

end Reader

/-- The keys and values of the wanted section, if it is there. -/
def readSection (wanted s : Text) : Except Problem (Option (List (Text × Text))) :=
  (Reader.lines wanted {} 1 s.lines).map fun r => if r.found then some r.pairs else none

end FirmwareIds.BiosId
