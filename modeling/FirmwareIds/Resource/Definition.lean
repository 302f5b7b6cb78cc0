import FirmwareIds.Resource.Grammar
import FirmwareIds.Text.Numeral

/-!
# Definitions of question codes

A definition gives the string `identifier` a question code. This module reads the definitions of
a text, writes a definition as a line, appends lines to a text and takes all definition lines out
of one.
-/

namespace FirmwareIds

/-- The question code of a string, and the characters it is written behind. -/
structure Definition where
  /-- The string that the code belongs to. -/
  identifier : Text
  /-- The characters between the opening quotation mark and the digits, such as `x`. -/
  lead : Text
  /-- The question code. -/
  code : UInt16
  deriving DecidableEq

namespace Definition

/-- The definition with these parts, if its code has sixteen bits. -/
def ofParts? (parts : Resource.DefinitionParts) : Option Definition :=
  let n := Text.ofHex parts.digits
  if n < 65536 then some ⟨parts.identifier, parts.lead, n.toUInt16⟩ else none

/-- The definitions of a text in order; those with wider codes are passed over. -/
def all (s : Text) : List Definition :=
  (Resource.definition.cut .lineStart s).notes.filterMap ofParts?

/-- The lead of the first definition of a text, whatever its code. -/
def firstLead? (s : Text) : Option Text :=
  (Resource.definition.first? .lineStart s).map Resource.DefinitionParts.lead

/-- The lead of new lines where neither the list nor the options give one. -/
def defaultLead : Text := ['x']

/-- The column, counted from the identifier, behind which the language of a written line starts;
a longer identifier pushes it on. -/
def languageColumn : Nat := 47

/-- A definition as a line. The column is counted in bytes. -/
def line (d : Definition) : Text :=
  "#string ".toList ++ d.identifier
    ++ List.replicate (languageColumn - d.identifier.byteLength) ' '
    ++ " #language uqi \"".toList ++ d.lead ++ Text.hex4 d.code ++ "\"\r\n".toList

/-- Adds a line behind a text, on a line of its own. -/
def append (buffer line : Text) : Text :=
  if buffer.isEmpty || endsLine buffer then buffer ++ line
  else buffer ++ "\r\n".toList ++ line

/-- The definition lines of a text with their line ends, and the text without them. -/
def takeLines (s : Text) : List Text × Text :=
  let c := Resource.definitionLine.cut .lineStart s
  (c.pieces, c.remainder)

/-- Appending only adds behind what is there. -/
theorem prefix_append (buffer line : Text) : buffer <+: append buffer line := by
  unfold append
  split
  · exact List.prefix_append ..
  · rw [List.append_assoc]; exact List.prefix_append ..

/-- A text without definition lines is left as it is. -/
theorem takeLines_snd_of_fst_nil {s : Text} (h : (takeLines s).1 = []) :
    (takeLines s).2 = s :=
  Pattern.remainder_cutFrom_of_hits_nil (List.map_eq_nil_iff.mp h)

end Definition

end FirmwareIds
