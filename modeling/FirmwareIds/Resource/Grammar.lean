import FirmwareIds.Text.Cutting
import FirmwareIds.Text.White

/-!
# The grammar of string resources

A resource file is a row of blocks. A block gives an identifier, and for each language a variant:

    #string STR_BOOT_MODE   #language en-US "Boot Mode"
                            #language fr-FR "Mode de démarrage"
    #string STR_BOOT_MODE   #language uqi   "x0042"

The language `uqi` stands for no language: its value is the question code of the string, one or
two characters of lead and then the code in base sixteen. Files hold much that these patterns do
not describe, and none of it is looked at.

A quoted value ends at the last quotation mark of its line, so it may hold quotation marks.
-/

namespace FirmwareIds.Resource

open Pattern

/-- The front of a definition up to the opening quotation mark; notes the identifier. -/
def definitionHead : Pattern Text := do
  word "#string".toList
  let _ ← many1 isBlank
  let identifier ← many1 isWordChar
  let _ ← many1 isBlank
  word "#language".toList
  let _ ← many1 isBlank
  word "uqi".toList
  let _ ← many1 isGap
  word ['"']
  return identifier

/-- A value with `leads` characters of lead and `digits` of code, and the closing quotation mark;
notes both parts. -/
def codeValue (leads digits : Nat) : Pattern (Text × Text) := do
  let lead ← exactly leads (!isWhite ·)
  let code ← exactly digits isHexDigit
  word ['"']
  return (lead, code)

/-- What a definition says: the identifier, the lead and the digits of the code. -/
structure DefinitionParts where
  /-- The string that the code belongs to. -/
  identifier : Text
  /-- The characters before the digits. -/
  lead : Text
  /-- Four or five digits in base sixteen. -/
  digits : Text

/-- A definition. The lead is as short as it can be and the code as long as it can be. -/
def definition : Pattern DefinitionParts := do
  let identifier ← definitionHead
  let (lead, digits) ← oneOf [codeValue 1 5, codeValue 1 4, codeValue 2 5, codeValue 2 4]
  return ⟨identifier, lead, digits⟩

/-- The blanks and the line end behind a quoted value, as far as they are there. -/
def lineEnd : Pattern Unit := do
  let _ ← many isBlank
  let _ ← optional (· == '\r')
  let _ ← optional (· == '\n')

/-- The whole line of a definition, whatever its value, with the line end. -/
def definitionLine : Pattern Unit := do
  let _ ← definitionHead
  throughLastQuote
  lineEnd

/-- One variant of a block with the gap before it; notes the language tag. -/
def variant : Pattern Text := do
  let _ ← many1 isGap
  word "#language".toList
  let _ ← many1 isBlank
  let tag ← between 2 5 isTagChar
  let _ ← many1 isGap
  word ['"']
  throughLastQuote
  lineEnd
  return tag

/-- A block: an identifier and all variants that follow it; notes the identifier. -/
def block : Pattern Text := do
  word "#string".toList
  let _ ← many1 isBlank
  let identifier ← many1 isWordChar
  let _ ← star variant
  return identifier

end FirmwareIds.Resource
