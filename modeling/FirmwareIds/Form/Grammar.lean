import FirmwareIds.Text.Cutting

/-!
# The grammar of form sources

A form source declares questions. A question starts with a keyword and `varid` where a line
starts, and ends at the nearest end keyword, of whatever kind, that a semicolon follows; what is
between is arbitrary text:

    oneof varid = Setup.BootMode,
      prompt = STRING_TOKEN(STR_BOOT_MODE),
      help   = STRING_TOKEN(STR_BOOT_MODE_HELP),
    endoneof;

Questions are not balanced: one that starts inside another one belongs to it.
-/

namespace FirmwareIds.Form

open Pattern

/-- The keyword that opens a question. -/
def keyword : Pattern Unit :=
  oneOf [word "oneof".toList, word "numeric".toList, word "checkbox".toList,
    word "orderedlist".toList]

/-- The keyword and the semicolon that end a question. -/
def endMark : Pattern Unit := do
  oneOf [word "endoneof".toList, word "endnumeric".toList, word "endcheckbox".toList,
    word "endorderedlist".toList]
  word [';']

/-- The front of a question up to `varid`. -/
def questionHead : Pattern Unit := do
  let _ ← many isBlank
  keyword
  let _ ← many1 isBlank
  word "varid".toList

/-- A question. At least one character separates its head from its end. -/
def question : Pattern Unit := do
  questionHead
  let _ ← exactly 1 (fun _ => true)
  through endMark

/-- The store and field that a question is bound to. -/
def binding : Pattern Text := do
  questionHead
  let _ ← many isBlank
  word ['=']
  let _ ← many isBlank
  let store ← many1 isWordChar
  word ['.']
  let field ← many1 isWordChar
  return store ++ '.' :: field

/-- A prompt; notes its token. -/
def prompt : Pattern Text := do
  word "prompt".toList
  let _ ← many isBlank
  word ['=']
  let _ ← many isBlank
  word "STRING_TOKEN".toList
  let _ ← many isBlank
  word ['(']
  let token ← many1 isWordChar
  word [')']
  return token

end FirmwareIds.Form
