import FirmwareIds.Toml.Grammar

/-!
# Settings as a whole

Lines of settings make one table. A header says which table the keys after it belong to; before
the first header they belong to the whole.
-/

namespace FirmwareIds.Toml

/-- The settings of the lines so far, and the header that is in force. -/
structure Document where
  fields : Fields := []
  current : List Text := []

/-- Takes in a line. -/
def Document.take (d : Document) : Line → Option Document
  | .idle => some d
  | .header path => (d.fields.openTable path).map (⟨·, path⟩)
  | .pair path v =>
    (d.fields.within (·.assign path v) d.current).map (⟨·, d.current⟩)

/-- Reads settings from a text. -/
def read? (s : Text) : Option Fields := do
  let reading ← lines.read s
  let d ← reading.note.foldlM Document.take {}
  return d.fields

end FirmwareIds.Toml
