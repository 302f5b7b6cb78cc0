import FirmwareIds.Form.Grammar
import FirmwareIds.Path

/-!
# References to strings

The prompts of the questions of a form source refer to strings by tokens. Tokens that stand for
"no string" are no references.
-/

namespace FirmwareIds

/-- A string that the prompt of a question refers to. -/
structure Reference where
  /-- The token of the prompt. -/
  token : Text
  /-- The store and field of the question, if it is bound to one. -/
  binding : Option Text
  /-- The form source. -/
  path : Path
  deriving DecidableEq

namespace Reference

/-- The tokens that stand for "no string". -/
def placeholders : List Text := ["0".toList, "STR_EMPTY".toList, "STR_NULL".toList]

/-- Whether a token stands for "no string". -/
def meansNone (token : Text) : Bool := placeholders.contains token

/-- The references of one question. All of them carry the binding that comes first in it. -/
def ofQuestion (question : Text) (path : Path) : List Reference :=
  let binding := Form.binding.first? .anywhere question
  let tokens := (Form.prompt.cut .anywhere question).notes
  (tokens.filter fun token => !meansNone token).map (⟨·, binding, path⟩)

/-- The references of a form source, question by question. -/
def all (source : Text) (path : Path) : List Reference :=
  (Form.question.cut .lineStart source).pieces.flatMap (ofQuestion · path)

end Reference

end FirmwareIds
