import FirmwareIds.Resource.Grammar

/-!
# Blocks of strings

Which strings a text defines, and how the blocks with a variant in a foreign language are removed
from it. A block goes as a whole, and with it every other place of the text that reads just the
same: what is removed is found by its characters and not by its position.
-/

namespace FirmwareIds.Resource

/-- The identifier of every block of a text, in order. -/
def identifiers (s : Text) : List Text := (block.cut .lineStart s).notes

/-- The languages that stay. -/
def homeLanguages : List Text :=
  ["en".toList, "en-US".toList, "eng".toList, "uqi".toList]

/-- The language tags of the variants of a block, in order. -/
def tags (block : Text) : List Text := (variant.cut .anywhere block).notes

/-- The tags of a block that are not kept. -/
def foreignTags (block : Text) : List Text :=
  (tags block).filter fun tag => !homeLanguages.contains tag

/-- The blocks of a text with a variant in a foreign language, in order. -/
def foreignBlocks (s : Text) : List Text :=
  (block.cut .lineStart s).pieces.filter fun b => !(foreignTags b).isEmpty

/-- The text without any place that reads `needle`, found from left to right. -/
def removeAll (needle s : Text) : Text := ((Pattern.word needle).cut .anywhere s).remainder

/-- The foreign tags of a text, one for each variant, and the text without the blocks that have
one. -/
def stripForeign (s : Text) : List Text × Text :=
  ((foreignBlocks s).flatMap foreignTags,
    (foreignBlocks s).foldl (fun left b => removeAll b left) s)

end FirmwareIds.Resource
