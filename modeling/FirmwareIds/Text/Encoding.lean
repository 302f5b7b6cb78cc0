import FirmwareIds.Text.Utf16

/-!
# Encodings of resource files

A file of string resources is UTF-8 unless a byte order mark says otherwise, and it is written
back in the encoding it was read in, mark included. Without a mark the bytes must be UTF-8. Under
a mark nothing is refused: malformed places are read as the replacement character, and a second
mark right after the first is dropped with it.
-/

namespace FirmwareIds

/-- How a file holds its text. -/
inductive Encoding where
  /-- UTF-8 without a mark. -/
  | utf8
  /-- UTF-8 after the mark `EF BB BF`. -/
  | utf8Marked
  /-- UTF-16, low byte first, after the mark `FF FE`. -/
  | utf16Little
  /-- UTF-16, high byte first, after the mark `FE FF`. -/
  | utf16Big
  deriving DecidableEq

namespace Encoding

/-- The byte order mark. -/
def mark : Encoding → List UInt8
  | utf8 => []
  | utf8Marked => [0xEF, 0xBB, 0xBF]
  | utf16Little => [0xFF, 0xFE]
  | utf16Big => [0xFE, 0xFF]

/-- Whether the text is held in sixteen-bit units. -/
def isUtf16 : Encoding → Bool
  | utf8 | utf8Marked => false
  | utf16Little | utf16Big => true

/-- The name shown to a reader. -/
def display : Encoding → Text
  | utf8 => "utf-8".toList
  | utf8Marked => "utf-8 (bom)".toList
  | utf16Little => "utf-16le".toList
  | utf16Big => "utf-16be".toList

/-- The encoding that the first bytes announce: no mark is the beginning of another. -/
def detect (bs : List UInt8) : Encoding :=
  ([utf8Marked, utf16Little, utf16Big].find? fun e => e.mark.isPrefixOf bs).getD utf8

/-- The bytes of a text after the mark. -/
def body : Encoding → Text → List UInt8
  | utf8, s | utf8Marked, s => Utf8.encode s
  | utf16Little, s => Utf16.encode .little s
  | utf16Big, s => Utf16.encode .big s

/-- The text of the bytes after the mark, malformed places replaced. -/
def bodyText : Encoding → List UInt8 → Text
  | utf8, bs | utf8Marked, bs => Utf8.decodeLossy bs
  | utf16Little, bs => Utf16.decodeLossy .little bs
  | utf16Big, bs => Utf16.decodeLossy .big bs

/-- The bytes without the mark they may begin with. -/
def dropMark (e : Encoding) (bs : List UInt8) : List UInt8 :=
  (e.mark.isPrefixOf? bs).getD bs

end Encoding

/-- The content of a text file: its text, and the encoding it is written back in. -/
structure TextContent where
  /-- The characters, without the byte order mark. -/
  text : Text := []
  /-- The encoding the file was read in. -/
  encoding : Encoding := .utf8
  deriving DecidableEq

namespace TextContent

/-- The bytes of the file. -/
def encode (t : TextContent) : List UInt8 := t.encoding.mark ++ t.encoding.body t.text

/-- Reads the bytes of a file. Only bytes without a mark can be refused, when they are not
UTF-8. -/
def decode? (bs : List UInt8) : Option TextContent :=
  match Encoding.detect bs with
  | .utf8 => (Utf8.decode? bs).map (⟨·, .utf8⟩)
  | e => some ⟨e.bodyText (e.dropMark (e.dropMark bs)), e⟩

end TextContent

end FirmwareIds
