import FirmwareIds.Error
import FirmwareIds.FileTree.Change
import FirmwareIds.Text.Encoding

/-!
# Text files

Reading a text file, and replacing one as a whole: the new bytes go to a temporary file beside it,
which is then moved over it, so at every moment the path leads to the old content or the new one.
The name of the temporary file holds a mark that other runs at the same time do not use.
-/

namespace FirmwareIds.FileTree

/-- The text of the file that the path leads to. -/
def loadText (t : FileTree) (p : Path) : Except Error TextContent :=
  match t.readFile p with
  | .error fault => .error (.file p fault)
  | .ok bytes =>
    match TextContent.decode? bytes with
    | some text => .ok text
    | none => .error (.file p .notText)

/-- The name of the temporary file for a path. -/
def temporary (mark : Text) (p : Path) : Path :=
  p.withFileName ('.' :: p.fileName?.getD [] ++ '.' :: mark ++ ".tmp".toList)

/-- Makes the directories that the file at a path lies in. -/
def makeParent (t : FileTree) (p : Path) : FileTree × Option Error :=
  match p.parent? with
  | none => (t, none)
  | some dir =>
    let (t, fault?) := t.makeDirectories dir
    (t, fault?.map (.file dir))

/-- Writes the temporary file and moves it over the file at the path. -/
def writeAndMove (t : FileTree) (temporary p : Path) (bytes : List UInt8) :
    FileTree × Option Error :=
  match t.writeFile temporary bytes with
  | .error fault => (t, some (.file temporary fault))
  | .ok t =>
    match t.move temporary p with
    | .error fault => (t, some (.file p fault))
    | .ok t => (t, none)

/-- Replaces the text of a file. The tree is the one that is left, also when the file could not be
replaced; then it keeps no temporary file. -/
def replaceText (t : FileTree) (mark : Text) (p : Path) (content : TextContent) :
    FileTree × Option Error :=
  match t.makeParent p with
  | (t, some error) => (t, some error)
  | (t, none) =>
    let temporary := temporary mark p
    match t.writeAndMove temporary p content.encode with
    | (t, some error) => ((t.removeFile temporary).toOption.getD t, some error)
    | done => done

end FirmwareIds.FileTree
