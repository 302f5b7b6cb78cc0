import FirmwareIds.Text.Numeral

/-!
# What can go wrong with a file

The causes for which an operation on files is refused, with the words and numbers that the
operating system has for them.
-/

namespace FirmwareIds

/-- Why an operation on a file was refused. -/
inductive Fault where
  /-- The path, or a directory on its way, does not exist. -/
  | notFound
  /-- Something must not exist, but does. -/
  | busy
  /-- A name that something already bears is to be created. -/
  | alreadyExists
  /-- Something on the way is no directory. -/
  | notDirectory
  /-- A directory stands where a file should. -/
  | isDirectory
  /-- A name or a path exceeds its limit. -/
  | nameTooLong
  /-- Too many links had to be followed. -/
  | tooManyLinks
  /-- The path holds the character that ends paths. -/
  | nulInPath
  /-- The bytes of the file are no text. -/
  | notText
  deriving DecidableEq

namespace Fault

/-- A system error with its number. -/
private def system (words : String) (number : Nat) : Text :=
  words.toList ++ " (os error ".toList ++ Text.decimal number ++ [')']

/-- The words for the fault. -/
def message : Fault → Text
  | notFound => system "No such file or directory" 2
  | busy => system "Device or resource busy" 16
  | alreadyExists => system "File exists" 17
  | notDirectory => system "Not a directory" 20
  | isDirectory => system "Is a directory" 21
  | nameTooLong => system "File name too long" 36
  | tooManyLinks => system "Too many levels of symbolic links" 40
  | nulInPath => "file name contained an unexpected NUL byte".toList
  | notText => "stream did not contain valid UTF-8".toList

end Fault

end FirmwareIds
