/-!
# Failures of file access

The reasons for which a file cannot be reached or read, with their wording.
-/

namespace Overlay

/-- Why a file could not be reached or read. -/
inductive IoError where
  /-- Nothing has that name. -/
  | notFound
  /-- A step of the path leads through something that is not a directory. -/
  | notDirectory
  /-- The content of a directory was asked for. -/
  | isDirectory
  /-- Too many links were followed. -/
  | linkLoop
  /-- A name or the whole path is too long. -/
  | nameTooLong
  /-- The path holds a null character. -/
  | nullInPath
  /-- The device failed. -/
  | deviceFailed
  /-- The content is not UTF-8. -/
  | notText
  /-- The content is not a readable archive. -/
  | badArchive
  deriving DecidableEq, Repr

/-- The wording of a failure. -/
def IoError.message : IoError → String
  | notFound => "No such file or directory (os error 2)"
  | notDirectory => "Not a directory (os error 20)"
  | isDirectory => "Is a directory (os error 21)"
  | linkLoop => "Too many levels of symbolic links (os error 40)"
  | nameTooLong => "File name too long (os error 36)"
  | nullInPath => "file name contained an unexpected NUL byte"
  | deviceFailed => "Input/output error (os error 5)"
  | notText => "stream did not contain valid UTF-8"
  | badArchive => "the archive cannot be read"

end Overlay
