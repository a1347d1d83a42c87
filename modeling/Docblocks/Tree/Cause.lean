/-
# Docblocks.Tree.Cause — why a path is refused.
-/
import Docblocks.Text.Basic

namespace Docblocks.Tree

/-- Why the tree refuses to open, make or read what a path names. -/
inductive Cause
  /-- Nothing has that name. -/
  | noEntry
  /-- The place for a new entry is taken. -/
  | taken
  /-- Something that is no directory is used as one. -/
  | notDirectory
  /-- A directory, or a path that can only name one, is used as a file. -/
  | isDirectory
  /-- There is no room for what is written. -/
  | noSpace
  /-- A name, or the whole path, is too long. -/
  | nameTooLong
  /-- The path leads over too many links. -/
  | tooManyLinks
  /-- The path holds a NUL character. -/
  | nul
  /-- The bytes read are no UTF-8 text. -/
  | notText
  deriving DecidableEq, Repr

/-- A cause in words. -/
def Cause.message : Cause → String
  | .noEntry => "No such file or directory (os error 2)"
  | .taken => "File exists (os error 17)"
  | .notDirectory => "Not a directory (os error 20)"
  | .isDirectory => "Is a directory (os error 21)"
  | .noSpace => "No space left on device (os error 28)"
  | .nameTooLong => "File name too long (os error 36)"
  | .tooManyLinks => "Too many levels of symbolic links (os error 40)"
  | .nul => "file name contained an unexpected NUL byte"
  | .notText => "stream did not contain valid UTF-8"

end Docblocks.Tree

namespace Docblocks

/-- A path and why the tree refused it. -/
structure Refusal where
  path : Text
  cause : Tree.Cause
  deriving DecidableEq, Repr

end Docblocks
