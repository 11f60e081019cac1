/-
# File systems

What the programs ask of a file system, in a monad `m`: whether a path exists,
the text of a file, and the Python sources below a directory in path order.
-/

import Lineage.Files.Path

namespace Lineage
namespace Files

/-- What the operating system refuses. -/
inductive SystemError where
  | missing
  | notDirectory
  | isDirectory
  /-- A path, or a name in it, that is longer than the system takes. -/
  | tooLong
  /-- A path with the character that ends the texts of the system. -/
  | containsNul
deriving DecidableEq, Repr

/-- The operating system's message. -/
def SystemError.message : SystemError → String
  | .missing => "No such file or directory (os error 2)"
  | .notDirectory => "Not a directory (os error 20)"
  | .isDirectory => "Is a directory (os error 21)"
  | .tooLong => "File name too long (os error 36)"
  | .containsNul => "file name contained an unexpected NUL byte"

/-- Why a file system operation fails. -/
inductive IoError where
  /-- A file that is not among those in memory. -/
  | absent (path : Path)
  | system (cause : SystemError)
  /-- A listing that fails at a path. -/
  | listing (path : Path) (cause : SystemError)
  /-- A failure with a message of its own. -/
  | other (message : String)
deriving DecidableEq, Repr

/-- The message of a failure. -/
def IoError.message : IoError → String
  | .absent path => path.text ++ " not found"
  | .system cause => cause.message
  | .listing path cause => "IO error for operation on " ++ path.text ++ ": " ++ cause.message
  | .other message => message

/-- The message of a failure followed by that of the failure behind it, if there is
one: a listing fails because a directory in it does. -/
def IoError.chain : IoError → String
  | .listing path cause => (IoError.listing path cause).message ++ ": " ++ cause.message
  | e => e.message

/-- The operations of a file system. -/
structure FileSystem (m : Type → Type) where
  /-- The path names a file or a directory. -/
  present : Path → m Bool
  /-- The path names a directory. -/
  isDirectory : Path → m Bool
  /-- The text of a file. -/
  read : Path → m (Except IoError String)
  /-- The Python sources anywhere below a directory, in path order. -/
  sources : Path → m (Except IoError (List Path))

end Files
end Lineage
