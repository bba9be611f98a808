import TypeFinder.Path

/-! What may go wrong with a path, and the wording. -/

namespace TypeFinder

/-- What the operating system says of a path. -/
inductive OsError where
  | notFound
  | inputOutput
  | permissionDenied
  | alreadyExists
  | notDirectory
  | isDirectory
  | nameTooLong
  | linkLoop
  /-- A character zero is in the path, so that the operating system is not even asked. -/
  | zeroInPath
  deriving DecidableEq, Repr

/-- The wording of the operating system. -/
def OsError.message : OsError → String
  | notFound => "No such file or directory (os error 2)"
  | inputOutput => "Input/output error (os error 5)"
  | permissionDenied => "Permission denied (os error 13)"
  | alreadyExists => "File exists (os error 17)"
  | notDirectory => "Not a directory (os error 20)"
  | isDirectory => "Is a directory (os error 21)"
  | nameTooLong => "File name too long (os error 36)"
  | linkLoop => "Too many levels of symbolic links (os error 40)"
  | zeroInPath => "file name contained an unexpected NUL byte"

/-- Why a path cannot be examined, listed or read. -/
inductive IoError where
  | permissionDenied
  | noFile
  | noDirectory
  | os (e : OsError)
  /-- The operating system refused an entry that a walk came to. -/
  | refused (path : Path) (e : OsError)
  /-- The operating system refused to open a directory that a walk compares with those that it is in. -/
  | unopened (e : OsError)
  /-- The directory `path` is one of those that a walk is in, where it is called `ancestor`. -/
  | loop (path ancestor : Path)
  deriving DecidableEq, Repr

/-- The wording of an error. -/
def IoError.message : IoError → String
  | permissionDenied => "permission denied"
  | noFile => "no such file"
  | noDirectory => "no such directory"
  | os e => e.message
  | refused path e => "IO error for operation on " ++ path.text ++ ": " ++ e.message
  | unopened e => e.message
  | loop path ancestor =>
    "File system loop found: " ++ path.text ++ " points to an ancestor " ++ ancestor.text

/-- A path that could not be walked or read, and why. -/
structure Failure where
  path : Path
  cause : IoError
  deriving DecidableEq, Repr

/-- The wording of a failure. -/
def Failure.message (f : Failure) : String := "reading " ++ f.path.text ++ ": " ++ f.cause.message

end TypeFinder
