import TypeFinder.FileSystem
import TypeFinder.Policy
import TypeFinder.Text.Quoted

/-! What a search goes through: a directory, or files and directories one after the other. The places are looked at
    once, when the locator is made, and kept in their absolute form. -/

namespace TypeFinder

/-- What to search, as it was given. -/
inductive Source where
  | directory (path : Path)
  | entries (paths : List Path)
  deriving DecidableEq, Repr

/-- A place to search, with what it was found to be. -/
structure Root where
  path : Path
  kind : EntryKind
  deriving DecidableEq, Repr

/-- How to search. -/
structure SearchOptions where
  walk : WalkOptions := {}
  onFailure : Policy := .abort
  deriving DecidableEq, Repr

/-- The places to search, in order, and how. -/
structure Locator where
  roots : List Root
  options : SearchOptions := {}
  deriving DecidableEq, Repr

/-- Why nothing can be searched. -/
inductive InvalidSource where
  | notDirectory (path : Path)
  | noEntries
  | noSuchEntry (path : Path)
  | unresolved (path : Path) (cause : IoError)
  deriving DecidableEq, Repr

/-- The wording of an error. -/
def InvalidSource.message (e : InvalidSource) : String :=
  "invalid argument: " ++
    match e with
    | notDirectory path => "expected a valid directory name, got " ++ Text.quoted path.text
    | noEntries => "expected a non-empty sequence of files or directories"
    | noSuchEntry path => "entry " ++ Text.quoted path.text ++ " is not an existing file or directory"
    | unresolved path cause => "cannot resolve " ++ Text.quoted path.text ++ ": " ++ cause.message

namespace Locator
variable {σ : Type} [FileSystem σ]

/-- The place in its absolute form. -/
def resolve (fs : σ) (path : Path) (kind : EntryKind) : Except InvalidSource Root :=
  match FileSystem.absolute fs path with
  | .ok path => .ok ⟨path, kind⟩
  | .error cause => .error (.unresolved path cause)

/-- An entry that is a file or a directory. -/
def resolveEntry (fs : σ) (path : Path) : Except InvalidSource Root :=
  match FileSystem.kind? fs path with
  | some .file => resolve fs path .file
  | some .directory => resolve fs path .directory
  | _ => .error (.noSuchEntry path)

/-- The places that a source names. -/
def rootsOf (fs : σ) : Source → Except InvalidSource (List Root)
  | .directory path =>
    if FileSystem.kind? fs path = some .directory then (resolve fs path .directory).map ([·])
    else .error (.notDirectory path)
  | .entries [] => .error .noEntries
  | .entries paths => paths.mapM (resolveEntry fs)

/-- A locator of the source, if the source is there. -/
def ofSource (fs : σ) (source : Source) : Except InvalidSource Locator :=
  (rootsOf fs source).map fun roots => { roots }

end Locator
end TypeFinder
