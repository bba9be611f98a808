import TypeFinder.Config
import TypeFinder.FileSystem.Disk

/-! Files that hold settings: where they are looked for, and how they are read. -/

namespace TypeFinder

/-- Why the settings of a file cannot be used. -/
inductive ConfigError where
  | unreadable (path : Path) (cause : OsError)
  /-- The file is no text. -/
  | notText (path : Path)
  /-- The text holds no settings. -/
  | malformed (path : Path)
  | invalid (e : InvalidConfig)
  deriving DecidableEq, Repr

/-- The wording of an error. -/
def ConfigError.message : ConfigError → String
  | unreadable path cause => "reading config " ++ path.text ++ ": " ++ cause.message
  | notText path => "reading config " ++ path.text ++ ": stream did not contain valid UTF-8"
  | malformed path => "parsing config " ++ path.text ++ ": not a map of settings in YAML"
  | invalid e => "invalid config: " ++ e.message

namespace Config

/-- The names of files that are looked for, the first that is there being the one to use. -/
def fileNames : List String := ["classloc.yaml", ".classloc.yaml"]

/-- The file of settings in a directory. -/
def fileIn? (d : Disk) (directory : Path) : Option Path :=
  (fileNames.map fun name => directory.join ⟨name⟩).find? fun p => d.kind? p = some .file

/-- The settings in a file. -/
def ofFile (d : Disk) (path : Path) : Except ConfigError Config := do
  let contents ← (d.read path).mapError (.unreadable path)
  match String.fromUTF8? contents with
  | none => .error (.notText path)
  | some text =>
    match ofText? text with
    | none => .error (.malformed path)
    | some c => .ok c

/-- The settings in a file, checked, or the usual ones where there is no file. -/
def load (d : Disk) : Option Path → Except ConfigError Config
  | none => .ok {}
  | some path => do
    let c ← ofFile d path
    (c.validate.mapError .invalid).map fun _ => c

end Config
end TypeFinder
