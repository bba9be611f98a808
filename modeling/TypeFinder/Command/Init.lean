import TypeFinder.Command
import TypeFinder.Command.Outcome
import TypeFinder.Config.Template
import TypeFinder.FileSystem.Disk

/-! The start of a file of settings. The directories above the file are made where they are missing. -/

namespace TypeFinder

/-- Why no file of settings was written. -/
inductive InitError where
  | alreadyThere (path : Path)
  | noDirectory (cause : OsError)
  | notWritten (cause : OsError)
  deriving DecidableEq, Repr

/-- The wording of an error. -/
def InitError.message : InitError → String
  | alreadyThere path => "file already exists: " ++ path.text ++ "\nRemove it or pass --force to overwrite"
  | noDirectory cause => "failed to create directory: " ++ cause.message
  | notWritten cause => "failed to write config: " ++ cause.message

namespace InitArguments

/-- The directory above the file, if the path names one other than the current directory. -/
def directory? (a : InitArguments) : Option Path :=
  a.output.parent?.filter fun p => !p.text.isEmpty && !p.same ⟨"."⟩

/-- The directories above the file. -/
def makeDirectory (d : Disk) (a : InitArguments) : Disk × Except OsError Unit :=
  match a.directory? with
  | some p => d.makeDirectoryAll p
  | none => (d, .ok ())

/-- The disk with the file written. Directories that were made stay when that fails. -/
def write (d : Disk) (a : InitArguments) : Disk × Except InitError Unit :=
  if (d.kind? a.output).isSome && !a.force then (d, .error (.alreadyThere a.output))
  else
    match a.makeDirectory d with
    | (d, .error e) => (d, .error (.noDirectory e))
    | (d, .ok _) =>
      match d.write a.output Config.template.toUTF8 with
      | .error e => (d, .error (.notWritten e))
      | .ok d => (d, .ok ())

/-- What is said of a file that was written. -/
def advice (a : InitArguments) : String :=
  let output := a.output.text
  "Created " ++ output ++ "\n\nNext steps:\n" ++
    "  1. Edit " ++ output ++ " to exclude vendor or cache directories\n" ++
    "  2. Run: classloc scan . --config " ++ output ++ "\n"

/-- Writes the file. -/
def run (d : Disk) (a : InitArguments) : Disk × Command.Outcome :=
  match a.write d with
  | (d, .error e) => (d, .failed e.message [])
  | (d, .ok _) => (d, { exit := Command.Outcome.success, out := a.advice })

end InitArguments
end TypeFinder
