import TypeFinder.Command.Given
import TypeFinder.Path

/-! Command lines: what there is to do, and the arguments that say so. -/

namespace TypeFinder

/-- The arguments of a scan. -/
structure ScanArguments where
  /-- The directories and files to scan. -/
  paths : List Path
  /-- The file that holds the settings. -/
  config : Option Path := none
  /-- The word for the form of the report. -/
  format : String := "pretty"
  followLinks : Bool := false
  /-- Failures are passed over, whatever the settings say. -/
  skipIoErrors : Bool := false
  deriving DecidableEq, Repr

/-- The arguments that start a file of settings. -/
structure InitArguments where
  /-- The file to write. -/
  output : Path := ⟨"classloc.yaml"⟩
  /-- A file that is there is written over. -/
  force : Bool := false
  deriving DecidableEq, Repr

/-- Something to do. -/
inductive Task where
  /-- Report the types that files declare. -/
  | scan (arguments : ScanArguments)
  /-- Write a file of settings to start from. -/
  | init (arguments : InitArguments)
  deriving DecidableEq, Repr

/-- What a command line asks for. -/
structure Command where
  /-- All events are shown. -/
  verbose : Bool
  task : Task
  deriving DecidableEq, Repr

namespace Command

/-- The scan that the arguments say. -/
def scanOf (g : Given) : Except Usage ScanArguments :=
  if g.values.isEmpty then .error .noPaths
  else
    .ok {
      paths := g.values.map Path.mk, config := (g.text? .config).map Path.mk,
      format := (g.text? .format).getD "pretty", followLinks := g.has .followLinks,
      skipIoErrors := g.has .skipIoErrors }

/-- The file of settings that the arguments say. -/
def initOf (g : Given) : InitArguments where
  output := ((g.text? .output).map Path.mk).getD ⟨"classloc.yaml"⟩
  force := g.has .force

/-- The command for the task of a part, from what stands in front of its name and behind it. -/
def ofPart (part : Part) (top behind : Given) : Except Usage Command := do
  let verbose := top.has .verbose || behind.has .verbose
  match part with
  | .top => .error .noTask
  | .scan => return { verbose, task := .scan (← scanOf behind) }
  | .init => return { verbose, task := .init (initOf behind) }

/-- Help on a task, or on help itself. -/
def helpOn : List String → Usage
  | [] => .help
  | [word] => if word = "help" ∨ (Part.ofWord? word).isSome then .help else .unknownTask
  | _ => .unknownTask

/-- The word behind a separator, where no task can be named any more. -/
def afterSeparator (g : Given) : List String → Usage
  | [] => if g.settings.isEmpty then .noArguments else .noTask
  | word :: _ => if word = "help" ∨ (Part.ofWord? word).isSome then .unknownArgument else .unknownTask

/-- The command that arguments ask for, behind those that were read. -/
def ofArgumentsFrom (g : Given) : List String → Except Usage Command
  | [] => .error (afterSeparator g [])
  | word :: rest =>
    match Part.ofWord? word with
    | some part => do ofPart part g (← Given.ofArguments part {} rest)
    | none =>
      if word = "help" then .error (helpOn rest)
      else
        match Argument.ofText word with
        | .separator => .error (afterSeparator g rest)
        | a => g.argument .top a >>= fun g => ofArgumentsFrom g rest

/-- The command that arguments ask for. -/
def ofArguments (arguments : List String) : Except Usage Command := ofArgumentsFrom {} arguments

end Command
end TypeFinder
