import TypeFinder.Command
import TypeFinder.Command.Outcome
import TypeFinder.Config.File
import TypeFinder.FileSystem.Disk.Walk
import TypeFinder.Locator.Search
import TypeFinder.Report.Format
import TypeFinder.Report.Pretty

/-! The scan: the types that are declared in directories and files, as a report. The word for the form of the report
    is looked at first, then the settings, then the paths, and then the search is made. -/

namespace TypeFinder

/-- The wordings of an error and of what is behind it. -/
def IoError.causes : IoError → List String
  | .refused path e => [(IoError.refused path e).message, e.message]
  | .unopened e => [(IoError.unopened e).message, e.message]
  | e => [e.message]

/-- Why a scan has no result. -/
inductive ScanError where
  /-- The word names no form of a report. -/
  | format (word : String)
  | config (e : ConfigError)
  /-- The settings cannot be put to use. -/
  | options (e : InvalidConfig)
  | source (e : InvalidSource)
  | failure (f : Failure)
  deriving DecidableEq, Repr

/-- The wording of an error, with all that is behind it. -/
def ScanError.message : ScanError → String
  | format word => Report.Format.invalidMessage word
  | config e => e.message
  | options e => e.message
  | source e => e.message
  | failure f => ": ".intercalate (f.message :: f.cause.causes)

namespace ScanArguments

/-- The file with the settings in force: the one that is asked for, or else one in the current directory. -/
def configFile? (d : Disk) (a : ScanArguments) : Option Path := a.config.or (Config.fileIn? d ⟨"."⟩)

/-- The options of the search. What is asked for comes on top of the settings. -/
def searchOptions (a : ScanArguments) (c : Config) : Except InvalidConfig SearchOptions :=
  c.searchOptions.map fun o =>
    { walk := { o.walk with followLinks := a.followLinks || o.walk.followLinks },
      onFailure := if a.skipIoErrors then .skip else o.onFailure }

/-- What to search: one directory, or a sequence of entries. -/
def source (d : Disk) (a : ScanArguments) : Source :=
  match a.paths with
  | [path] => if d.kind? path = some .directory then .directory path else .entries [path]
  | paths => .entries paths

/-- The form of the report, and the search that is asked for. -/
def locator (d : Disk) (a : ScanArguments) : Except ScanError (Report.Format × Locator) := do
  match Report.Format.ofWord? a.format with
  | none => .error (.format a.format)
  | some form =>
    let config ← (Config.load d (a.configFile? d)).mapError .config
    let options ← (a.searchOptions config).mapError .options
    let l ← (Locator.ofSource d (a.source d)).mapError .source
    return (form, { l with options })

/-- The form of the report, and the files that declare types. -/
def files (d : Disk) (a : ScanArguments) : Except ScanError (Report.Format × List SourceFile) := do
  let (form, l) ← a.locator d
  return (form, ← (l.files d).mapError .failure)

/-- The event that tells which settings are in force. -/
def configEvent (d : Disk) (a : ScanArguments) : Event :=
  match a.configFile? d with
  | some path => .usingConfig path
  | none => .noConfig Config.fileNames

/-- The events of a scan. -/
def events (d : Disk) (a : ScanArguments) : List Event :=
  match Report.Format.ofWord? a.format with
  | none => []
  | some _ =>
    a.configEvent d ::
      match a.locator d with
      | .error _ => []
      | .ok (_, l) =>
        l.events d ++
          match l.files d with
          | .error _ => []
          | .ok files => [.located files.length]

/-- The report on the files that were found. -/
def report (d : Disk) (inColor : Bool) (a : ScanArguments) (files : List SourceFile) : Report.Format → String
  | .json => (Report.Summary.ofFiles a.paths files).json ++ "\n"
  | .list => Report.listing files
  | .pretty =>
    Report.pretty inColor a.paths
      (a.paths.map fun p =>
        match d.absolute p with
        | .ok q => q
        | .error _ => p)
      files

/-- Runs the scan. -/
def run (d : Disk) (inColor : Bool) (a : ScanArguments) : Command.Outcome :=
  match a.files d with
  | .error e => .failed e.message (a.events d)
  | .ok (form, files) =>
    { exit := if files.isEmpty then Command.Outcome.nothingFound else Command.Outcome.success,
      out := a.report d inColor files form, events := a.events d }

end ScanArguments
end TypeFinder
