import TypeFinder.Report.Listing

/-! Why the arguments of a command line give nothing to do. -/

namespace TypeFinder.Command

/-- The name and the version of the program, on a line. -/
def versionLine : String := "classloc " ++ Report.programVersion ++ "\n"

/-- Why there is nothing to do. -/
inductive Usage where
  /-- Help is asked for. -/
  | help
  /-- The version is asked for. -/
  | version
  /-- There is no argument. -/
  | noArguments
  /-- No task is named. -/
  | noTask
  /-- A word stands where a task should be named. -/
  | unknownTask
  /-- There is no such setting here, or no place for a value. -/
  | unknownArgument
  /-- A setting that needs no value has one. -/
  | unneededValue
  /-- A setting is given twice. -/
  | repeated
  /-- A setting has no value, or a path is empty. -/
  | invalidValue
  /-- No path to scan is given. -/
  | noPaths
  deriving DecidableEq, Repr

namespace Usage

/-- The exit status: nothing is wrong where help or the version is asked for. -/
def exit : Usage → Nat
  | help | version => 0
  | _ => 2

/-- What is wrong, in words. -/
def complaint : Usage → String
  | help | version => ""
  | noArguments | noTask => "no command is given"
  | unknownTask => "there is no such command"
  | unknownArgument => "there is no such argument"
  | unneededValue => "a flag takes no value"
  | repeated => "an argument is given twice"
  | invalidValue => "a value is missing"
  | noPaths => "no path to scan is given"

/-- How the program is used. -/
def guide : List String := [
  "Locate PHP files that declare classes, interfaces, traits and enums.",
  "",
  "Usage: classloc [-v] scan <PATH>... [-c <FILE>] [-f <FORMAT>] [--follow-links] [--skip-io-errors]",
  "       classloc [-v] init [-o <FILE>] [--force]",
  "",
  "  -c, --config <FILE>    the settings (otherwise looked for in the current directory)",
  "  -f, --format <FORMAT>  pretty, json or list",
  "      --follow-links     follow symbolic links",
  "      --skip-io-errors   continue past unreadable files instead of stopping",
  "  -o, --output <FILE>    the file of settings to write",
  "      --force            overwrite an existing file",
  "  -v, --verbose          show all events",
  "  -h, --help             show this text",
  "  -V, --version          show the version"]

/-- What is shown instead of doing something. -/
def message : Usage → String
  | help => Report.lines guide
  | version => versionLine
  | u => Report.lines (("error: " ++ u.complaint) :: "" :: guide)

end Usage
end TypeFinder.Command
