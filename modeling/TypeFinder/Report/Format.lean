import TypeFinder.Text.Lower
import TypeFinder.Text.Quoted

/-! The forms that a report takes. -/

namespace TypeFinder.Report

/-- The form of a report. -/
inductive Format where
  | pretty
  | json
  /-- One name on each line. -/
  | list
  deriving DecidableEq, Repr

namespace Format

/-- The format that a word names, in whatever case. -/
def ofWord? (word : String) : Option Format :=
  match Text.lower word with
  | "pretty" => some pretty
  | "json" => some json
  | "list" => some list
  | _ => none

/-- What is said of a word that names no format. -/
def invalidMessage (word : String) : String :=
  "invalid format " ++ Text.quoted word ++ ", must be 'pretty', 'json', or 'list'"

end Format
end TypeFinder.Report
