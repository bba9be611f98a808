import TypeFinder.Report.Summary

/-! The names of the declared types, each on a line of its own. -/

namespace TypeFinder.Report

/-- The lines, each with a newline behind it. -/
def lines (ls : List String) : String := ls.foldl (fun out l => out ++ l ++ "\n") ""

/-- The names of all types that the files declare, one on each line. -/
def listing (files : List SourceFile) : String := lines (classes files)

end TypeFinder.Report
