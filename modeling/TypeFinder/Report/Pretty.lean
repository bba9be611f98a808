import TypeFinder.Report.Listing

/-! The result of a search as text for a terminal, grouped by file. -/

namespace TypeFinder.Report

/-- How a word may stand out on a terminal. -/
inductive Look where
  | bold
  | dimmed
  | green
  | yellow
  | cyan
  deriving DecidableEq, Repr

/-- The number that selects a look. -/
def Look.code : Look → Nat
  | bold => 1
  | dimmed => 2
  | green => 32
  | yellow => 33
  | cyan => 36

/-- Ends a look. -/
def resetLook : String := "\x1b[0m"

/-- The word in this look, where looks are in use. The look starts again behind a reset within the word. -/
def Look.apply (look : Look) (inUse : Bool) (word : String) : String :=
  if inUse then
    let start := "\x1b[" ++ toString look.code ++ "m"
    start ++ word.replace resetLook (resetLook ++ start) ++ resetLook
  else word

/-- The word with blanks in front, so that it is at least `width` long. -/
def alignRight (width : Nat) (word : String) : String :=
  String.ofList (List.replicate (width - word.length) ' ') ++ word

/-- A path as seen from the first of the bases that it is under, or in full where it is that base. -/
def shownPath (bases : List Path) (p : Path) : String :=
  match bases.findSome? p.relativeTo? with
  | some ⟨text⟩ => if text.isEmpty then p.text else text
  | none => p.text

/-- The line of a declared type. -/
def declarationLine (inUse : Bool) (d : Php.Declaration) : String :=
  "  " ++ Look.green.apply inUse (alignRight 9 d.kind.keyword) ++ " " ++ d.name ++ " " ++
    Look.dimmed.apply inUse (":" ++ toString d.line)

/-- The lines of a file. -/
def fileLines (inUse : Bool) (bases : List Path) (f : SourceFile) : List String :=
  [Look.cyan.apply inUse (shownPath bases f.path)] ++
    (if f.namespaces.isEmpty then []
      else ["  " ++ Look.dimmed.apply inUse "namespaces:" ++ " " ++ ", ".intercalate f.namespaces]) ++
    f.declarations.map (declarationLine inUse)

/-- The text for files found at these places. The bases are the absolute forms of the places. -/
def pretty (inUse : Bool) (roots bases : List Path) (files : List SourceFile) : String :=
  lines <|
    roots.map (fun r => Look.bold.apply inUse "Scanning" ++ " " ++ r.text) ++ [""] ++
      if files.isEmpty then [Look.yellow.apply inUse "No class files found"]
      else
        files.flatMap (fileLines inUse bases) ++
          ["", Look.bold.apply inUse "Found" ++ " " ++ toString (countClasses files) ++ " type(s) in " ++
            toString files.length ++ " file(s)"]

end TypeFinder.Report
