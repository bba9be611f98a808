import TypeFinder.IoError

/-! What a search reports of its progress. -/

namespace TypeFinder

/-- How much an event matters. -/
inductive Level where
  | debug
  | info
  | warn
  deriving DecidableEq, Repr

/-- The name of a level. -/
def Level.name : Level → String
  | debug => "DEBUG"
  | info => "INFO"
  | warn => "WARN"

/-- Something worth a line in a log. -/
inductive Event where
  /-- The walk through a root starts. -/
  | walking (root : Path)
  /-- A source file declares no type. -/
  | nothingIn (path : Path)
  /-- A source file declares so many types. -/
  | found (count : Nat) (path : Path)
  /-- A failure is passed over. -/
  | skipping (failure : Failure)
  /-- The settings of this file are in force. -/
  | usingConfig (path : Path)
  /-- None of the files with these names is there to hold settings. -/
  | noConfig (names : List String)
  /-- The search is over, and so many files declare types. -/
  | located (files : Nat)
  deriving DecidableEq, Repr

namespace Event

/-- How much the event matters. -/
def level : Event → Level
  | skipping _ => .warn
  | located _ => .info
  | _ => .debug

/-- The wording of an event. -/
def message : Event → String
  | walking root => "walking " ++ root.text
  | nothingIn path => "no type declarations in " ++ path.text
  | found count path => "found " ++ toString count ++ " declaration(s) in " ++ path.text
  | skipping failure => "skipping: " ++ failure.message
  | usingConfig path => "using config " ++ path.text
  | noConfig names => "no config file found (looked for " ++ ", ".intercalate names ++ "), using defaults"
  | located files => "located " ++ toString files ++ " file(s) declaring types"

end Event
end TypeFinder
