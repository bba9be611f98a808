import TypeFinder.Event

/-! What running a command shows. -/

namespace TypeFinder.Command

/-- What running a command shows. -/
structure Outcome where
  /-- The exit status. -/
  exit : Nat
  /-- The text for the standard output. -/
  out : String := ""
  /-- The text for the standard error output. -/
  err : String := ""
  events : List Event := []
  deriving DecidableEq, Repr

namespace Outcome

/-- The exit status where something was found or done. -/
def success : Nat := 0

/-- The exit status where nothing was found. -/
def nothingFound : Nat := 1

/-- The exit status after an error. -/
def failure : Nat := 2

/-- An error, after these events. -/
def failed (message : String) (events : List Event) : Outcome where
  exit := failure
  err := "Error: " ++ message ++ "\n"
  events := events

end Outcome
end TypeFinder.Command
