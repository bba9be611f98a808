import TypeFinder.Text.Lower

/-! What happens when a directory cannot be walked or a file cannot be read. -/

namespace TypeFinder

/-- A failure ends the search, or is passed over. -/
inductive Policy where
  | abort
  | skip
  deriving DecidableEq, Repr

namespace Policy

/-- The policy that a word names, in whatever case. -/
def ofWord? (word : String) : Option Policy :=
  match Text.lower word with
  | "abort" => some abort
  | "skip" => some skip
  | _ => none

/-- What is said of a word that names no policy. -/
def unknownMessage (word : String) : String := "unknown I/O error policy: " ++ word

end Policy
end TypeFinder
