/-! The shapes of an argument on a command line. -/

namespace TypeFinder.Command

/-- What an argument looks like. -/
inductive Argument where
  /-- Two dashes alone. All arguments behind them are values. -/
  | separator
  /-- A name behind two dashes, perhaps with a value behind an equals sign. -/
  | long (name : String) (value : Option String)
  /-- Letters behind one dash. -/
  | short (letters : List Char)
  /-- Anything else, such as a lone dash. -/
  | plain (text : String)
  deriving DecidableEq, Repr

/-- The shape of an argument. -/
def Argument.ofText (text : String) : Argument :=
  match text.toList with
  | ['-', '-'] => separator
  | '-' :: '-' :: cs =>
    long (String.ofList (cs.takeWhile (· ≠ '=')))
      (match cs.dropWhile (· ≠ '=') with
        | [] => none
        | _ :: value => some (String.ofList value))
  | '-' :: c :: cs => short (c :: cs)
  | _ => plain text

end TypeFinder.Command
