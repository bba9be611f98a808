import TypeFinder.Glob.Expr

/-! Patterns with the regular expressions that they are written as. A regular expression is a row of parts, and within a
    part there may be others: each row, choice, group, star and class around a part is one level more. Its automaton
    takes 32 bytes for a state, and a little more for a state that goes on in several ways. -/

namespace TypeFinder.Glob

/-- A pattern that is written out. -/
structure Pattern where
  expr : Expr
  /-- The regular expression. -/
  text : String
  /-- The number of its parts. -/
  parts : Nat
  /-- The number of levels within its parts. -/
  depth : Nat
  /-- The number of bytes that the states for it take. -/
  size : Nat
  deriving DecidableEq, Repr

/-- The byte as part of a regular expression. -/
def writtenByte (b : UInt8) : String :=
  let c := Char.ofNat b.toNat
  if 0x80 ≤ b then "\\x" ++ String.ofList [Nat.digitChar (b.toNat / 16), Nat.digitChar (b.toNat % 16)]
  else if "\\.+*?()|[]\x7b\x7d^$#&-~".toList.contains c then "\\" ++ c.toString
  else c.toString

/-- The bytes as parts of a regular expression. -/
def writtenBytes (bs : List UInt8) : String := String.join (bs.map writtenByte)

namespace Pattern

/-- These bytes. -/
def bytes (bs : List UInt8) : Pattern := ⟨.bytes bs, writtenBytes bs, bs.length, 0, 32 * bs.length⟩

/-- The patterns in a row. -/
def row (ps : List Pattern) : Pattern :=
  ⟨.all (ps.map (·.expr)), String.join (ps.map (·.text)), ps.foldl (fun n p => n + p.parts) 0,
    ps.foldl (fun n p => max n p.depth) 0, ps.foldl (fun n p => n + p.size) 0⟩

/-- The number of levels within the pattern, one of which is the row of its parts. -/
def levels (p : Pattern) : Nat := if p.parts < 2 then p.depth else p.depth + 1

/-- What the states take for patterns one of which is to match: one state before them and one behind, if there are
    several. -/
def choiceSize (sizes : List Nat) : Nat :=
  sizes.foldl (· + ·) 0 + if sizes.length < 2 then 0 else 64 + 4 * sizes.length

/-- One of the patterns. Each of them has its levels within a group and, if there are several, within a choice. -/
def choice (p : Pattern) (ps : List Pattern) : Pattern :=
  ⟨.any p.expr (ps.map (·.expr)), "(?:" ++ "|".intercalate ((p :: ps).map (·.text)) ++ ")", 1,
    (p :: ps).foldl (fun n q => max n q.levels) 0 + (if ps.isEmpty then 1 else 2),
    choiceSize ((p :: ps).map (·.size))⟩

/-- The regular expression for the whole of a text. -/
def wholeText (p : Pattern) : String := "(?-u)^" ++ p.text ++ "$"

/-- How deep a regular expression may be nested. -/
def maxLevels : Nat := 250

/-- The regular expression for the whole of a text, which is always a row, is nested too deep. -/
def isTooDeep (p : Pattern) : Bool := maxLevels < p.depth + 1

/-- How many bytes the automaton for some patterns may take. -/
def maxSize : Nat := 10485760

/-- The automaton that looks for several patterns at once, each of them in five states more, takes too many bytes. -/
def areTooLarge (ps : List Pattern) : Bool := maxSize < 32 + choiceSize (ps.map fun p => p.size + 160)

/-- Why patterns cannot be looked for. -/
inductive Fault where
  /-- The pattern with this number is nested too deep. -/
  | tooDeep (number : Nat)
  | tooLarge
  deriving DecidableEq, Repr

/-- The wording of a fault. -/
def Fault.message : Fault → String
  | tooDeep number => "error parsing pattern " ++ toString number
  | tooLarge => "error building NFA"

/-- What is wrong with patterns that are to be looked for at once. -/
def fault? (ps : List Pattern) : Option Fault :=
  match ps.findIdx? isTooDeep with
  | some n => some (.tooDeep n)
  | none => if areTooLarge ps then some .tooLarge else none

end Pattern
end TypeFinder.Glob
