import TypeFinder.Yaml.Place

/-! White space within a scalar that may go over several lines: what it reads as is known when the next word is. -/

namespace TypeFinder.Yaml

/-- White space read so far. -/
structure Folding where
  /-- The blanks on the line of the word before, last first. -/
  blanks : List Char := []
  /-- The first line break. -/
  first : List Char := []
  /-- The line breaks behind the first, last first. -/
  more : List Char := []
  /-- The line of the word before was left. -/
  broken : Bool := false
  deriving DecidableEq, Repr

namespace Folding

/-- What the white space reads as between two words, last character first. A single newline reads as a space, and of
    several the first is dropped. -/
def reversed (f : Folding) : List Char :=
  if f.broken then
    if f.first = ['\n'] then if f.more = [] then [' '] else f.more
    else f.more ++ f.first
  else f.blanks

/-- Takes in the white space here. A tab may not stand before the column `margin` of a further line. The number
    bounds the characters taken. -/
def absorb (margin : Nat) : Nat → Folding → Place → Option (Folding × Place)
  | 0, f, p => some (f, p)
  | n + 1, f, p =>
    if p.isAtBlank then
      if f.broken then
        if p.isAt '\t' && p.column < margin then none else absorb margin n f p.next
      else absorb margin n { f with blanks := p.peek?.toList ++ f.blanks } p.next
    else if p.isAtBreak then
      if f.broken then absorb margin n { f with more := p.breakText ++ f.more } p.nextLine
      else absorb margin n { f with blanks := [], first := p.breakText, broken := true } p.nextLine
    else some (f, p)

end Folding
end TypeFinder.Yaml
