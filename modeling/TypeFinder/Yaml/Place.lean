/-! Places in a YAML text: what is ahead, and where that is. -/

namespace TypeFinder.Yaml

/-- The character may stand in a YAML text. -/
def isAllowed (c : Char) : Bool :=
  let n := c.toNat
  n == 0x09 || n == 0x0A || n == 0x0D || 0x20 ≤ n && n ≤ 0x7E || n == 0x85 || 0xA0 ≤ n && n ≤ 0xFFFD || 0x10000 ≤ n

/-- The character ends a line. -/
def isBreak (c : Char) : Bool := c == '\n' || c == '\r' || c == '\x85' || c == '\u2028' || c == '\u2029'

/-- A space or a tab. -/
def isBlank (c : Char) : Bool := c == ' ' || c == '\t'

/-- The character may be part of an anchor and of the handle of a tag. -/
def isWordChar (c : Char) : Bool := c.isAlphanum || c == '_' || c == '-'

/-- Marks the order of bytes. At the start of a line it means nothing, and yet it takes a column. -/
def byteOrderMark : Char := '\ufeff'

/-- The number of bytes that the characters take. -/
def byteCount (cs : List Char) : Nat := cs.foldl (fun n c => n + c.utf8Size) 0

/-- A place in a text. -/
structure Place where
  rest : List Char
  /-- The number of bytes before the place. -/
  index : Nat := 0
  line : Nat := 0
  /-- The number of characters before the place on its line. -/
  column : Nat := 0
  deriving DecidableEq, Repr

namespace Place

/-- The character `n` places on. -/
def peek? (p : Place) (n : Nat := 0) : Option Char := p.rest[n]?

/-- The character `n` places on is this one. -/
def isAt (p : Place) (c : Char) (n : Nat := 0) : Bool := p.peek? n == some c

/-- There is a blank, a line break or the end of the text `n` places on. -/
def isGapAt (p : Place) (n : Nat := 0) : Bool := (p.peek? n).all fun c => isBlank c || isBreak c

/-- There is a line break or the end of the text here. -/
def isLineEnd (p : Place) : Bool := p.peek?.all isBreak

/-- There is a line break here. -/
def isAtBreak (p : Place) : Bool := p.peek?.any isBreak

/-- There is a space or a tab here. -/
def isAtBlank (p : Place) : Bool := p.peek?.any isBlank

/-- Some characters on, on the same line. -/
def skip (p : Place) (n : Nat) : Place :=
  { p with rest := p.rest.drop n, index := p.index + byteCount (p.rest.take n), column := p.column + n }

/-- One character on, on the same line. -/
def next (p : Place) : Place := p.skip 1

/-- Behind the line break here. -/
def nextLine (p : Place) : Place :=
  let n := if p.isAt '\r' && p.isAt '\n' 1 then 2 else 1
  { rest := p.rest.drop n, index := p.index + byteCount (p.rest.take n), line := p.line + 1, column := 0 }

/-- What the line break here reads as. Most of them read as a newline. -/
def breakText (p : Place) : List Char :=
  match p.peek? with
  | some '\u2028' => ['\u2028']
  | some '\u2029' => ['\u2029']
  | some c => if isBreak c then ['\n'] else []
  | none => []

/-- The characters ahead for which `f` holds, and the place behind them. -/
def takeWhile (p : Place) (f : Char → Bool) : List Char × Place :=
  let text := p.rest.takeWhile f
  (text, p.skip text.length)

/-- Behind the characters for which `f` holds. -/
def skipWhile (p : Place) (f : Char → Bool) : Place := (p.takeWhile f).2

/-- Behind a comment, if there is one here. -/
def skipComment (p : Place) : Place := if p.isAt '#' then p.skipWhile (! isBreak ·) else p

/-- A line starts here with three of these characters and nothing right behind them. -/
def isAtMark (p : Place) (c : Char) : Bool :=
  p.column == 0 && p.isAt c && p.isAt c 1 && p.isAt c 2 && p.isGapAt 3

/-- A document starts or ends here. -/
def isAtDocumentMark (p : Place) : Bool := p.isAtMark '-' || p.isAtMark '.'

end Place
end TypeFinder.Yaml
