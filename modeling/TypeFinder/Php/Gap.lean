import TypeFinder.Php.Name

/-! Text that yields no token: inline HTML, comments, quoted literals and heredocs. Each region has a function
    that says how many characters of a text belong to it; the count in front of the text is what was taken
    before. A region that is not closed takes the whole text. -/

namespace TypeFinder.Php

/-- The whitespace of PHP code. -/
def isSpace (c : Char) : Bool := c == ' ' || c == '\t' || c == '\n' || c == '\r' || c == '\x0c'

/-- The whitespace that keeps to a line. -/
def isBlank (c : Char) : Bool := c == ' ' || c == '\t'

/-! ### Inline HTML -/

/-- The length of the open tag at the head of the text, if there is one. The letters of the long form may be
    capitals. -/
def openTag? : List Char → Option Nat
  | '<' :: '?' :: r =>
    if (r.take 3).map Char.toLower = ['p', 'h', 'p'] then some 5
    else if r.head? = some '=' then some 3
    else none
  | _ => none

/-- Inline HTML, up to and with the first open tag. -/
def htmlLength (n : Nat) : List Char → Nat
  | [] => n
  | c :: r =>
    match openTag? (c :: r) with
    | some k => n + k
    | none => htmlLength (n + 1) r

/-! ### Comments -/

/-- The rest of a line comment, which ends before a newline and before a closing tag. -/
def lineCommentLength (n : Nat) : List Char → Nat
  | [] => n
  | c :: r => if c = '\n' ∨ c = '?' ∧ r.head? = some '>' then n else lineCommentLength (n + 1) r

/-- The rest of a block comment, with the mark that closes it. -/
def blockCommentLength (n : Nat) : List Char → Nat
  | [] => n
  | c :: r => if c = '*' ∧ r.head? = some '/' then n + 2 else blockCommentLength (n + 1) r

/-! ### Quoted literals -/

/-- The rest of a single-quoted literal, with its closing quote. A backslash takes the next character along. -/
def singleQuotedLength (n : Nat) : List Char → Nat
  | [] => n
  | [_] => n + 1
  | c :: d :: r =>
    if c = '\\' then singleQuotedLength (n + 2) r
    else if c = '\'' then n + 1
    else singleQuotedLength (n + 1) (d :: r)

/-- The brace depth behind a character of an interpolated expression. -/
def braceDepth (depth : Nat) (c : Char) : Nat :=
  if c = '{' then depth + 1 else if c = '}' then depth - 1 else depth

/-- The rest of a literal between `quote`s, with the closing one. A backslash takes the next character along.
    A `{` before a `$` opens an expression that runs to the brace that balances it; within one, at brace
    depth `depth`, only braces count. -/
def interpolatedLength (quote : Char) (depth n : Nat) : List Char → Nat
  | [] => n
  | [_] => n + 1
  | c :: d :: r =>
    if 0 < depth then interpolatedLength quote (braceDepth depth c) (n + 1) (d :: r)
    else if c = '\\' then interpolatedLength quote 0 (n + 2) r
    else if c = '{' ∧ d = '$' then interpolatedLength quote 1 (n + 1) (d :: r)
    else if c = quote then n + 1
    else interpolatedLength quote 0 (n + 1) (d :: r)

/-! ### Heredocs -/

/-- The length of the line end at the head of the text, if there is one. -/
def lineEnd? : List Char → Option Nat
  | '\n' :: _ => some 1
  | '\r' :: '\n' :: _ => some 2
  | _ => none

/-- What follows the `<<<` of a heredoc or nowdoc: blanks, a label that may stand between two quotes of either
    kind, and a line end. The label and the length of all this. -/
def heredocOpener? (s : List Char) : Option (List Char × Nat) :=
  let blanks := s.takeWhile isBlank
  let s := s.drop blanks.length
  let quote := (s.head?.filter fun c => c = '"' ∨ c = '\'').toList
  let s := s.drop quote.length
  let label := s.takeWhile isNameChar
  let s := s.drop label.length
  if label.head?.any isNameStart && quote.isPrefixOf s then
    (lineEnd? (s.drop quote.length)).map fun n =>
      (label, blanks.length + quote.length + label.length + quote.length + n)
  else none

/-- The label stands at the head of the text, and not as the start of a longer name. -/
def isClosedBy (label s : List Char) : Bool :=
  label.isPrefixOf s && !(s.drop label.length).head?.any isNameChar

/-- The lines of a heredoc, up to and with the label that closes it: the first that has only blanks before it on
    its line. `margin` says that there are only blanks so far on this line. -/
def heredocLength (label : List Char) (margin : Bool) (n : Nat) : List Char → Nat
  | [] => n
  | c :: r =>
    if margin && isClosedBy label (c :: r) then n + label.length
    else heredocLength label (c = '\n' || margin && isBlank c) (n + 1) r

end TypeFinder.Php
