import TypeFinder.Php.Gap

/-! Source text cut into pieces. Each piece is a token or a gap; their texts, one after the other, are the
    source, so that nothing is dropped and nothing is read twice. A piece is never empty. -/

namespace TypeFinder.Php

/-- Kinds of tokens. -/
inductive TokenKind where
  /-- An identifier or keyword, possibly qualified. -/
  | name
  /-- A `$` with its name. -/
  | variable
  | openBrace
  | closeBrace
  /-- A semicolon or a closing tag, which also ends a statement. -/
  | semicolon
  | colon
  | doubleColon
  /-- An arrow, nullsafe or not. -/
  | objectOperator
  /-- A number, or any character that means nothing here. -/
  | other
  deriving DecidableEq, Repr

/-- Kinds of text between tokens. -/
inductive Gap where
  /-- Text outside of PHP code, up to and with an open tag. -/
  | html
  | space
  | lineComment
  | blockComment
  | singleQuoted
  /-- A literal between double quotes or backticks. -/
  | interpolated
  | heredoc
  deriving DecidableEq, Repr

/-- What a piece of the source is. -/
inductive Shape where
  | gap (kind : Gap)
  | token (kind : TokenKind)
  /-- The tag that ends PHP code. -/
  | closeTag
  deriving DecidableEq, Repr

/-- The source is read as inline HTML or as PHP code. -/
inductive Mode where
  | html
  | code
  deriving DecidableEq, Repr

/-- How the source is read behind a piece: only a closing tag leaves PHP code. -/
def Shape.after : Shape → Mode
  | .closeTag => .html
  | _ => .code

/-- The character may follow the first one of a name token. -/
def isQualifiedChar (c : Char) : Bool := isNameChar c || c == separator

/-- The character may follow the first digit of a number. -/
def isNumberChar (c : Char) : Bool := c.isAlphanum || c == '_' || c == '.'

/-- Encloses a shell command, which is read like a double-quoted literal. -/
def backtick : Char := '\x60'

/-- What starts with `c` in PHP code where `r` follows, and how many characters of `r` belong to it. -/
def codeShape (c : Char) (r : List Char) : Shape × Nat :=
  let d := r.head?
  if isSpace c then (.gap .space, (r.takeWhile isSpace).length)
  else if c = '?' ∧ d = some '>' then (.closeTag, 1)
  else if c = '?' ∧ ['-', '>'].isPrefixOf r then (.token .objectOperator, 2)
  else if c = '/' ∧ d = some '/' then (.gap .lineComment, lineCommentLength 0 r)
  else if c = '/' ∧ d = some '*' then (.gap .blockComment, blockCommentLength 1 r.tail)
  else if c = '#' ∧ d = some '[' then (.token .other, 0)
  else if c = '#' then (.gap .lineComment, lineCommentLength 0 r)
  else if c = '\'' then (.gap .singleQuoted, singleQuotedLength 0 r)
  else if c = '"' ∨ c = backtick then (.gap .interpolated, interpolatedLength c 0 0 r)
  else if c = '<' ∧ ['<', '<'].isPrefixOf r then
    match heredocOpener? (r.drop 2) with
    | some (label, n) => (.gap .heredoc, heredocLength label true (2 + n) (r.drop (2 + n)))
    | none => (.token .other, 2)
  else if c = '$' ∧ d.any isNameStart then (.token .variable, (r.takeWhile isNameChar).length)
  else if c = ':' ∧ d = some ':' then (.token .doubleColon, 1)
  else if c = ':' then (.token .colon, 0)
  else if c = '-' ∧ d = some '>' then (.token .objectOperator, 1)
  else if c = '{' then (.token .openBrace, 0)
  else if c = '}' then (.token .closeBrace, 0)
  else if c = ';' then (.token .semicolon, 0)
  else if isNameStart c ∨ c = separator ∧ d.any isNameStart then
    (.token .name, (r.takeWhile isQualifiedChar).length)
  else if c.isDigit then (.token .other, (r.takeWhile isNumberChar).length)
  else (.token .other, 0)

/-- What starts with `c` where `r` follows, and how many characters of `r` belong to it. -/
def shape (m : Mode) (c : Char) (r : List Char) : Shape × Nat :=
  match m with
  | .html => (.gap .html, htmlLength 0 (c :: r) - 1)
  | .code => codeShape c r

/-- A piece of the source: its first character, the others and the line that it starts on. -/
structure Piece where
  shape : Shape
  first : Char
  others : List Char
  line : Nat
  deriving DecidableEq, Repr

/-- The characters of the piece. -/
def Piece.text (p : Piece) : List Char := p.first :: p.others

/-- The pieces of a text that starts on line `line`, behind those cut before, which are in reverse. -/
def piecesFrom (done : List Piece) (m : Mode) (line : Nat) : List Char → List Piece
  | [] => done.reverse
  | c :: r =>
    let (kind, n) := shape m c r
    let p : Piece := ⟨kind, c, r.take n, line⟩
    piecesFrom (p :: done) kind.after (line + p.text.count '\n') (r.drop n)
termination_by s => s.length
decreasing_by simp only [List.length_drop, List.length_cons]; omega

/-- The pieces of a source text, which starts as inline HTML on line 1. -/
def pieces (source : String) : List Piece := piecesFrom [] .html 1 source.toList

end TypeFinder.Php
