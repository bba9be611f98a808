import TypeFinder.Php.Piece
import TypeFinder.Text.Lower

/-! Tokens: the pieces of a source text that are not gaps. -/

namespace TypeFinder.Php

/-- A token with its text and the line that it starts on. -/
structure Token where
  kind : TokenKind
  text : String
  line : Nat
  deriving DecidableEq, Repr

/-- The token that a piece is, if it is one. -/
def Piece.token? (p : Piece) : Option Token :=
  match p.shape with
  | .gap _ => none
  | .token kind => some ⟨kind, String.ofList p.text, p.line⟩
  | .closeTag => some ⟨.semicolon, String.ofList p.text, p.line⟩

/-- The tokens of a source text. -/
def tokens (source : String) : List Token := (pieces source).filterMap Piece.token?

namespace Token

/-- The token is this word, in whatever case. -/
def isKeyword (t : Token) (word : String) : Bool := t.kind == .name && Text.equalIgnoringCase t.text word

/-- What follows the token is the name of a member. -/
def isMemberAccess (t : Token) : Bool := t.kind == .doubleColon || t.kind == .objectOperator

end Token
end TypeFinder.Php
