import TypeFinder.Yaml.Scalar.Folding

/-! Scalars without quotes. -/

namespace TypeFinder.Yaml

/-- The character is an indicator of flow collections. -/
def isFlowIndicator (c : Char) : Bool := c == ',' || c == '[' || c == ']' || c == '\x7b' || c == '\x7d'

/-- How many characters of the text belong to a word of a plain scalar, behind the `n` before. A colon may not stand
    before an indicator of the flow collection that the scalar is in. -/
def wordLength (flow : Bool) (n : Nat) : List Char → Option Nat
  | [] => some n
  | c :: r =>
    if isBlank c || isBreak c then some n
    else if flow && c == ':' && r.head?.any fun d => isFlowIndicator d || d == '?' then none
    else if c == ':' && r.head?.all fun d => isBlank d || isBreak d then some n
    else if flow && isFlowIndicator c then some n
    else wordLength flow (n + 1) r

/-- A scalar that was read. -/
structure PlainText where
  text : String
  /-- The scalar was left on a further line. -/
  broken : Bool
  place : Place

/-- The rest of a plain scalar, behind the characters read, last first, and the white space behind them. In block
    context its lines are indented to the column `margin`. The number bounds the words. -/
def plainFrom (flow : Bool) (margin : Nat) : Nat → List Char → Folding → Place → Option PlainText
  | 0, read, f, p => some ⟨String.ofList read.reverse, f.broken, p⟩
  | n + 1, read, f, p =>
    if p.isAtDocumentMark || p.isAt '#' then some ⟨String.ofList read.reverse, f.broken, p⟩
    else do
      let length ← wordLength flow 0 p.rest
      let word := p.rest.take length
      let p := p.skip length
      let (read, f) := if length = 0 then (read, f) else (word.reverse ++ (f.reversed ++ read), {})
      if !p.isAtBlank && !p.isAtBreak then return ⟨String.ofList read.reverse, f.broken, p⟩
      let (f, p) ← f.absorb margin n p
      if !flow && p.column < margin then return ⟨String.ofList read.reverse, f.broken, p⟩
      plainFrom flow margin n read f p

/-- The plain scalar here. The number bounds its characters. -/
def plain (flow : Bool) (margin size : Nat) (p : Place) : Option PlainText := plainFrom flow margin size [] {} p

end TypeFinder.Yaml
