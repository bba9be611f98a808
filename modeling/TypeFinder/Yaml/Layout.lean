import TypeFinder.Yaml.Scalar.Block
import TypeFinder.Yaml.Scalar.Plain
import TypeFinder.Yaml.Scalar.Quoted
import TypeFinder.Yaml.Token

/-! The tokens of a YAML text in order. Outside of flow collections, indentation says where lists and maps start and
    end. A key on one line has no mark of its own: it is known for one by the colon behind it, and the tokens for it
    are put in where it started. -/

namespace TypeFinder.Yaml

/-- A place where a key may have started. -/
structure KeySpot where
  /-- Nothing but a key may be here. -/
  required : Bool
  /-- The number of tokens before it. -/
  tokens : Nat
  index : Nat
  line : Nat
  column : Nat
  deriving DecidableEq, Repr

/-- The reading of a text so far. A margin is one more than the column that block collections are indented to, and
    zero outside of all. -/
structure Layout where
  place : Place
  /-- More than there are characters in the text. -/
  size : Nat
  /-- The tokens, last first. -/
  tokens : List Token := []
  /-- The number of tokens. -/
  count : Nat := 0
  margin : Nat := 0
  /-- The margins around. -/
  outer : List Nat := []
  /-- A key may start here. -/
  keyAllowed : Bool := true
  /-- Where a key may have started, outside of flow collections and in each of those that are open, innermost
      first. -/
  spots : List (Option KeySpot) := [none]
  deriving DecidableEq, Repr

namespace Layout

/-- A flow collection is open. -/
def inFlow (l : Layout) : Bool :=
  match l.spots with
  | _ :: _ :: _ => true
  | _ => false

/-- One token more. -/
def push (l : Layout) (t : Token) : Layout := { l with tokens := t :: l.tokens, count := l.count + 1 }

/-- This token behind the first `n`. -/
def insert (l : Layout) (n : Nat) (t : Token) : Layout :=
  let behind := l.count - n
  { l with tokens := l.tokens.take behind ++ t :: l.tokens.drop behind, count := l.count + 1 }

/-! ### Keys -/

/-- No key started in the collection at hand. It is an error if one had to. -/
def dropSpot (l : Layout) : Option Layout :=
  match l.spots with
  | some spot :: rest => if spot.required then none else some { l with spots := none :: rest }
  | _ => some l

/-- A key may start here, if one is allowed. -/
def markSpot (l : Layout) : Option Layout :=
  if l.keyAllowed then do
    let l ← l.dropSpot
    let p := l.place
    let spot : KeySpot :=
      ⟨!l.inFlow && l.margin == p.column + 1, l.count, p.index, p.line, p.column⟩
    return { l with spots := some spot :: l.spots.tail }
  else some l

/-- The key keeps to one line and is not too long. -/
def isFresh (p : Place) (spot : KeySpot) : Bool := p.line ≤ spot.line && p.index ≤ spot.index + 1024

/-- Gives up the place in the collection at hand if it is too far back for a key. It is an error if one had to start
    there. -/
def dropStale (l : Layout) : Option Layout :=
  match l.spots with
  | some spot :: _ => if isFresh l.place spot then some l else l.dropSpot
  | _ => some l

/-! ### Indentation -/

/-- Opens a block collection at this column, behind the first `n` tokens, unless one is open there. -/
def indent (l : Layout) (column n : Nat) (t : Token) : Layout :=
  if !l.inFlow && l.margin ≤ column then
    { l.insert n t with margin := column + 1, outer := l.margin :: l.outer }
  else l

/-- Closes the block collections down to this margin. -/
def closeTo (margin : Nat) : List Nat → Layout → Layout
  | [], l => l
  | m :: outer, l =>
    if margin < l.margin then closeTo margin outer { l.push .blockEnd with margin := m, outer := outer } else l

/-- Closes the block collections that are indented further than to this margin. -/
def unindent (l : Layout) (margin : Nat) : Layout := if l.inFlow then l else closeTo margin l.outer l

/-! ### Tokens -/

/-- Goes on to the next token, over white space and comments. Tabs may not indent a line where a key may start. The
    number bounds the lines. -/
def skipGap (l : Layout) : Nat → Layout
  | 0 => l
  | n + 1 =>
    let p := if l.place.column = 0 && l.place.isAt byteOrderMark then l.place.next else l.place
    let p := p.skipWhile fun c => c == ' ' || (l.inFlow || !l.keyAllowed) && c == '\t'
    let p := p.skipComment
    if p.isAtBreak then { l with place := p.nextLine, keyAllowed := l.keyAllowed || !l.inFlow }.skipGap n
    else { l with place := p }

/-- A token that is one character long. -/
def single (l : Layout) (t : Token) : Layout := { l.push t with place := l.place.next }

/-- A token that was read up to this place. -/
def readTo (l : Layout) (t : Token) (p : Place) : Layout := { l.push t with place := p }

/-- The mark of a document. -/
def documentMark (l : Layout) (t : Token) : Option Layout := do
  let l ← (l.unindent 0).dropSpot
  return { l.readTo t (l.place.skip 3) with keyAllowed := false }

/-- A flow collection opens. -/
def openFlow (l : Layout) (t : Token) : Option Layout := do
  let l ← l.markSpot
  return { l.single t with spots := none :: l.spots, keyAllowed := true }

/-- A flow collection closes. -/
def closeFlow (l : Layout) (t : Token) : Option Layout := do
  let l ← l.dropSpot
  return { l.single t with spots := if l.inFlow then l.spots.tail else l.spots, keyAllowed := false }

/-- The mark of an entry or a key in block context, which opens the collection that it is in. -/
def blockMark (l : Layout) (opening t : Token) (allowed : Bool) : Option Layout := do
  guard (l.inFlow || l.keyAllowed)
  let l ← (l.indent l.place.column l.count opening).dropSpot
  return { l.single t with keyAllowed := allowed }

/-- The colon before a value. -/
def valueMark (l : Layout) : Option Layout :=
  match l.spots with
  | some spot :: rest =>
    let l := (l.insert spot.tokens .key).indent spot.column spot.tokens .blockMapStart
    some { l.single .value with spots := none :: rest, keyAllowed := false }
  | _ => do
    guard (l.inFlow || l.keyAllowed)
    let l := l.indent l.place.column l.count .blockMapStart
    return { l.single .value with keyAllowed := !l.inFlow }

/-- A part of a node that stands on its own: what may start a key, and what is not followed by one. -/
def part (l : Layout) (read : Layout → Option (Token × Place)) : Option Layout := do
  let l ← l.markSpot
  let (t, p) ← read l
  return { l.readTo t p with keyAllowed := false }

/-- A block scalar. -/
def blockScalar (l : Layout) (style : Style) : Option Layout := do
  let l ← l.dropSpot
  let (text, p) ← block (style == .literal) l.margin l.size l.place
  return { l.readTo (.scalar style text) p with keyAllowed := true }

/-- A plain scalar. Behind one that went on over a line break a key may start. -/
def plainScalar (l : Layout) : Option Layout := do
  let l ← l.markSpot
  let s ← plain l.inFlow l.margin l.size l.place
  return { l.readTo (.scalar .plain s.text) s.place with keyAllowed := s.broken }

/-- The character may start a plain scalar. A hyphen may, before anything but a blank, and outside of flow collections
    a question mark or a colon. -/
def startsPlain (l : Layout) (c : Char) : Bool :=
  !(isBlank c || isBreak c || "-?:,[]\x7b\x7d#&*!|>'\"%@\x60".toList.contains c) ||
    c == '-' && !(l.place.peek? 1).any isBlank ||
    !l.inFlow && (c == '?' || c == ':') && !l.place.isGapAt 1

/-- The token that starts with the character `c` here. -/
def token (l : Layout) (c : Char) : Option Layout :=
  let p := l.place
  if p.column = 0 && c == '%' then do
    let l ← (l.unindent 0).dropSpot
    let (t, p) ← directive l.size p
    return { l.readTo t p with keyAllowed := false }
  else if p.isAtMark '-' then l.documentMark .documentStart
  else if p.isAtMark '.' then l.documentMark .documentEnd
  else if c = '[' then l.openFlow .flowListStart
  else if c = '\x7b' then l.openFlow .flowMapStart
  else if c = ']' then l.closeFlow .flowListEnd
  else if c = '\x7d' then l.closeFlow .flowMapEnd
  else if c = ',' then do
    let l ← l.dropSpot
    return { l.single .flowEntry with keyAllowed := true }
  else if c = '-' && p.isGapAt 1 then l.blockMark .blockListStart .blockEntry true
  else if c = '?' && (l.inFlow || p.isGapAt 1) then l.blockMark .blockMapStart .key (!l.inFlow)
  else if c = ':' && (l.inFlow || p.isGapAt 1) then l.valueMark
  else if c = '*' then l.part fun l => (anchorName l.place.next).map fun (name, p) => (.alias name, p)
  else if c = '&' then l.part fun l => (anchorName l.place.next).map fun (name, p) => (.anchor name, p)
  else if c = '!' then l.part fun l => tag l.inFlow l.size l.place
  else if c = '|' && !l.inFlow then l.blockScalar .literal
  else if c = '>' && !l.inFlow then l.blockScalar .folded
  else if c = '\'' || c = '"' then
    l.part fun l => (quoted (c == '\'') l.size l.place).map fun (text, p) => (.scalar .quoted text, p)
  else if l.startsPlain c then l.plainScalar
  else none

/-- All tokens. The number bounds them. -/
def run (l : Layout) : Nat → Option (List Token)
  | 0 => none
  | n + 1 => do
    let l ← (l.skipGap l.size).dropStale
    let l := l.unindent (l.place.column + 1)
    match l.place.peek? with
    | some c => (← l.token c).run n
    | none => return (← (l.unindent 0).dropSpot).tokens.reverse

/-- The text before its first token. -/
def start (chars : List Char) : Layout := { place := { rest := chars }, size := chars.length + 2 }

end Layout

/-- The tokens of a text, unless there is a fault in it. -/
def tokens (text : String) : Option (List Token) := do
  let chars := text.toList
  guard (chars.all isAllowed)
  let l := Layout.start chars
  l.run l.size

end TypeFinder.Yaml
