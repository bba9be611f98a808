import TypeFinder.Yaml.Place

/-! Tokens of a YAML text, and those of them that take no layout into account: directives, anchors and tags. -/

namespace TypeFinder.Yaml

/-- How a scalar is written. -/
inductive Style where
  | plain
  | quoted
  | literal
  | folded
  deriving DecidableEq, Repr

/-- The bytes that a tag stands for. They need not be a text. -/
abbrev Tag := List UInt8

/-- The text of a tag, if it is one. -/
def Tag.text? (t : Tag) : Option String := String.fromUTF8? ⟨t.toArray⟩

/-- A token. -/
inductive Token where
  | versionDirective (major minor : Nat)
  /-- The tags that start with the handle start with these bytes in full. -/
  | tagDirective (handle : String) (full : Tag)
  | documentStart
  | documentEnd
  | blockListStart
  | blockMapStart
  /-- The end of a block list or map. -/
  | blockEnd
  | flowListStart
  | flowListEnd
  | flowMapStart
  | flowMapEnd
  /-- A comma between the parts of a flow collection. -/
  | flowEntry
  /-- The mark of an entry of a block list. -/
  | blockEntry
  /-- What follows is a key. -/
  | key
  /-- What follows is a value. -/
  | value
  | alias (name : String)
  | anchor (name : String)
  | tag (handle : String) (rest : Tag)
  | scalar (style : Style) (text : String)
  deriving DecidableEq, Repr

/-! ### Anchors -/

/-- The character may stand right behind an anchor or an alias. -/
def endsAnchor (c : Char) : Bool :=
  isBlank c || isBreak c || c == '?' || c == ':' || c == ',' || c == ']' || c == '\x7d' || c == '%' || c == '@' ||
    c == '\x60'

/-- The name of an anchor or an alias, behind its mark, and the place behind it. -/
def anchorName (p : Place) : Option (String × Place) := do
  let (name, p) := p.takeWhile isWordChar
  guard (!name.isEmpty && p.peek?.all endsAnchor)
  return (String.ofList name, p)

/-! ### Tags -/

/-- The character may stand in a tag. The flow indicators may stand in one between angle brackets. -/
def isTagChar (bracketed : Bool) (c : Char) : Bool :=
  isWordChar c || ";/?:@&=+$.%!~*'()".toList.contains c || bracketed && (c == ',' || c == '[' || c == ']')

/-- The value of the escaped byte here, and the place behind it. -/
def escapedByte? (p : Place) : Option (UInt8 × Place) :=
  match p.rest with
  | '%' :: a :: b :: _ => do
    let digit (c : Char) : Option Nat :=
      if c.isDigit then some (c.toNat - '0'.toNat)
      else if 'a' ≤ c.toLower ∧ c.toLower ≤ 'f' then some (c.toLower.toNat - 'a'.toNat + 10)
      else none
    return ((← digit a) * 16 + (← digit b) |>.toUInt8, p.skip 3)
  | _ => none

/-- How many bytes the character has that this byte starts. -/
def widthOf? (b : UInt8) : Option Nat :=
  if b &&& 0x80 = 0x00 then some 1
  else if b &&& 0xE0 = 0xC0 then some 2
  else if b &&& 0xF0 = 0xE0 then some 3
  else if b &&& 0xF8 = 0xF0 then some 4
  else none

/-- The escaped bytes here that continue a character, and the place behind them. -/
def continuation? : Nat → Place → Option (Tag × Place)
  | 0, p => some ([], p)
  | n + 1, p => do
    let (b, p) ← escapedByte? p
    guard (b &&& 0xC0 = 0x80)
    let (bs, p) ← continuation? n p
    return (b :: bs, p)

/-- The bytes that the characters here stand for, behind those read, last first, and the place behind them. A percent
    sign starts the escaped bytes of one character, of which only the number is looked at. The number bounds the
    characters. -/
def tagBytes (bracketed : Bool) : Nat → Tag → Place → Option (Tag × Place)
  | 0, read, p => some (read.reverse, p)
  | n + 1, read, p =>
    match p.rest with
    | c :: _ =>
      if c = '%' then do
        let (b, p) ← escapedByte? p
        let (bs, p) ← continuation? ((← widthOf? b) - 1) p
        tagBytes bracketed n (bs.reverse ++ b :: read) p
      else if isTagChar bracketed c then tagBytes bracketed n ((String.utf8EncodeChar c).reverse ++ read) p.next
      else some (read.reverse, p)
    | [] => some (read.reverse, p)

/-- The bytes up to the first zero, which ends a tag. -/
def upToZero (bs : Tag) : Tag := bs.takeWhile (· ≠ 0)

/-- The part of a tag that is here, of which there must be something, and the place behind it. -/
def tagPart (bracketed : Bool) (size : Nat) (p : Place) : Option (Tag × Place) := do
  let (bs, p) ← tagBytes bracketed size [] p
  guard !bs.isEmpty
  return (upToZero bs, p)

/-- The handle of a tag: an exclamation mark, and more of them behind a word. -/
def tagHandle (p : Place) : Option (List Char × Place) := do
  guard (p.isAt '!')
  let (word, p) := p.next.takeWhile isWordChar
  if p.isAt '!' then return ('!' :: word ++ ['!'], p.next) else return ('!' :: word, p)

/-- The tag here, and the place behind it. The number bounds its characters. -/
def tag (flow : Bool) (size : Nat) (p : Place) : Option (Token × Place) := do
  let (token, p) ←
    if p.isAt '<' 1 then do
      let (text, p) ← tagPart true size (p.skip 2)
      guard (p.isAt '>')
      pure (Token.tag "" text, p.next)
    else do
      let (handle, p) ← tagHandle p
      if 1 < handle.length && handle.getLast? = some '!' then
        let (text, p) ← tagPart false size p
        pure (Token.tag (String.ofList handle) text, p)
      else
        let (bs, p) ← tagBytes false size (handle.tail.flatMap String.utf8EncodeChar).reverse p
        let text := upToZero bs
        pure (if text.isEmpty then Token.tag "" (String.utf8EncodeChar '!') else Token.tag "!" text, p)
  guard (p.isGapAt || flow && p.isAt ',')
  return (token, p)

/-! ### Directives -/

/-- A number of at most nine digits, and the place behind it. -/
def versionNumber (p : Place) : Option (Nat × Place) := do
  let (digits, p) := p.takeWhile Char.isDigit
  guard (!digits.isEmpty && digits.length ≤ 9)
  return (digits.foldl (fun n c => n * 10 + (c.toNat - '0'.toNat)) 0, p)

/-- The directive whose mark is here, and the place behind its line. The number bounds its characters. -/
def directive (size : Nat) (p : Place) : Option (Token × Place) := do
  let (name, p) := p.next.takeWhile isWordChar
  guard p.isGapAt
  let (token, p) ←
    match String.ofList name with
    | "YAML" => do
      let (major, p) ← versionNumber (p.skipWhile isBlank)
      guard (p.isAt '.')
      let (minor, p) ← versionNumber p.next
      pure (Token.versionDirective major minor, p)
    | "TAG" => do
      let (handle, p) ← tagHandle (p.skipWhile isBlank)
      guard ((handle = ['!'] || 1 < handle.length && handle.getLast? = some '!') && p.isAtBlank)
      let (text, p) ← tagPart true size (p.skipWhile isBlank)
      guard p.isGapAt
      pure (Token.tagDirective (String.ofList handle) text, p)
    | _ => none
  let p := (p.skipWhile isBlank).skipComment
  guard p.isLineEnd
  return (token, if p.isAtBreak then p.nextLine else p)

end TypeFinder.Yaml
