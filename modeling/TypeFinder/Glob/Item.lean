import TypeFinder.Glob.Pattern

/-! The items that a glob is written in, and the pattern over bytes that each stands for. -/

namespace TypeFinder.Glob

/-- An item of a glob. -/
inductive Item where
  | literal (c : Char)
  /-- A question mark. -/
  | anyByte
  /-- A star. -/
  | anyBytes
  /-- Two stars and a slash at the start: any directories, or none. -/
  | leadingDirs
  /-- A slash and two stars at the end: anything below. -/
  | trailingDirs
  /-- Two stars between slashes: any directories, or none. -/
  | innerDirs
  /-- A class of characters, as closed ranges. -/
  | oneOf (negated : Bool) (ranges : List (Char × Char))
  /-- Alternatives between braces, or none if all of them are empty. -/
  | group (alternatives : Option Pattern)
  deriving DecidableEq, Repr

/-- The bytes of a character. -/
def bytesOf (c : Char) : List UInt8 := String.utf8EncodeChar c

/-- The bytes that a range of characters stands for. Of a character that is not ASCII each byte is a member; a
    range goes from the last byte of its first character to the first byte of its last. -/
def rangeBytes (lo hi : Char) : ByteSet :=
  let whole (bs : List UInt8) := bs.map fun b => (b, b)
  if lo = hi then whole (bytesOf lo)
  else
    let a := bytesOf lo
    let b := bytesOf hi
    whole a.dropLast ++ (a.getLastD 0, b.headD 0) :: whole b.tail

namespace Item

/-- The pattern of a slash. -/
def slash : Expr := .bytes [0x2f]

/-- A range of characters as a regular expression writes it. -/
def writtenRange (lo hi : Char) : String :=
  if lo = hi then writtenBytes (bytesOf lo) else writtenBytes (bytesOf lo) ++ "-" ++ writtenBytes (bytesOf hi)

/-- The pattern of an item, or none if the item writes nothing. -/
def pattern? : Item → Option Pattern
  | literal c => some (.bytes (bytesOf c))
  | anyByte => some ⟨.byte true [], ".", 1, 0, 72⟩
  | anyBytes => some ⟨.anything, ".*", 1, 1, 112⟩
  | leadingDirs => some ⟨.any .empty [slash, .all [.anything, slash]], "(?:/?|.*/)", 1, 4, 320⟩
  | trailingDirs => some ⟨.all [slash, .anything], "/.*", 2, 1, 144⟩
  | innerDirs => some ⟨.any slash [.all [slash, .anything, slash]], "(?:/|/.*/)", 1, 4, 280⟩
  | oneOf negated ranges =>
    let set : ByteSet := ranges.flatMap fun (lo, hi) => rangeBytes lo hi
    let text := String.join (ranges.map fun (lo, hi) => writtenRange lo hi)
    some ⟨.byte negated set, (if negated then "[^" else "[") ++ text ++ "]", 1, if set.length < 2 then 1 else 2, 72⟩
  | group alternatives => alternatives

/-- The pattern of items in a row, or none if they write nothing. -/
def row? (items : List Item) : Option Pattern :=
  match items.filterMap pattern? with
  | [] => none
  | ps => some (.row ps)

/-- The group of these alternatives, the empty ones dropped. -/
def ofAlternatives (alternatives : List (List Item)) : Item :=
  match alternatives.filterMap row? with
  | [] => group none
  | p :: ps => group (some (.choice p ps))

/-- The pattern of a whole glob. Two stars alone match everything. -/
def whole (items : List Item) : Pattern :=
  if items = [leadingDirs] then ⟨.anything, ".*", 1, 1, 112⟩ else .row (items.filterMap pattern?)

/-- A single character that stands for itself. -/
def isLiteral : Item → Bool
  | literal _ => true
  | _ => false

/-- The items are any directories or a star, and then the end of a text that a path is to end in. A dot alone behind a
    star, and a name alone behind directories, are not looked at in this way. -/
def isEnding : List Item → Bool
  | leadingDirs :: anyBytes :: rest | anyBytes :: rest => rest.all isLiteral && rest != [literal '.']
  | leadingDirs :: rest => rest.all isLiteral && rest.contains (literal '/')
  | _ => false

/-- The items end in a dot that is looked for in the name of a path, and not in its whole text. -/
def endInNameDot (items : List Item) : Bool :=
  items.getLast? == some (literal '.') && !items.all isLiteral && !isEnding items

/-! ### What is looked for -/

/-- What a glob looks for in paths. -/
inductive Form where
  /-- A text that a path is, or that it starts or ends with. No pattern is needed for it. -/
  | text
  /-- An extension, and then a pattern. -/
  | extension
  | pattern
  deriving DecidableEq, Repr

/-- Characters, and nothing else. -/
def isText (items : List Item) : Bool := !items.isEmpty && items.all isLiteral

/-- The items are a text that a path starts with. -/
def isStart (items : List Item) : Bool :=
  match items.reverse with
  | anyBytes :: rest => isText rest
  | trailingDirs :: rest => rest.all isLiteral
  | _ => false

/-- The items are a text that a path is or ends with. A slash behind a star is none. -/
def isEnd : List Item → Bool
  | leadingDirs :: anyBytes :: rest | anyBytes :: rest => isText rest && rest != [literal '/']
  | leadingDirs :: rest | rest => isText rest

/-- The items end in a dot and characters other than a slash. -/
def haveExtension (items : List Item) : Bool :=
  (items.reverse.takeWhile fun i => i.isLiteral && i != literal '/').contains (literal '.')

/-- What a glob with these items looks for. -/
def form (items : List Item) : Form :=
  if isStart items || isEnd items then .text else if haveExtension items then .extension else .pattern

end Item
end TypeFinder.Glob
