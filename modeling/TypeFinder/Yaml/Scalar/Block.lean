import TypeFinder.Yaml.Place

/-! Scalars that take whole lines. -/

namespace TypeFinder.Yaml

/-- What becomes of the line breaks at the end. -/
inductive Chomping where
  | strip
  | clip
  | keep
  deriving DecidableEq, Repr

/-- What stands behind the mark of a block scalar. -/
structure BlockHeader where
  chomping : Chomping
  /-- The indentation below the surrounding one, if it is given. -/
  indent : Option Nat
  place : Place

/-- The mark for the line breaks at the end, if it is here. -/
def chomping? (p : Place) : Option Chomping :=
  if p.isAt '+' then some .keep else if p.isAt '-' then some .strip else none

/-- The digit for the indentation, if it is here. -/
def indentDigit? (p : Place) : Option Nat :=
  (p.peek?.filter Char.isDigit).map fun c => c.toNat - '0'.toNat

/-- The marks behind the first one, in either order. An indentation of zero is none. -/
def blockHeader (p : Place) : Option BlockHeader := do
  let header : BlockHeader :=
    match chomping? p, indentDigit? p with
    | some k, _ => ⟨k, indentDigit? p.next, p.skip (1 + (indentDigit? p.next).toList.length)⟩
    | none, some d => ⟨(chomping? p.next).getD .clip, some d, p.skip (1 + (chomping? p.next).toList.length)⟩
    | none, none => ⟨.clip, none, p⟩
  guard (header.indent ≠ some 0)
  return header

/-- The empty lines here and the indentation behind them. -/
structure BlockBreaks where
  /-- The line breaks, last first. -/
  breaks : List Char
  /-- The largest column reached. -/
  reached : Nat
  place : Place

/-- Takes in the empty lines here. Only spaces may indent a line up to the column `indent`, or up to any column where
    that is not known. The number bounds the lines. -/
def blockBreaks (indent : Option Nat) : Nat → List Char → Nat → Place → Option BlockBreaks
  | 0, breaks, reached, p => some ⟨breaks, reached, p⟩
  | n + 1, breaks, reached, p =>
    let spaces := (p.rest.takeWhile (· == ' ')).length
    let p := p.skip (indent.elim spaces fun i => min spaces (i - p.column))
    let reached := max reached p.column
    if p.isAt '\t' && indent.all (p.column < ·) then none
    else if p.isAtBreak then blockBreaks indent n (p.breakText ++ breaks) reached p.nextLine
    else some ⟨breaks, reached, p⟩

/-- A block scalar so far. -/
structure BlockText where
  /-- The characters of its lines, last first. -/
  read : List Char := []
  /-- The line break of the last line. -/
  leading : List Char := []
  /-- The line breaks behind it, last first. -/
  trailing : List Char := []
  /-- The last line starts with a blank. -/
  blank : Bool := false

/-- The lines of a block scalar, indented to the column `indent`. The number bounds the lines. -/
def blockLines (literal : Bool) (indent : Nat) : Nat → BlockText → Place → Option (BlockText × Place)
  | 0, b, p => some (b, p)
  | n + 1, b, p =>
    if p.column = indent && !p.rest.isEmpty then do
      let blank := p.isAtBlank
      let join :=
        if !literal && b.leading = ['\n'] && !b.blank && !blank then
          if b.trailing = [] then [' '] else b.trailing
        else b.trailing ++ b.leading
      let (line, p) := p.takeWhile (! isBreak ·)
      let leading := p.breakText
      let p := if p.isAtBreak then p.nextLine else p
      let next ← blockBreaks (some indent) n [] 0 p
      blockLines literal indent n ⟨line.reverse ++ (join ++ b.read), leading, next.breaks, blank⟩ next.place
    else some (b, p)

/-- The block scalar whose mark is here, and the place behind it. The lines around it are indented to the column
    `margin - 1`. The number `size` bounds its lines. -/
def block (literal : Bool) (margin size : Nat) (p : Place) : Option (String × Place) := do
  let header ← blockHeader p.next
  let p := (header.place.skipWhile isBlank).skipComment
  guard p.isLineEnd
  let p := if p.isAtBreak then p.nextLine else p
  let given := header.indent.map fun d => margin - 1 + d
  let top ← blockBreaks given size [] 0 p
  let indent := given.getD (max (max top.reached margin) 1)
  let (b, p) ← blockLines literal indent size { trailing := top.breaks } top.place
  let last :=
    match header.chomping with
    | .strip => []
    | .clip => b.leading
    | .keep => b.trailing ++ b.leading
  return (String.ofList (last ++ b.read).reverse, p)

end TypeFinder.Yaml
