import TypeFinder.Proofs.Php.Octets

/-! Reading the source by its bytes. A reader stands at a byte and goes on from there: it looks at bytes by index,
    takes slices of the bytes and of the text, and counts braces. Each of these may go wrong, and is checked: an index
    or a slice beyond the end, a slice that splits a character, a step back, a count below zero, a loop that does not
    go on. -/

namespace TypeFinder.Php

/-- What breaks the reading off. -/
inductive Fault where
  /-- A byte or a slice of bytes that is not there. -/
  | outOfRange
  /-- A slice of the text that does not start or end at a character. -/
  | splitCharacter
  /-- A step to a place before the one where the reader stands. -/
  | backwards
  /-- A count of braces below zero. -/
  | underflow
  /-- A loop that does not go on. -/
  | stuck
  deriving DecidableEq, Repr

namespace Reader

/-! ### Bytes and slices -/

def byteAt (bs : List Char) (i : Nat) : Except Fault Char :=
  match bs[i]? with
  | some b => .ok b
  | none => .error .outOfRange

/-- The bytes from an index on. -/
def bytesFrom (bs : List Char) (i : Nat) : Except Fault (List Char) :=
  if i ≤ bs.length then .ok (bs.drop i) else .error .outOfRange

def bytesBetween (bs : List Char) (i j : Nat) : Except Fault (List Char) :=
  if i ≤ j ∧ j ≤ bs.length then .ok ((bs.take j).drop i) else .error .outOfRange

/-- The text from a byte on. -/
def textFrom : List Char → Nat → Except Fault (List Char)
  | s, 0 => .ok s
  | [], _ + 1 => .error .outOfRange
  | c :: r, n + 1 =>
    let size := (octets [c]).length
    if size ≤ n + 1 then textFrom r (n + 1 - size) else .error .splitCharacter

def textBetween (s : List Char) (i j : Nat) : Except Fault (List Char) := do
  let behind ← textFrom s i
  let rest ← textFrom s j
  if i ≤ j then return behind.take (behind.length - rest.length) else throw .outOfRange

/-! ### Loops over bytes -/

/-- The first index from `i` on where `p` does not hold. -/
def skipWhile (p : Char → Bool) (bs : List Char) (i : Nat) : Except Fault Nat :=
  if i < bs.length then do
    let b ← byteAt bs i
    if p b then skipWhile p bs (i + 1) else return i
  else return i
termination_by bs.length - i

/-- The number of bytes from `i` on that `p` holds of. -/
def runLength (p : Char → Bool) (bs : List Char) (i : Nat) : Except Fault Nat := do
  let rest ← bytesFrom bs i
  return (rest.takeWhile p).length

/-- The place of the word in the bytes, if it is there. -/
def position? (word : List Char) : List Char → Option Nat
  | [] => none
  | b :: r => if word.isPrefixOf (b :: r) then some 0 else (position? word r).map (· + 1)

/-- The first index from `i` on where the word stands. -/
def find? (word bs : List Char) (i : Nat) : Except Fault (Option Nat) :=
  if bs.length ≤ i then return none
  else do
    let rest ← bytesFrom bs i
    return (position? word rest).map (i + ·)

/-- The index behind the open tag that ends inline HTML. -/
def tagEnd (bs : List Char) (i : Nat) : Except Fault (Option Nat) :=
  if i + 1 < bs.length then do
    let b ← byteAt bs i
    let next ← byteAt bs (i + 1)
    if b = '<' ∧ next = '?' then
      if i + 5 ≤ bs.length then
        let word ← bytesBetween bs (i + 2) (i + 5)
        if word.map Char.toLower = ['p', 'h', 'p'] then return some (i + 5)
        else if bs[i + 2]? = some '=' then return some (i + 3)
        else tagEnd bs (i + 1)
      else if bs[i + 2]? = some '=' then return some (i + 3)
      else tagEnd bs (i + 1)
    else tagEnd bs (i + 1)
  else return none
termination_by bs.length - i

/-- The index where a line comment ends. -/
def lineEnd (bs : List Char) (i : Nat) : Except Fault Nat :=
  if i < bs.length then do
    let b ← byteAt bs i
    if b = '\n' then return i
    else if b = '?' ∧ bs[i + 1]? = some '>' then return i
    else lineEnd bs (i + 1)
  else return i
termination_by bs.length - i

/-- The index behind the block comment that starts at `i`. -/
def blockEnd (bs : List Char) (i : Nat) : Except Fault Nat := do
  match ← find? ['*', '/'] bs (i + 2) with
  | some k => return k + 2
  | none => return bs.length

/-- The index behind a single-quoted literal. -/
def singleEnd (bs : List Char) (i : Nat) : Except Fault Nat :=
  if i < bs.length then do
    let b ← byteAt bs i
    if b = '\\' then singleEnd bs (i + 2)
    else if b = '\'' then return i + 1
    else singleEnd bs (i + 1)
  else return i
termination_by bs.length - i

/-- The index behind the brace that closes the last of `depth` open ones. -/
def braceEnd (depth : Nat) (bs : List Char) (i : Nat) : Except Fault Nat :=
  if i < bs.length then do
    let b ← byteAt bs i
    if b = '{' then braceEnd (depth + 1) bs (i + 1)
    else if b = '}' then
      if depth = 0 then throw .underflow
      else if depth - 1 = 0 then return i + 1
      else braceEnd (depth - 1) bs (i + 1)
    else braceEnd depth bs (i + 1)
  else return bs.length
termination_by bs.length - i

/-- The index behind a literal between two signs `quote`. -/
def interpolatedEnd (quote : Char) (bs : List Char) (i : Nat) : Except Fault Nat :=
  if i < bs.length then do
    let b ← byteAt bs i
    if b = '\\' then interpolatedEnd quote bs (i + 2)
    else if b = '{' ∧ bs[i + 1]? = some '$' then
      let stop ← braceEnd 0 bs i
      if i < stop then interpolatedEnd quote bs stop else throw .stuck
    else if b = quote then return i + 1
    else interpolatedEnd quote bs (i + 1)
  else return i
termination_by bs.length - i

/-- The index behind the label that closes a heredoc, from the start of a line on. -/
def closingEnd (label bs : List Char) (start : Nat) : Except Fault Nat :=
  if start < bs.length then do
    let i ← skipWhile isBlank bs start
    let rest ← bytesFrom bs i
    if label.isPrefixOf rest && !(bs[i + label.length]?).any isNameChar then return i + label.length
    else
      match ← find? ['\n'] bs i with
      | none => return bs.length
      | some k => if start ≤ k then closingEnd label bs (k + 1) else throw .stuck
  else return bs.length
termination_by bs.length - start

/-- The index behind the heredoc that starts at `i`, if one does. -/
def heredocEnd? (s bs : List Char) (i : Nat) : Except Fault (Option Nat) := do
  let text ← textFrom s i
  match heredocOpener? (text.drop 3) with
  | none => return none
  | some (label, n) =>
    let stop ← closingEnd (octets label) bs (i + (octets (text.take (3 + n))).length)
    return some stop

/-! ### One piece -/

/-- What starts at `i` with the sign of a heredoc, and the index behind it. -/
def angleAt (s bs : List Char) (i : Nat) : Except Fault (Shape × Nat) := do
  let rest ← bytesFrom bs i
  if ['<', '<', '<'].isPrefixOf rest then
    match ← heredocEnd? s bs i with
    | some stop => return (.gap .heredoc, stop)
    | none => return (.token .other, i + 3)
  else return (.token .other, i + 1)

/-- What starts at `i` with the byte `b` in PHP code, and the index behind it. -/
def shapeAt (s bs : List Char) (i : Nat) (b : Char) : Except Fault (Shape × Nat) :=
  let next := bs[i + 1]?
  if b = '?' ∧ next = some '>' then .ok (.closeTag, i + 2)
  else if b = '?' ∧ next = some '-' ∧ bs[i + 2]? = some '>' then .ok (.token .objectOperator, i + 3)
  else if b = '/' ∧ next = some '/' then (lineEnd bs i).map (.gap .lineComment, ·)
  else if b = '/' ∧ next = some '*' then (blockEnd bs i).map (.gap .blockComment, ·)
  else if b = '#' ∧ next = some '[' then .ok (.token .other, i + 1)
  else if b = '#' then (lineEnd bs i).map (.gap .lineComment, ·)
  else if b = '\'' then (singleEnd bs (i + 1)).map (.gap .singleQuoted, ·)
  else if b = '"' ∨ b = backtick then (interpolatedEnd b bs (i + 1)).map (.gap .interpolated, ·)
  else if b = '<' then angleAt s bs i
  else if b = '$' ∧ next.any isNameStart then
    (runLength isNameChar bs (i + 1)).map fun n => (.token .variable, i + (1 + n))
  else if b = ':' ∧ next = some ':' then .ok (.token .doubleColon, i + 2)
  else if b = ':' then .ok (.token .colon, i + 1)
  else if b = '-' ∧ next = some '>' then .ok (.token .objectOperator, i + 2)
  else if b = '{' then .ok (.token .openBrace, i + 1)
  else if b = '}' then .ok (.token .closeBrace, i + 1)
  else if b = ';' then .ok (.token .semicolon, i + 1)
  else if b = separator ∧ next.any isNameStart ∨ isNameStart b then
    (runLength isQualifiedChar bs i).map fun n => (.token .name, i + n)
  else if b.isDigit then (runLength isNumberChar bs i).map fun n => (.token .other, i + n)
  else .ok (.token .other, i + 1)

/-! ### The reader -/

/-- Where the reader stands, and how it reads on. -/
structure State where
  pos : Nat
  line : Nat
  mode : Mode
  deriving DecidableEq, Repr

/-- The reader before the first byte. -/
def State.start : State := ⟨0, 1, .html⟩

/-- The reader at another place, with the newlines on the way counted. It stops where the bytes end. -/
def State.advanceTo (st : State) (bs : List Char) (target : Nat) : Except Fault State := do
  let stop := min target bs.length
  if st.pos ≤ stop then return { st with pos := stop, line := st.line + ((bs.take stop).drop st.pos).count '\n' }
  else throw .backwards

/-- What a turn of the loop comes to. -/
inductive Turn where
  /-- There is no token any more. -/
  | finished
  /-- There was no token so far. -/
  | again
  | token (p : Placed)
  deriving DecidableEq, Repr

/-- The token of a kind between two places of the reader. -/
def tokenAt (s : List Char) (st behind : State) (kind : TokenKind) : Except Fault Placed := do
  let text ← textBetween s st.pos behind.pos
  return ⟨⟨kind, String.ofList text, st.line⟩, st.pos, behind.pos⟩

/-- What the piece between two places of the reader makes of the turn. -/
def turnBy (s : List Char) (st behind : State) : Shape → Except Fault (Turn × State)
  | .gap _ => .ok (.again, behind)
  | .token kind => (tokenAt s st behind kind).map fun p => (.token p, behind)
  | .closeTag => (tokenAt s st behind .semicolon).map fun p => (.token p, { behind with mode := .html })

/-- One turn of the loop, from the piece that starts here with the byte `b`. -/
def readPiece (s : List Char) (st : State) (b : Char) : Except Fault (Turn × State) := do
  let (shape, stop) ← shapeAt s (octets s) st.pos b
  let behind ← st.advanceTo (octets s) stop
  turnBy s st behind shape

def readCode (s : List Char) (st : State) : Except Fault (Turn × State) := do
  let i ← skipWhile isSpace (octets s) st.pos
  let st ← st.advanceTo (octets s) i
  match (octets s)[st.pos]? with
  | none => return (.finished, st)
  | some b => readPiece s st b

/-- One turn of the loop in inline HTML, where the open tag ends so many bytes on, or where there is none. -/
def readHtml (s : List Char) (st : State) : Option Nat → Except Fault (Turn × State)
  | none => do
    let st ← st.advanceTo (octets s) (octets s).length
    return (.finished, st)
  | some n => do
    let st ← st.advanceTo (octets s) (st.pos + n)
    readCode s { st with mode := .code }

def turn (s : List Char) (st : State) : Except Fault (Turn × State) :=
  match st.mode with
  | .code => readCode s st
  | .html => do
    let rest ← bytesFrom (octets s) st.pos
    readHtml s st (← tagEnd rest 0)

/-- The next token, if there is one. -/
def next (s : List Char) (st : State) : Except Fault (Option Placed × State) :=
  match turn s st with
  | .error f => .error f
  | .ok (.finished, st') => .ok (none, st')
  | .ok (.token p, st') => .ok (some p, st')
  | .ok (.again, st') =>
    if st.pos < st'.pos ∧ st'.pos ≤ (octets s).length then next s st' else .error .stuck
termination_by (octets s).length - st.pos

def readAll (s : List Char) (st : State) : Except Fault (List Placed) :=
  match next s st with
  | .error f => .error f
  | .ok (none, _) => .ok []
  | .ok (some p, st') =>
    if st.pos < st'.pos ∧ st'.pos ≤ (octets s).length then (readAll s st').map (p :: ·) else .error .stuck
termination_by (octets s).length - st.pos

end Reader
end TypeFinder.Php
