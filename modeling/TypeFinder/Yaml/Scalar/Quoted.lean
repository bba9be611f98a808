import TypeFinder.Yaml.Scalar.Folding

/-! Scalars between quotes. -/

namespace TypeFinder.Yaml

/-- The character that a backslash and this one stand for. -/
def escaped? : Char → Option Char
  | '0' => some '\x00'
  | 'a' => some '\x07'
  | 'b' => some '\x08'
  | 't' | '\t' => some '\t'
  | 'n' => some '\n'
  | 'v' => some '\x0b'
  | 'f' => some '\x0c'
  | 'r' => some '\r'
  | 'e' => some '\x1b'
  | ' ' => some ' '
  | '"' => some '"'
  | '/' => some '/'
  | '\\' => some '\\'
  | 'N' => some '\x85'
  | '_' => some '\xa0'
  | 'L' => some '\u2028'
  | 'P' => some '\u2029'
  | _ => none

/-- How many digits follow a backslash and this character. -/
def codeLength? : Char → Option Nat
  | 'x' => some 2
  | 'u' => some 4
  | 'U' => some 8
  | _ => none

/-- The value of a hexadecimal digit. -/
def hexDigit? (c : Char) : Option Nat :=
  if c.isDigit then some (c.toNat - '0'.toNat)
  else if 'a' ≤ c ∧ c ≤ 'f' then some (c.toNat - 'a'.toNat + 10)
  else if 'A' ≤ c ∧ c ≤ 'F' then some (c.toNat - 'A'.toNat + 10)
  else none

/-- The number that hexadecimal digits stand for. -/
def hexValue? (digits : List Char) : Option Nat :=
  digits.foldlM (fun n c => (hexDigit? c).map (n * 16 + ·)) 0

/-- The character with this code, if it is one. -/
def charOfCode? (n : Nat) : Option Char :=
  if n < 0xD800 ∨ 0xDFFF < n ∧ n ≤ 0x10FFFF then some (Char.ofNat n) else none

/-- What the escape at the place stands for, and the place behind it. -/
def escape? (p : Place) : Option (Char × Place) := do
  let c ← p.peek? 1
  match codeLength? c with
  | none => return (← escaped? c, p.skip 2)
  | some n =>
    let digits := (p.rest.drop 2).take n
    guard (digits.length = n)
    return (← charOfCode? (← hexValue? digits), p.skip (2 + n))

/-- A run of characters without white space within a quoted scalar, behind what was read before. -/
structure QuotedRun where
  /-- The characters of the scalar so far, last first. -/
  read : List Char
  /-- The run ends at an escaped line break, which reads as nothing. -/
  broken : Bool
  place : Place

/-- The quote that encloses the scalar. -/
def quoteOf (single : Bool) : Char := if single then '\'' else '"'

/-- The run of characters here, behind those read, last first. The number bounds the characters. -/
def quotedRun (single : Bool) : Nat → List Char → Place → Option QuotedRun
  | 0, read, p => some ⟨read, false, p⟩
  | n + 1, read, p =>
    if p.isGapAt then some ⟨read, false, p⟩
    else if single && p.isAt '\'' && p.isAt '\'' 1 then quotedRun single n ('\'' :: read) (p.skip 2)
    else if p.isAt (quoteOf single) then some ⟨read, false, p⟩
    else if !single && p.isAt '\\' then
      if p.next.isAtBreak then some ⟨read, true, p.next.nextLine⟩
      else do
        let (c, p) ← escape? p
        quotedRun single n (c :: read) p
    else quotedRun single n (p.peek?.toList ++ read) p.next

/-- The rest of a quoted scalar, behind the characters read, last first, and the place behind its closing quote. The
    number bounds the runs. -/
def quotedFrom (single : Bool) : Nat → List Char → Place → Option (String × Place)
  | 0, _, _ => none
  | n + 1, read, p =>
    if p.isAtDocumentMark || p.rest.isEmpty then none
    else do
      let run ← quotedRun single n read p
      if run.place.isAt (quoteOf single) then return (String.ofList run.read.reverse, run.place.next)
      let (f, p) ← Folding.absorb 0 n { broken := run.broken } run.place
      quotedFrom single n (f.reversed ++ run.read) p

/-- The scalar behind the quote here. The number bounds its characters. -/
def quoted (single : Bool) (size : Nat) (p : Place) : Option (String × Place) := quotedFrom single size [] p.next

end TypeFinder.Yaml
