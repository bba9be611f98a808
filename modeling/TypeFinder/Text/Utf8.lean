/-! Text from bytes that should be UTF-8 but may not be. A byte that cannot continue the character begun before
    it ends that character: what was begun becomes one replacement character, and the byte is looked at
    afresh. -/

namespace TypeFinder.Text

/-- What a byte sequence that is no character is read as. -/
def replacement : Char := '\ufffd'

/-- Where the decoder stands between two bytes. -/
inductive Pending where
  /-- Between characters. -/
  | none
  /-- Within a character whose bits so far are `bits`: `owed` bytes follow, the next of them from `low` to
      `high`. -/
  | some (bits owed low high : Nat)

/-- A byte that stands where a character starts: what is pending after it, and the character if it is whole. -/
def firstByte (b : Nat) : Pending × Option Char :=
  if b < 0x80 then (.none, Char.ofNat b)
  else if 0xC2 ≤ b ∧ b ≤ 0xDF then (.some (b - 0xC0) 1 0x80 0xBF, none)
  else if b = 0xE0 then (.some 0 2 0xA0 0xBF, none)
  else if 0xE1 ≤ b ∧ b ≤ 0xEC then (.some (b - 0xE0) 2 0x80 0xBF, none)
  else if b = 0xED then (.some 0xD 2 0x80 0x9F, none)
  else if 0xEE ≤ b ∧ b ≤ 0xEF then (.some (b - 0xE0) 2 0x80 0xBF, none)
  else if b = 0xF0 then (.some 0 3 0x90 0xBF, none)
  else if 0xF1 ≤ b ∧ b ≤ 0xF3 then (.some (b - 0xF0) 3 0x80 0xBF, none)
  else if b = 0xF4 then (.some 4 3 0x80 0x8F, none)
  else (.none, replacement)

/-- One byte more, with the characters read so far in reverse. -/
def decodeByte (read : List Char) (p : Pending) (b : Nat) : Pending × List Char :=
  match p with
  | .none => let (q, c) := firstByte b; (q, c.toList ++ read)
  | .some bits owed low high =>
    if low ≤ b ∧ b ≤ high then
      let bits := bits * 64 + (b - 0x80)
      if owed ≤ 1 then (.none, Char.ofNat bits :: read) else (.some bits (owed - 1) 0x80 0xBF, read)
    else
      let (q, c) := firstByte b
      (q, c.toList ++ replacement :: read)

/-- Characters of the bytes, in reverse, behind those read before. -/
def decodeReverse (read : List Char) (p : Pending) : List UInt8 → List Char
  | [] =>
    match p with
    | .none => read
    | .some .. => replacement :: read
  | b :: rest => let (q, read) := decodeByte read p b.toNat; decodeReverse read q rest

/-- The characters of the bytes, with a replacement character for each longest start of a character that does
    not become one, and for each byte that starts none. -/
def decode (bytes : List UInt8) : List Char := (decodeReverse [] .none bytes).reverse

/-- The text that the bytes hold. -/
def ofBytes (b : ByteArray) : String := String.ofList (decode b.data.toList)

end TypeFinder.Text
