/-! JSON text with each element and each field on a line of its own, two spaces deeper than what encloses it. -/

namespace TypeFinder.Text.Json

/-- The characters written for `c` in a string. -/
def escaped (c : Char) : String :=
  match c with
  | '"' => "\\\""
  | '\\' => "\\\\"
  | '\n' => "\\n"
  | '\r' => "\\r"
  | '\t' => "\\t"
  | '\x08' => "\\b"
  | '\x0c' => "\\f"
  | _ =>
    if c.toNat < 0x20 then
      "\\u00" ++ String.ofList [Nat.digitChar (c.toNat / 16), Nat.digitChar (c.toNat % 16)]
    else c.toString

/-- A value, as the text that it has at each depth. -/
abbrev Writer := Nat → String

/-- A string. -/
def string (s : String) : Writer := fun _ => s.foldl (fun out c => out ++ escaped c) "\"" ++ "\""

/-- A natural number. -/
def number (n : Nat) : Writer := fun _ => toString n

/-- The start of a line at this depth. -/
def newLine (depth : Nat) : String := "\n" ++ String.ofList (List.replicate (2 * depth) ' ')

/-- Parts between two marks, or the marks alone if there are no parts. -/
def enclosed (first last : String) (parts : List Writer) : Writer := fun depth =>
  if parts.isEmpty then first ++ last
  else
    first ++ newLine (depth + 1) ++ ("," ++ newLine (depth + 1)).intercalate (parts.map (· (depth + 1))) ++
      newLine depth ++ last

/-- A list. -/
def array (elements : List Writer) : Writer := enclosed "[" "]" elements

/-- A record. -/
def object (fields : List (String × Writer)) : Writer :=
  enclosed "\x7b" "\x7d" (fields.map fun (name, value) depth => string name depth ++ ": " ++ value depth)

end TypeFinder.Text.Json
