import TypeFinder.Text.CharTable

/-! Quoted text for messages. A text stands between double quotes; a quote, a backslash and four controls
    have a two-character escape, every other character that would not show is written by its code point,
    and the rest stands for itself. -/

namespace TypeFinder.Text

/-- The characters written for `c` between the quotes. -/
def quotedChar (c : Char) : String :=
  match c with
  | '"' => "\\\""
  | '\\' => "\\\\"
  | '\n' => "\\n"
  | '\r' => "\\r"
  | '\t' => "\\t"
  | '\x00' => "\\0"
  | _ =>
    if c.toNat < 0x7f && 0x20 ≤ c.toNat then c.toString
    else if unprintable.contains c || extending.contains c then
      "\\u\x7b" ++ String.ofList (Nat.toDigits 16 c.toNat) ++ "\x7d"
    else c.toString

/-- The text between double quotes, with what would not show escaped. -/
def quoted (s : String) : String :=
  s.foldl (fun out c => out ++ quotedChar c) "\"" ++ "\""

end TypeFinder.Text
