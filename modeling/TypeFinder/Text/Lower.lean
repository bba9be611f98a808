/-! Lower case, as far as words written in ASCII letters are concerned. -/

namespace TypeFinder.Text

/-- The two texts are equal up to the case of ASCII letters. -/
def equalIgnoringCase (s t : String) : Bool := s.toList.map Char.toLower == t.toList.map Char.toLower

/-- Lower case of a character that may be part of an ASCII word. Besides the ASCII capitals only the kelvin sign
    has an ASCII letter for its lower case. -/
def lowerChar (c : Char) : Char := if c = '\u212a' then 'k' else c.toLower

/-- A text whose full lower case is an ASCII word has this lower case, and no other text has. -/
def lower (s : String) : String := String.ofList (s.toList.map lowerChar)

end TypeFinder.Text
