/-! Names in PHP code: the characters that make them up, qualified names and the last segment of one. -/

namespace TypeFinder.Php

/-- A name may start with this character: an ASCII letter, an underscore or anything that is not ASCII. -/
def isNameStart (c : Char) : Bool := c.isAlpha || c == '_' || 0x80 ≤ c.toNat

/-- A name may go on with this character: one that it may start with, or a digit. -/
def isNameChar (c : Char) : Bool := c.isAlphanum || c == '_' || 0x80 ≤ c.toNat

/-- Separates the segments of a qualified name. -/
def separator : Char := '\\'

/-- The rest of a qualified name, with `fresh` where a segment is to start. -/
def isQualifiedFrom (fresh : Bool) : List Char → Bool
  | [] => !fresh
  | c :: r =>
    if c = separator then !fresh && isQualifiedFrom true r
    else (if fresh then isNameStart c else isNameChar c) && isQualifiedFrom false r

/-- One segment or more with a separator between each two of them. Every segment is a name start followed by
    name characters, so the separator neither leads nor trails. -/
def isQualifiedName (name : String) : Bool := isQualifiedFrom true name.toList

/-- The part of a name behind its last separator, or all of it. -/
def shortName (name : String) : String :=
  String.ofList (name.toList.reverse.takeWhile (· ≠ separator)).reverse

end TypeFinder.Php
