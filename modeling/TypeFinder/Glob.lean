import TypeFinder.Glob.Parse
import TypeFinder.Path

/-! Globs that name paths. A glob is matched against the bytes of a path's whole text, and a star matches a slash
    as well. -/

namespace TypeFinder

/-- A glob as it was written, with its pattern over bytes. -/
structure Glob where
  text : String
  pattern : Glob.Pattern
  form : Glob.Item.Form
  /-- It only names paths that have a name. -/
  needsName : Bool
  deriving DecidableEq, Repr

namespace Glob

/-- A text that is no glob, and why. -/
structure Error where
  text : String
  cause : Cause
  deriving DecidableEq, Repr

/-- The wording of the error. -/
def Error.message (e : Error) : String := "error parsing glob '" ++ e.text ++ "': " ++ e.cause.message

/-- The glob that a text is. -/
def ofText (text : String) : Except Error Glob :=
  match items text with
  | .ok items => .ok ⟨text, Item.whole items, Item.form items, Item.endInNameDot items⟩
  | .error cause => .error ⟨text, cause⟩

/-- The globs that the texts are, or the error of the first one that is none. -/
def ofTexts (texts : List String) : Except Error (List Glob) := texts.mapM ofText

/-! ### Several globs -/

/-- Why texts are not globs to search with. -/
inductive Refusal where
  | malformed (e : Error)
  /-- The pattern of a glob that looks for an extension, which stands alone, cannot be looked for. -/
  | behindExtension (p : Pattern) (f : Pattern.Fault)
  /-- The patterns of the globs that look for one cannot be looked for. -/
  | together (f : Pattern.Fault)
  deriving DecidableEq, Repr

/-- The wording of a refusal. -/
def Refusal.message : Refusal → String
  | malformed e => e.message
  | behindExtension p f => "error parsing glob '" ++ p.wholeText ++ "': " ++ f.message
  | together f => f.message

/-- The patterns of the globs of a form, in order. -/
def patterns (form : Item.Form) (gs : List Glob) : List Pattern :=
  (gs.filter fun g => g.form == form).map (·.pattern)

/-- The globs that the texts are, or why they cannot be searched with. Extensions are looked at first. -/
def toSearch (texts : List String) : Except Refusal (List Glob) := do
  let gs ← (ofTexts texts).mapError .malformed
  match (patterns .extension gs).findSome? fun p => (Pattern.fault? [p]).map (p, ·) with
  | some (p, f) => throw (.behindExtension p f)
  | none =>
    match Pattern.fault? (patterns .pattern gs) with
    | some f => throw (.together f)
    | none => return gs

/-- The glob names the path. Two dots are no name. -/
def names (g : Glob) (p : Path) : Bool :=
  !(g.needsName && p.segments.getLast? == some "..") && g.pattern.expr.test p.text.toUTF8.data.toList

end Glob
end TypeFinder
