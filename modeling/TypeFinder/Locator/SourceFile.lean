import TypeFinder.Path
import TypeFinder.Php.Outline
import TypeFinder.Text.Utf8

/-! Source files that declare types. -/

namespace TypeFinder

/-- The path has the extension of source files, in this spelling. -/
def Path.isSource (p : Path) : Bool := p.extension? == some "php"

/-- A source file and what it declares: at least one type. -/
structure SourceFile where
  path : Path
  outline : Php.Outline
  declaring : outline.isEmpty = false
  deriving DecidableEq, Repr

namespace SourceFile

/-- The file with these contents, unless it declares no type. -/
def ofContents? (path : Path) (contents : ByteArray) : Option SourceFile :=
  let outline := Php.Outline.ofSource (Text.ofBytes contents)
  if h : outline.isEmpty = false then some ⟨path, outline, h⟩ else none

/-- The name of the file. -/
def fileName (f : SourceFile) : String := f.path.fileName?.getD ""

/-- The namespaces that the file declares. -/
def namespaces (f : SourceFile) : List String := f.outline.namespaces

/-- The types that the file declares. -/
def declarations (f : SourceFile) : List Php.Declaration := f.outline.declarations

/-- The names of the types that the file declares. -/
def classes (f : SourceFile) : List String := f.outline.classes

end SourceFile
end TypeFinder
