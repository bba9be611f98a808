import TypeFinder.Locator.SourceFile
import TypeFinder.Text.Json

/-! The whole result of a search as a record, and its JSON text. -/

namespace TypeFinder.Report

/-- The version of the program that makes a report. -/
def programVersion : String := "0.1.0"

/-- A declared type. -/
structure DeclarationSummary where
  name : String
  kind : Php.DeclarationKind
  line : Nat
  deriving DecidableEq, Repr

/-- A file that declares types. -/
structure FileSummary where
  path : String
  fileName : String
  namespaces : List String
  classes : List String
  declarations : List DeclarationSummary
  deriving DecidableEq, Repr

/-- The places that were searched and what was found there. -/
structure Summary where
  version : String
  roots : List String
  filesFound : Nat
  classesFound : Nat
  files : List FileSummary
  deriving DecidableEq, Repr

/-- What is reported of a file. -/
def FileSummary.ofFile (f : SourceFile) : FileSummary where
  path := f.path.text
  fileName := f.fileName
  namespaces := f.namespaces
  classes := f.classes
  declarations := f.declarations.map fun d => ⟨d.name, d.kind, d.line⟩

/-- The names of all types that the files declare. -/
def classes (files : List SourceFile) : List String := files.flatMap (·.classes)

/-- The number of types that the files declare, summed up file by file. -/
def countClasses (files : List SourceFile) : Nat := files.foldl (fun n f => n + f.classes.length) 0

namespace Summary

/-- What is reported of the files found at these places. -/
def ofFiles (roots : List Path) (files : List SourceFile) : Summary where
  version := programVersion
  roots := roots.map (·.text)
  filesFound := files.length
  classesFound := countClasses files
  files := files.map FileSummary.ofFile

open Text.Json

/-- A list of strings. -/
def stringArray (ss : List String) : Writer := array (ss.map string)

/-- The record of a declared type. -/
def declarationJson (d : DeclarationSummary) : Writer :=
  object [("name", string d.name), ("kind", string d.kind.keyword), ("line", number d.line)]

/-- The record of a file. -/
def fileJson (f : FileSummary) : Writer :=
  object [
    ("path", string f.path),
    ("file_name", string f.fileName),
    ("namespaces", stringArray f.namespaces),
    ("classes", stringArray f.classes),
    ("declarations", array (f.declarations.map declarationJson))]

/-- The JSON text of a summary. -/
def json (s : Summary) : String :=
  object [
    ("version", string s.version),
    ("roots", stringArray s.roots),
    ("files_found", number s.filesFound),
    ("classes_found", number s.classesFound),
    ("files", array (s.files.map fileJson))] 0

end Summary
end TypeFinder.Report
