import Std.Data.TreeMap
import Std.Data.TreeSet
import TypeFinder.FileSystem

/-! A file system held in memory. It holds files; the directories are the paths above them. A file may refuse to be
    read and a directory to be listed. A path may be a file and have others below it all the same. -/

namespace TypeFinder

/-- Files and closed directories, in the order of their paths. -/
structure Memory where
  /-- The files, each with its contents, or with none if it cannot be read. -/
  files : Std.TreeMap Path (Option ByteArray)
  /-- The directories that cannot be listed. -/
  closed : Std.TreeSet Path

namespace Memory

/-- No files at all. -/
def empty : Memory := ⟨∅, ∅⟩

/-- A file more, or new contents for it. A place that is held already keeps its path as it was written first. -/
def put (m : Memory) (p : Path) (contents : Option ByteArray) : Memory :=
  { m with files := m.files.insert (m.files.getKeyD p p) contents }

/-- A file with these contents. -/
def insert (m : Memory) (p : Path) (contents : ByteArray) : Memory := m.put p (some contents)

/-- A file that cannot be read. -/
def insertUnreadable (m : Memory) (p : Path) : Memory := m.put p none

/-- A directory that cannot be listed. -/
def insertUnreadableDirectory (m : Memory) (p : Path) : Memory := { m with closed := m.closed.insert p }

/-- The paths that are stored, the files first. -/
def stored (m : Memory) : List Path := m.files.keys ++ m.closed.toList

/-- What is stored of the file at the path, if there is one. -/
def file? (m : Memory) (p : Path) : Option (Option ByteArray) := m.files[p]?

/-- The directory cannot be listed. -/
def isClosed (m : Memory) (p : Path) : Bool := m.closed.contains p

/-- What the path refers to. -/
def kind? (m : Memory) (p : Path) : Option EntryKind :=
  if (m.file? p).isSome then some .file
  else if m.stored.any (·.isUnder p) then some .directory
  else none

/-- The path with a slash in front, unless it is absolute. -/
def absolute (p : Path) : Path := (⟨"/"⟩ : Path).join p

/-- The contents of a file. -/
def read (m : Memory) (p : Path) : Except IoError ByteArray :=
  match m.file? p with
  | some (some contents) => .ok contents
  | some none => .error .permissionDenied
  | none => .error .noFile

/-- The paths in order, of those for one place the first. -/
def inOrder (paths : List Path) : List Path :=
  (paths.foldl (fun found p => found.insertIfNew p.components p) (∅ : Std.TreeMap (List Component) Path)).values

/-- The paths stored below `root` and all directories between. -/
def below (m : Memory) (root : Path) : List Path :=
  inOrder ((m.stored.filter fun p => p.isUnder root && !p.same root).flatMap fun p => p :: p.between root)

/-- What the path of a walk is. -/
def walkKind (m : Memory) (p : Path) : EntryKind := if (m.file? p).isSome then .file else .directory

/-- The entries of a walk from `root` that these paths make, in order. What is under `pruned` is left out. -/
def visit (m : Memory) (root : Path) (o : WalkOptions) (pruned : Option Path) :
    List Path → List (Except Failure Entry)
  | [] => []
  | p :: rest =>
    if pruned.any p.isUnder then m.visit root o pruned rest
    else if !o.allows root p then
      m.visit root o (if m.walkKind p = .directory then some p else pruned) rest
    else if m.isClosed p then
      .ok ⟨p, m.walkKind p⟩ :: .error ⟨p, .permissionDenied⟩ :: m.visit root o (some p) rest
    else .ok ⟨p, m.walkKind p⟩ :: m.visit root o pruned rest

/-- The whole walk from `root`. -/
def walk (m : Memory) (root : Path) (o : WalkOptions) : List (Except Failure Entry) :=
  match m.kind? root with
  | none => [.error ⟨root, .noDirectory⟩]
  | some kind =>
    .ok ⟨root, kind⟩ ::
      if m.isClosed root then [.error ⟨root, .permissionDenied⟩] else m.visit root o none (m.below root)

instance : FileSystem Memory where
  kind? := kind?
  absolute _ p := .ok (absolute p)
  read := read
  Walk := List (Except Failure Entry)
  walk := walk
  next? _ w := w.head?.map fun step => (step, w.tail)
  ahead _ w := w.length
  ahead_lt {_ w _ _} h := by
    cases w with
    | nil => simp at h
    | cons step rest =>
      obtain ⟨-, rfl⟩ : step = _ ∧ rest = _ := by simpa using h
      simp

end Memory
end TypeFinder
