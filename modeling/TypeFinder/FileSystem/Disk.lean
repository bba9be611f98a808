import TypeFinder.FileSystem

/-! A disk with files, directories and symbolic links. Every node has a location, the names from the root of the disk
    down to it. A path is resolved name by name, through the links that it meets. A node may refuse to be read, to be
    written or to be searched. -/

namespace TypeFinder

/-- The names from the root of a disk down to a node. -/
abbrev Location := List String

/-- What the operating system answers to what may be asked of a node. -/
structure Access where
  /-- To read a file or to list a directory. -/
  read : Except OsError Unit := .ok ()
  /-- To write to a file or to put something into a directory. -/
  write : Except OsError Unit := .ok ()
  /-- To look up a name in a directory. -/
  search : Except OsError Unit := .ok ()

/-- What is at a location. -/
inductive DiskNode where
  | file (contents : ByteArray) (access : Access := {})
  /-- What the directory holds, by name. -/
  | directory (entries : List (String × DiskNode)) (access : Access := {})
  | link (target : Path)
  /-- A device that is read as nothing, and where what is written is gone. -/
  | device (access : Access := {})

/-- What a node is by itself, whatever a link leads to. -/
inductive NodeKind where
  | file
  | directory
  | link
  | device
  deriving DecidableEq, Repr

/-- What it is to a walk. A link is neither a file nor a directory until it is followed. -/
def NodeKind.entryKind : NodeKind → EntryKind
  | file => .file
  | directory => .directory
  | link | device => .other

namespace DiskNode

/-- What the node is by itself. -/
def kind : DiskNode → NodeKind
  | file .. => .file
  | directory .. => .directory
  | link _ => .link
  | device _ => .device

/-- What may be done with the node. A link is not asked. -/
def access : DiskNode → Access
  | file _ access | directory _ access | device access => access
  | link _ => {}

/-- What the node holds, if it is a directory. -/
def entries? : DiskNode → Option (List (String × DiskNode))
  | directory entries _ => some entries
  | _ => none

/-- The entries among which a name is looked up. The empty name stands for a slash at the end of a path, and asks for
    nothing but a directory. -/
def entriesFor (n : DiskNode) (name : String) : Except OsError (List (String × DiskNode)) :=
  match n with
  | directory entries access => if name = "" then .ok entries else access.search.map fun _ => entries
  | _ => .error .notDirectory

/-- The node below this one. -/
def below? (n : DiskNode) : Location → Option DiskNode
  | [] => some n
  | name :: rest => do (← (← n.entries?).lookup name).below? rest

/-- The node with another one below it. The directories on the way are there. -/
def put (new : DiskNode) : Location → DiskNode → DiskNode
  | [], _ => new
  | name :: rest, directory entries access =>
    directory (entries.filter (·.1 ≠ name) ++ [(name, put new rest ((entries.lookup name).getD (directory [])))]) access
  | _, n => n

/-- The node without the one that is below it. -/
def erase : Location → DiskNode → DiskNode
  | [name], directory entries access => directory (entries.filter (·.1 ≠ name)) access
  | name :: rest, directory entries access =>
    directory (entries.map fun (other, n) => (other, if other = name then erase rest n else n)) access
  | _, n => n

mutual

/-- The number of nodes, this one and those below it. -/
def size : DiskNode → Nat
  | directory entries _ => sizeOfEntries entries + 1
  | _ => 1

/-- The number of nodes in these entries and below. -/
def sizeOfEntries : List (String × DiskNode) → Nat
  | [] => 0
  | (_, n) :: rest => n.size + sizeOfEntries rest

end

theorem size_pos (n : DiskNode) : 0 < n.size := by cases n <;> simp [size]

theorem length_le_sizeOfEntries : ∀ entries : List (String × DiskNode), entries.length ≤ sizeOfEntries entries
  | [] => Nat.le_refl _
  | (_, n) :: rest => by
    have := length_le_sizeOfEntries rest
    have := n.size_pos
    simp only [sizeOfEntries, List.length_cons]
    omega

theorem size_le_sizeOfEntries {name : String} {n : DiskNode} :
    ∀ {entries : List (String × DiskNode)}, entries.lookup name = some n → n.size ≤ sizeOfEntries entries
  | (other, m) :: rest, h => by
    rw [List.lookup_cons] at h
    simp only [sizeOfEntries]
    cases hc : name == other with
    | false =>
      rw [hc] at h
      have := size_le_sizeOfEntries h
      omega
    | true =>
      rw [hc] at h
      cases h
      omega

theorem size_eq {n : DiskNode} {entries : List (String × DiskNode)} (h : n.entries? = some entries) :
    n.size = sizeOfEntries entries + 1 := by
  cases n <;> cases h
  simp [size]

/-- A directory holds no more entries than there are nodes in it and below. -/
theorem length_entries_le {n : DiskNode} {entries : List (String × DiskNode)} (h : n.entries? = some entries) :
    entries.length ≤ n.size := by
  have := length_le_sizeOfEntries entries
  have := size_eq h
  omega

theorem size_below_le {m : DiskNode} : ∀ {l : Location} {n : DiskNode}, n.below? l = some m → m.size ≤ n.size
  | [], n, h => by
    cases h
    exact Nat.le_refl _
  | name :: rest, n, h => by
    simp only [below?, bind, Option.bind_eq_some_iff] at h
    obtain ⟨entries, he, next, hn, h⟩ := h
    have := size_below_le h
    have := size_le_sizeOfEntries hn
    have := size_eq he
    omega

end DiskNode

/-- A disk: its root, and the directory that relative paths start from. That may have been taken away. -/
structure Disk where
  root : DiskNode
  current : Location

/-- The nodes that a path has led through below the root, each with its name, innermost first. -/
abbrev Trail := List (String × DiskNode)

/-- The location that a trail leads to. -/
def Trail.location (t : Trail) : Location := (t.map (·.1)).reverse

/-- What a path that ends in a missing name or in a link stands for. -/
inductive LastName where
  /-- The link itself. -/
  | itself
  /-- What the link leads to. -/
  | target
  /-- What the link leads to, or a place that is still free for a file. -/
  | free
  deriving DecidableEq, Repr

/-- The names that a path leads through. A slash at the end leads into a directory, by an empty name. -/
def Path.names (p : Path) : List String :=
  p.segments.filter (· ≠ "") ++ if p.text.toList.getLast? = some '/' then [""] else []

/-- The path holds a character zero, which no name on a disk does. -/
def Path.holdsZero (p : Path) : Bool := p.text.toList.contains '\x00'

/-- A path that is looked up at once is shorter than this, in bytes. -/
def pathLimit : Nat := 4096

/-- A name is at most this long, in bytes. -/
def nameLimit : Nat := 255

/-- A path leads through at most this many links. -/
def linkLimit : Nat := 40

/-- The node at a location below this one. No link is on the way, so every name leads straight down. -/
def DiskNode.reach (n : DiskNode) : Location → Except OsError DiskNode
  | [] => .ok n
  | name :: rest => do
    let entries ← n.entriesFor name
    if nameLimit < name.utf8ByteSize then .error .nameTooLong
    else
      match entries.lookup name with
      | none => .error .notFound
      | some m => m.reach rest

namespace Disk

/-- The node at a location. -/
def node? (d : Disk) (l : Location) : Option DiskNode := d.root.below? l

/-- There is a directory at the location. -/
def isDirectory (d : Disk) (l : Location) : Bool := (d.node? l).any (·.kind = .directory)

/-! ### Resolving paths -/

/-- The node that a trail leads to. -/
def nodeOf (d : Disk) (t : Trail) : DiskNode := (t.head?.map (·.2)).getD d.root

/-- The trail to a directory, behind the trail `t`. One that was taken away is empty, and has no name any more. -/
def trailFrom (d : Disk) (t : Trail) : Location → Trail
  | [] => t
  | name :: rest =>
    match ((d.nodeOf t).entries?.getD []).lookup name with
    | some (.directory entries access) => d.trailFrom ((name, .directory entries access) :: t) rest
    | _ => d.trailFrom (("", .directory []) :: t) rest

/-- The trail to the current directory. -/
def here (d : Disk) : Trail := d.trailFrom [] d.current

/-- The location that the names lead to behind the trail `t`, through at most `links` links. -/
def resolve (d : Disk) (last : LastName) (links : Nat) (t : Trail) : List String → Except OsError Location
  | [] => .ok t.location
  | name :: rest =>
    match (d.nodeOf t).entriesFor name with
    | .error e => .error e
    | .ok entries =>
      if name = "." ∨ name = "" then d.resolve last links t rest
      else if name = ".." then d.resolve last links t.tail rest
      else if rest = [""] ∧ last = .free then .error .isDirectory
      else if nameLimit < name.utf8ByteSize then .error .nameTooLong
      else
        match entries.lookup name with
        | none => if rest = [] ∧ last = .free then .ok (t.location ++ [name]) else .error .notFound
        | some (.link target) =>
          if rest = [] ∧ last = .itself then .ok (t.location ++ [name])
          else
            match links with
            | 0 => .error .linkLoop
            | links + 1 => d.resolve last links (if target.isAbsolute then [] else t) (target.names ++ rest)
        | some n => d.resolve last links ((name, n) :: t) rest
termination_by names => (links, names.length)

/-- The location that the names lead to from the start of a path. -/
def resolveFromStart (d : Disk) (last : LastName) (p : Path) (names : List String) : Except OsError Location :=
  d.resolve last linkLimit (if p.isAbsolute then [] else d.here) names

/-- The location that a path leads to. -/
def locate (d : Disk) (last : LastName) (p : Path) : Except OsError Location :=
  if p.holdsZero then .error .zeroInPath
  else if p.text.isEmpty then .error .notFound
  else if p.text.utf8ByteSize < pathLimit then d.resolveFromStart last p p.names
  else .error .nameTooLong

/-- What is at a location. A directory that was taken away is empty as long as it is in use. -/
def at? (d : Disk) (l : Location) : Option DiskNode :=
  (d.node? l).or (if l.contains "" then some (.directory []) else none)

/-- The node that a path leads to. -/
def lookup (d : Disk) (last : LastName) (p : Path) : Except OsError DiskNode := do
  match d.at? (← d.locate last p) with
  | some n => .ok n
  | none => .error .notFound

/-! ### Absolute paths -/

/-- The path of a location. -/
def pathOf (l : Location) : Path := ⟨"/" ++ "/".intercalate l⟩

/-- The directories that a trail leads through are read, innermost first, each for the name of the one in it. -/
def readNames (d : Disk) : Trail → Except OsError Unit
  | [] => .ok ()
  | _ :: t => do
    (d.nodeOf t).access.read
    if (d.nodeOf t).access.search.isOk then d.readNames t else .error .notFound

/-- The location that the absolute form of a path starts from. A current directory that was taken away has none. The
    operating system tells its path where that is short; a long one is put together from the directories above. -/
def startOf (d : Disk) (p : Path) : Except OsError Location :=
  if p.isAbsolute then .ok []
  else if d.here.location.contains "" then .error .notFound
  else if (pathOf d.here.location).text.utf8ByteSize < pathLimit then .ok d.here.location
  else do
    (d.nodeOf d.here).access.search
    (d.readNames d.here).map fun _ => d.here.location

/-- The node at a location, asked for by the path of the location. -/
def reach (d : Disk) (l : Location) : Except OsError DiskNode :=
  if (pathOf l).text.utf8ByteSize < pathLimit then d.root.reach l else .error .nameTooLong

/-- The names ask for a directory in front of them: there is a slash or a dot at the end, or they go up. -/
def askDirectory (names : List String) : Bool :=
  names ≠ [] && ((names.find? fun name => name ≠ "." ∧ name ≠ "").getD "..") = ".."

/-- The node at the location may have the names behind it. It is asked for by its path with a slash, if they ask for a
    directory. -/
def goesOn (l : Location) (n : DiskNode) (names : List String) : Except OsError Unit :=
  if !askDirectory names then .ok ()
  else if pathLimit ≤ (pathOf l).text.utf8ByteSize + 1 then .error .nameTooLong
  else if n.kind = .directory then .ok ()
  else .error .notDirectory

/-- The location that the names lead to from a location that no link is on the way to, through at most `links` links.
    Every location on the way is asked for by its path from the root. -/
def locateFromRoot (d : Disk) (links : Nat) (l : Location) : List String → Except OsError Location
  | [] => .ok l
  | name :: rest =>
    if name = "." ∨ name = "" then d.locateFromRoot links l rest
    else if name = ".." then d.locateFromRoot links l.dropLast rest
    else
      match d.reach (l ++ [name]) with
      | .error e => .error e
      | .ok (.link target) =>
        match links with
        | 0 => .error .linkLoop
        | links + 1 => d.locateFromRoot links (if target.isAbsolute then [] else l) (target.names ++ rest)
      | .ok n =>
        match goesOn (l ++ [name]) n rest with
        | .error e => .error e
        | .ok _ => d.locateFromRoot links (l ++ [name]) rest
termination_by names => (links, names.length)

/-- The absolute path that a path leads to, which no link is on. The path may be of any length, but no path that is asked
    for on the way. -/
def absolute (d : Disk) (p : Path) : Except OsError Path :=
  if p.holdsZero then .error .zeroInPath
  else if p.text.isEmpty then .error .notFound
  else do
    let l ← d.startOf p
    (d.locateFromRoot linkLimit l p.names).map pathOf

/-! ### Reading -/

/-- What the path refers to, behind all links. -/
def kind? (d : Disk) (p : Path) : Option EntryKind :=
  match d.lookup .target p with
  | .ok n => some n.kind.entryKind
  | .error _ => none

/-- The contents of a file. -/
def read (d : Disk) (p : Path) : Except OsError ByteArray := do
  let n ← d.lookup .target p
  n.access.read
  match n with
  | .file contents _ => .ok contents
  | .device _ => .ok ByteArray.empty
  | _ => .error .isDirectory

/-- The names in the directory at a location, in order, and what they are by themselves. -/
def children (d : Disk) (l : Location) : List (String × NodeKind) :=
  ((((d.node? l).bind DiskNode.entries?).getD []).filterMap fun (name, n) =>
    if name = "" then none else some (name, n.kind)).mergeSort fun a b => decide (a.1 ≤ b.1)

/-- The names in the directory that a path leads to. -/
def list (d : Disk) (p : Path) : Except OsError (List (String × NodeKind)) := do
  let l ← d.locate .target p
  match d.at? l with
  | some (.directory _ access) => access.read.map fun _ => d.children l
  | _ => .error .notDirectory

/-- The location of what a path leads to, opened to be compared with others. -/
def opened (d : Disk) (p : Path) : Except OsError Location := do
  let l ← d.locate .target p
  match d.at? l with
  | some n => n.access.read.map fun _ => l
  | none => .error .notFound

/-! ### Writing -/

/-- The node at this location, in place of what was there. -/
def put (d : Disk) (l : Location) (n : DiskNode) : Disk := { d with root := .put n l d.root }

/-- A file with these contents at the path, new or not. -/
def write (d : Disk) (p : Path) (contents : ByteArray) : Except OsError Disk := do
  let l ← d.locate .free p
  match d.node? l with
  | some (.directory ..) => .error .isDirectory
  | some (.device access) => access.write.map fun _ => d
  | some n => n.access.write.map fun _ => d.put l (.file contents n.access)
  | none =>
    match d.node? l.dropLast with
    | some above => above.access.write.map fun _ => d.put l (.file contents)
    | none => .error .notFound

/-- A link at the path, which is free. -/
def link (d : Disk) (p target : Path) : Except OsError Disk := do
  let above ← d.locate .target (p.parent?.elim ⟨"."⟩ fun q => if q.text.isEmpty then ⟨"."⟩ else q)
  return d.put (above ++ p.fileName?.toList) (.link target)

/-- A directory at the path, which is free. Those above it are there. -/
def makeDirectory (d : Disk) (p : Path) : Except OsError Disk := do
  match d.locate .itself p with
  | .ok _ => .error .alreadyExists
  | .error .notFound =>
    let names := p.names.filter (· ≠ "")
    let above ← d.resolveFromStart .target p names.dropLast
    match d.node? above with
    | none => .error .notFound
    | some n =>
      if n.kind ≠ .directory then .error .notDirectory
      else if p.text.isEmpty then .error .notFound
      else n.access.write.map fun _ => d.put (above ++ names.getLast?.toList) (.directory [])
  | .error e => .error e

/-- The first `n` components of the path as directories, with those that are missing. What was made before an error
    stays. -/
def makeDirectories (d : Disk) (p : Path) : Nat → Disk × Except OsError Unit
  | 0 => (d, .ok ())
  | n + 1 =>
    let settled (d : Disk) (e : OsError) : Disk × Except OsError Unit :=
      if d.kind? (p.upTo (n + 1)) = some .directory then (d, .ok ()) else (d, .error e)
    match d.makeDirectory (p.upTo (n + 1)) with
    | .ok d => (d, .ok ())
    | .error .notFound =>
      match d.makeDirectories p n with
      | (d, .error e) => (d, .error e)
      | (d, .ok _) =>
        match d.makeDirectory (p.upTo (n + 1)) with
        | .ok d => (d, .ok ())
        | .error e => settled d e
    | .error e => settled d e

/-- The directory that the path names, with all that are missing above it. -/
def makeDirectoryAll (d : Disk) (p : Path) : Disk × Except OsError Unit := d.makeDirectories p p.components.length

/-- The node that a path leads to, and all below it, taken away. -/
def remove (d : Disk) (p : Path) : Except OsError Disk := do
  let l ← d.locate .itself p
  return { d with root := .erase l d.root }

end Disk
end TypeFinder
