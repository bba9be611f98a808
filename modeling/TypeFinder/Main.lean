import TypeFinder.Command.Run

/-! The program. It takes what a command may look at from the disk into a value, runs the command on that, and then
    shows the outcome and writes what was written. -/

namespace TypeFinder.Main

/-- The place of a path, as seen from the current directory. -/
def place (text : String) := (return (← IO.currentDir) / text : IO _)

/-- What was taken from the disk, and the directories that it was taken from with all that they hold. -/
structure View where
  disk : Disk
  whole : List Location := []

/-- The result of asking for something, or that it is refused. -/
def ask {α : Type} (x : IO α) : IO (Except OsError α) := do
  try
    return .ok (← x)
  catch
    | .permissionDenied .. => return .error .permissionDenied
    | .hardwareFault .. => return .error .inputOutput
    | e => throw e

/-- The file at a location, with its contents unless it refuses to be read. -/
def fileAt (l : Location) : IO DiskNode := do
  match ← ask (do IO.FS.readBinFile (← place (Disk.pathOf l).text)) with
  | .ok contents => return .file contents
  | .error e => return .file ByteArray.empty { read := .error e }

/-- The node at a location. The contents of a file are taken where they are wanted. A link leads to the place behind
    all links, or, where there is none, to a name that no file has. -/
def nodeAt (l : Location) (wanted : Bool) : IO (Option DiskNode) := do
  let path ← place (Disk.pathOf l).text
  try
    match (← path.symlinkMetadata).type with
    | .dir => return some (.directory [])
    | .file => if wanted then return some (← fileAt l) else return some (.file ByteArray.empty)
    | .symlink =>
      try
        let _ ← path.metadata
        return some (.link ⟨(← IO.FS.realPath path).toString⟩)
      catch
        | .noFileOrDirectory .. => return some (.link ⟨"\x00"⟩)
        | _ => return some (.link ⟨l.getLastD ""⟩)
    | .other => return some .device
  catch
    | .noFileOrDirectory .. | .inappropriateType .. => return none
    | e => throw e

namespace View

/-- The view in which a directory refuses something. -/
def refuse (v : View) (l : Location) (f : Access → Access) : View :=
  match v.disk.node? l with
  | some (.directory entries access) => { v with disk := v.disk.put l (.directory entries (f access)) }
  | _ => v

/-- The view with the node at a location. What is known of a directory stays known, and so do contents that were taken.
    A directory that refuses to be searched may still tell that the node is there. -/
def note (v : View) (l : Location) (wanted : Bool) : IO View := do
  match ← ask (nodeAt l wanted) with
  | .ok (some n) =>
    let known := (v.disk.node? l).any (·.kind = n.kind)
    return if known && (n.kind == .directory || !wanted) then v else { v with disk := v.disk.put l n }
  | .ok none => return v
  | .error e =>
    let seen : View := { v with disk := v.disk.put l (.file ByteArray.empty) }
    return seen.refuse l.dropLast fun access => { access with search := .error e }

/-- The view with all nodes that the names lead through, and the location that they lead to. -/
partial def follow (v : View) (l : Location) : List String → IO (View × Option Location)
  | [] => return (v, some l)
  | name :: rest => do
    if name = "." ∨ name = "" then v.follow l rest
    else if name = ".." then v.follow l.dropLast rest
    else
      let found := l ++ [name]
      let v ← v.note found true
      match v.disk.node? found with
      | none => return (v, none)
      | some (.link target) => if target.isAbsolute then v.follow [] (target.names ++ rest) else return (v, none)
      | some _ => v.follow found rest

/-- The view with all nodes that a path leads through, and the location that it leads to. -/
def followPath (v : View) (p : Path) : IO (View × Option Location) :=
  v.follow (if p.isAbsolute then [] else v.disk.current) p.names

/-- The view with all that a directory holds, and where `links` are followed also what they lead to. -/
partial def noteBelow (v : View) (links : Bool) (l : Location) : IO View := do
  if v.whole.contains l || !v.disk.isDirectory l then return v
  let mut v := { v with whole := l :: v.whole }
  let entries ←
    match ← ask (do (← place (Disk.pathOf l).text).readDir) with
    | .ok entries => pure entries
    | .error e =>
      v := v.refuse l fun access => { access with read := .error e }
      pure #[]
  for entry in entries do
    let found := l ++ [entry.fileName]
    v ← v.note found (⟨entry.fileName⟩ : Path).isSource
    match v.disk.node? found with
    | some (.link target) =>
      let (v', behind) ← if target.isAbsolute then v.follow [] target.names else pure (v, none)
      v := v'
      if links then
        if let some l := behind then v ← v.noteBelow links l
    | some (.directory ..) => v ← v.noteBelow links found
    | _ => pure ()
  return v

/-- The view of the current directory alone. -/
def start : IO View := do
  let current : Path := ⟨(← IO.FS.realPath (← IO.currentDir)).toString⟩
  let disk : Disk := { root := .directory [], current := current.names }
  return (← ({ disk } : View).follow [] current.names).1

/-- The view that a scan needs. -/
def ofScan (a : ScanArguments) : IO View := do
  let mut v ← start
  for p in a.config.elim (Config.fileNames.map Path.mk) ([·]) do
    v := (← v.followPath p).1
  let asked := (Config.load v.disk (a.configFile? v.disk)).toOption.any (·.shouldFollowLinks)
  for p in a.paths do
    let (v', found) ← v.followPath p
    v := v'
    if let some l := found then v ← v.noteBelow (a.followLinks || asked) l
  return v

/-- The view that a command needs. -/
def ofTask : Task → IO View
  | .scan a => ofScan a
  | .init a => do return (← (← start).followPath a.output).1

end View

/-- Writes the file of settings that a command has written. -/
def keep (d : Disk) : Task → IO Unit
  | .scan _ => pure ()
  | .init a => do
    if let some p := a.directory? then IO.FS.createDirAll p.text
    if let .ok contents := d.read a.output then IO.FS.writeBinFile a.output.text contents

/-- Shows the events that matter. -/
def showEvents (verbose : Bool) (events : List Event) : IO Unit := do
  for e in events do
    if verbose || e.level = .warn then IO.eprintln (e.level.name ++ " " ++ e.message)

/-- Runs a command. -/
def execute (c : Command) : IO UInt32 := do
  let v ← View.ofTask c.task
  let inColor := (← (← IO.getStdout).isTty) && (← IO.getEnv "NO_COLOR").isNone
  let (d, o) := c.run v.disk inColor
  showEvents c.verbose o.events
  if o.exit = Command.Outcome.success then keep d c.task
  IO.print o.out
  IO.eprint o.err
  return o.exit.toUInt32

end TypeFinder.Main

open TypeFinder in
/-- Runs what the arguments ask for. -/
def main (arguments : List String) : IO UInt32 := do
  match Command.ofArguments arguments with
  | .ok c =>
    try
      Main.execute c
    catch e =>
      IO.eprintln ("Error: " ++ toString e)
      return Command.Outcome.failure.toUInt32
  | .error u =>
    if u.exit = Command.Outcome.success then IO.print u.message else IO.eprint u.message
    return u.exit.toUInt32
