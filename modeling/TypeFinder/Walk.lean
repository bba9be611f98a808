import TypeFinder.Glob

/-! What a walk through a directory tree visits, and what may go wrong on the way. -/

namespace TypeFinder

/-- What a path refers to. -/
inductive EntryKind where
  | file
  | directory
  /-- Neither of them, such as a link that leads nowhere. -/
  | other
  deriving DecidableEq, Repr

/-- A path that a walk visits. -/
structure Entry where
  path : Path
  kind : EntryKind
  deriving DecidableEq, Repr

/-- Decides which entries a walk visits and descends into. -/
structure WalkOptions where
  followLinks : Bool := false
  /-- Leave out entries whose name starts with a dot. -/
  skipHidden : Bool := false
  /-- Leave out what one of these names, as seen from the root or in full. -/
  excluded : List Glob := []
  deriving DecidableEq, Repr

/-- The name of the path starts with a dot. -/
def Path.isHidden (p : Path) : Bool := p.fileName?.any fun name => name.toList.head? == some '.'

/-- The path, found below `root`, is visited. The root itself always is. -/
def WalkOptions.allows (o : WalkOptions) (root p : Path) : Bool :=
  p.same root ||
    !(o.skipHidden && p.isHidden) && !o.excluded.any fun g => g.names ((p.relativeTo? root).getD p) || g.names p

end TypeFinder
