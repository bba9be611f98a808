import TypeFinder.IoError
import TypeFinder.Walk

/-! File systems: what a search needs to know of one. A walk is a stream of entries and failures, and every walk
    ends, since less of it is ahead after each step. -/

namespace TypeFinder

/-- Read access to the directory trees that the values of `σ` hold. -/
class FileSystem (σ : Type) where
  /-- What the path refers to, if it refers to anything. -/
  kind? : σ → Path → Option EntryKind
  /-- The absolute form of the path. -/
  absolute : σ → Path → Except IoError Path
  /-- The contents of a file. -/
  read : σ → Path → Except IoError ByteArray
  /-- A walk that may be under way. -/
  Walk : Type
  /-- The walk from a root, before its first step: depth first, a directory before what it holds, siblings in the
      order of their names. The root comes first. What the options reject is left out, and with a directory all
      that it holds. -/
  walk : σ → Path → WalkOptions → Walk
  /-- The next step, and the walk behind it. -/
  next? : σ → Walk → Option (Except Failure Entry × Walk)
  /-- A bound on the steps that are still to come. -/
  ahead : σ → Walk → Nat
  ahead_lt {s : σ} {w w' : Walk} {step : Except Failure Entry} :
    next? s w = some (step, w') → ahead s w' < ahead s w

namespace FileSystem
variable {σ : Type} [FileSystem σ]

/-- All that a walk comes to. -/
def walked (s : σ) (w : Walk σ) : List (Except Failure Entry) :=
  match _h : next? s w with
  | none => []
  | some (step, w') => step :: walked s w'
termination_by ahead s w
decreasing_by exact ahead_lt _h

end FileSystem
end TypeFinder
