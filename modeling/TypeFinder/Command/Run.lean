import TypeFinder.Command.Init
import TypeFinder.Command.Scan

/-! Running a command on a disk. -/

namespace TypeFinder.Command

/-- The disk after the command, and what running it shows. -/
def run (d : Disk) (inColor : Bool) (c : Command) : Disk × Outcome :=
  match c.task with
  | .scan a => (d, a.run d inColor)
  | .init a => a.run d

end TypeFinder.Command
