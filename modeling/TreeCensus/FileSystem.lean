import TreeCensus.Fault
import TreeCensus.Path
import TreeCensus.Tally

/-!
# File systems

A file system answers four questions about a path, or says why it cannot. Objects are told apart by
their identity, which two paths share when they lead to the same object.
-/

namespace TreeCensus

set_option autoImplicit false

structure FileInfo where
  kind : ItemKind
  size : Int
  modified : Int
  device : Int
  inode : Int
  deriving DecidableEq

namespace FileInfo

/-- The number of the device names the volume, unless it is zero; then the path does. -/
def identity (i : FileInfo) (path : Path) : Text :=
  (if i.device = 0 then Path.drive path else Text.ofInt i.device) ++ '|' :: Text.ofInt i.inode

/-- What an object adds to a tally by itself; a directory adds only what it holds. -/
def tally (i : FileInfo) : Tally :=
  if i.kind = .directory then .zero
  else { Tally.zero with size := i.size, newest := i.modified }

end FileInfo

structure FileSystem where
  /-- The current directory. -/
  cwd : Path
  /-- What there is at a path; a link is not followed. -/
  info : Path → Except Fault FileInfo
  /-- Where a link leads. -/
  target : Path → Except Fault Text
  /-- The names in a directory. -/
  entries : Path → Except Fault (List Text)
  /-- The text of a file, its lines ended by `\n`. -/
  content : Path → Except Fault Text

end TreeCensus
