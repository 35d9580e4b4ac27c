import TreeCensus.Path

/-!
# Lines of ignore files

A line of an ignore file applies at any depth unless it starts with a slash, whereas a glob is read
from the root on. A line is turned into a glob for the directory of its file, or is moved into a
directory below the root.
-/

namespace TreeCensus.Glob

set_option autoImplicit false

/-- Takes a mark from the front of a glob. -/
def splitMark (mark : Char) (t : Text) : Text × Text :=
  match t with
  | c :: r => if c = mark then ([mark], r) else ([], t)
  | [] => ([], [])

def anyDepth (t : Text) : Text := '*' :: '*' :: '/' :: t

/-- The glob of a line of an ignore file in the root directory. -/
def ofIgnoreLine (line : Text) : Text :=
  let (mark, t) := splitMark '!' line
  mark ++
    match t with
    | '/' :: r => r
    | '*' :: '*' :: r => '*' :: '*' :: r
    | '.' :: '.' :: '/' :: r => '.' :: '.' :: '/' :: r
    | t => anyDepth t

/-- The normal form of a glob, which keeps a slash at its end. -/
def normalGlob (t : Text) : Text :=
  let t := Text.replace '\\' '/' t
  let n := Path.normal t
  if Text.endsWith ['/'] t ∧ ¬ Text.endsWith ['/'] n then n ++ ['/'] else n

/-- A glob without marks, moved into the directory `dir`. A directory above the root does not hold
back a glob that applies at any depth. -/
def moveInto (dir t : Text) : Text :=
  let inside := if Text.endsWith ['/'] dir then dir else dir ++ ['/']
  let holding := if Text.startsWith ['.', '.'] dir then [] else inside
  normalGlob <|
    match t with
    | '/' :: r => Text.dropEndWhile (· = '/') dir ++ '/' :: r
    | '.' :: '/' :: r => inside ++ r
    | '.' :: '.' :: '/' :: r => inside ++ '.' :: '.' :: '/' :: r
    | '*' :: '*' :: r => holding ++ '*' :: '*' :: r
    | t => holding ++ anyDepth t

/-- A glob with its marks, moved into the directory `dir` below the root. -/
def relocate (dir glob : Text) : Text :=
  if dir = [] ∨ dir = Path.here then glob
  else
    let (exclude, t) := splitMark '^' glob
    let (negative, t) := splitMark '!' t
    exclude ++ negative ++ moveInto (Text.replace '\\' '/' dir) t

end TreeCensus.Glob
