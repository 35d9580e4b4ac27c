import TreeCensus.FileSystem
import TreeCensus.Filter
import TreeCensus.Glob.Ignore

/-!
# Sources of globs

The globs of a filter are given one by one or as ignore files. Those given one by one come first, and
the lines of the files follow, each turned into a glob for the root directory.
-/

namespace TreeCensus

set_option autoImplicit false

inductive GlobForm
  | pattern | file
  deriving DecidableEq

def GlobForm.ofValue : Value → Except Fault GlobForm
  | .scalar (.text t) =>
    if t = "pattern".toList then .ok pattern
    else if t = "file-contains-patterns".toList then .ok file
    else .error (.invalidChoice (Text.quoted t) "GlobValueType".toList)
  | v => .error (.invalidChoice v.quoted "GlobValueType".toList)

/-- A glob, or a file of globs; `exclude` makes exclusions of them. -/
structure GlobSource where
  value : Text
  form : GlobForm
  exclude : Bool
  deriving DecidableEq

namespace GlobSource

def pattern (glob : Text) : GlobSource := ⟨glob, .pattern, false⟩

/-- The lines of an ignore file that are neither blank nor comments. -/
def ignoreLines (content : Text) : List Text :=
  ((Text.pieces '\n' content).map Text.strip).filter fun l => l ≠ [] ∧ l.head? ≠ some '#'

/-- Slashes at the end of a line are dropped, unless it has nothing else. -/
def dropEndSlashes (line : Text) : Text :=
  let t := Text.dropEndWhile (· = '/') line
  if t = [] then line else t

def mark (s : GlobSource) (glob : Text) : Text := if s.exclude then '^' :: glob else glob

/-- The glob of a line, `dir` being the way from the root to the directory of its file. -/
def ofLine (dir : Path) (line : Text) : Text :=
  let t := dropEndSlashes line
  if dir = Path.here then Glob.ofIgnoreLine t else Glob.relocate dir t

def loadFile (fs : FileSystem) (root : Path) (s : GlobSource) : Except Fault (List Text) :=
  let file := Path.absolute fs.cwd (Path.under root s.value)
  let dir := Path.relativeTo (Path.absolute fs.cwd root) (Path.directory file)
  (fs.content file).map fun content =>
    (ignoreLines content).map fun line => s.mark (ofLine dir line)

/-- The directory that stands for a root that is not given. -/
def rootOr (root : Option Path) : Path :=
  match root with
  | none | some [] => Path.here
  | some r => r

def load (fs : FileSystem) (root : Option Path) (sources : List GlobSource) :
    Except Fault (List Text) :=
  let given := sources.filter (·.value ≠ [])
  let patterns := (given.filter (·.form = .pattern)).map fun s => s.mark s.value
  ((given.filter (·.form = .file)).mapM (loadFile fs (rootOr root))).map fun files =>
    patterns ++ files.flatten

end GlobSource

/-- The filter of some sources below a root directory; no sources make no filter. -/
def Filter.ofSources? (fs : FileSystem) (root : Path) (casing : Glob.Casing)
    (sources : List GlobSource) : Except Fault (Option Filter) :=
  if sources = [] then .ok none
  else
    match GlobSource.load fs (some root) sources with
    | .error f => .error f
    | .ok globs => (Filter.compile ⟨fs.cwd, some root⟩ casing globs).map some

end TreeCensus
