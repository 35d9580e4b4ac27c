import TreeCensus.FileSystem.Image
import TreeCensus.Filter.Source
import TreeCensus.Policy
import TreeCensus.Walk.Run

/-!
# Surveys

Surveys are walks for a purpose: to measure a tree, to find files in it, or to measure several trees
at once. Their globs are relative to the root of the tree.
-/

namespace TreeCensus

set_option autoImplicit false

open Glob (Casing)
open Walk (Caller Handler Logging LogRule Options PathCall PathReply Paths Report)

variable {σ : Type}

/-- A bound on the sweeps of a walk: every node is listed at most once under each first name, and
each task and each level makes a bounded number of steps. -/
def Image.sweeps (img : Image) (paths : Nat) : Nat :=
  let n := img.nodes.length + 2
  64 * (paths + n * n * n)

/-- Walks an image as it is seen from a current directory. -/
def Image.walk (img : Image) (cwd : Path) (options : Options σ) (caller : Caller σ) : Report σ :=
  let paths := match options.paths with
    | .one _ => 1
    | .several ps => ps.length
  Walk.walk (img.toFileSystem cwd) options caller (img.sweeps paths)

namespace Survey

def filterWith (f : Option Filter) : Option (Path → Verdict) := f.map Filter.verdict

/-- Walks the tree below `root`, filtered by globs; `options` gives all else. -/
def walkTree (img : Image) (cwd root : Path) (globs : List GlobSource) (casing : Casing)
    (options : Options σ) (caller : Caller σ) : Except Fault (Report σ) :=
  (Filter.ofSources? (img.toFileSystem cwd) root casing globs).map fun filter =>
    img.walk cwd { options with paths := .several [root], filter := filterWith filter } caller

/-- The options of a walk without handlers. -/
def plainOptions (walkLinks : Bool) : Options σ :=
  ⟨.several [], walkLinks, none, none, none, none, Walk.defaultPriority⟩

def plainCaller (memory : σ) : Caller σ := ⟨.default, false, none, memory⟩

/-- Items are logged if there is somewhere to log them to, or a limit on what is logged. -/
def logRule? (sink : Bool) (maxLevel minSize : Option Int) : Option LogRule :=
  if sink || maxLevel.isSome || minSize.isSome then some ⟨maxLevel, minSize⟩ else none

/-- Measures the tree below `root`; with a rule, items are logged as they are counted. -/
def measure (img : Image) (cwd root : Path) (globs : List GlobSource) (walkLinks : Bool)
    (log : Option Logging) : Except Fault (Report Unit) :=
  walkTree img cwd root globs .heeded { plainOptions walkLinks with log } (plainCaller ())

/-- A handler that notes what it is told and lets every item count. -/
def noting : Handler (List PathCall) PathCall PathReply :=
  ⟨false, fun notes c => (notes ++ [c], ⟨none, false, .ok true⟩)⟩

/-- The files below `root`, in the order of their paths. -/
def findFiles (img : Image) (cwd root : Path) (globs : List GlobSource) (walkLinks : Bool)
    (casing : Casing) : Except Fault (Report (List PathCall)) :=
  walkTree img cwd root globs casing { plainOptions walkLinks with onPath := some noting }
    (plainCaller [])

def filesFound (r : Report (List PathCall)) : List Path :=
  ((r.memory.filter (·.info.kind = .file)).map (·.path)).mergeSort fun p q =>
    !Path.precedes q p

/-- Measures several trees in one walk; globs are relative to the current directory. -/
def measureTrees (img : Image) (cwd : Path) (roots : List Path) (globs : List GlobSource)
    (walkLinks : Bool) : Except Fault (Report (List PathCall)) :=
  (Filter.ofSources? (img.toFileSystem cwd) Path.here .heeded globs).map fun filter =>
    img.walk cwd
      { plainOptions walkLinks with
        paths := .several roots, filter := filterWith filter, onPath := some noting }
      (plainCaller [])

/-- Sets the tally of a path, instead of the one that it had. -/
def setTally (tallies : List (Path × Tally)) (c : PathCall) : List (Path × Tally) :=
  tallies.filter (·.1 ≠ c.path) ++ [(c.path, c.tally)]

/-- The tallies of the roots, in the order of their paths. -/
def treeTallies (r : Report (List PathCall)) : List (Path × Tally) :=
  ((r.memory.filter (·.level = 0)).foldl setTally []).mergeSort fun p q => !Text.precedes q.1 p.1

end Survey

end TreeCensus
