import TreeCensus.Pool.Admission
import TreeCensus.Walk.Options

/-!
# States of a walk

Every item of a level is visited by a task of its own. A directory opens a level below it and waits
until that level is closed; a link that is followed is visited as part of the same task. Tasks share
one pool, the set of identities that have been visited, and the memory of the handlers. Each level
has a cancellation source that is linked to the token of the level above it.
-/

namespace TreeCensus.Walk

set_option autoImplicit false

/-- An item on the way through its visit. -/
structure Visit where
  /-- Where the item is. -/
  place : Path
  /-- The path under which it is reported. -/
  name : Path
  /-- Its place among its siblings. -/
  index : Nat
  verdict : Verdict
  /-- The links that were followed to get to `place`, the last one first. -/
  outer : List FileInfo
  deriving DecidableEq

/-- What a permit is needed for. -/
inductive Job
  | info
  | target (i : FileInfo)
  | entries (i : FileInfo)
  | report (i : FileInfo) (t : Tally)
  deriving DecidableEq

inductive Phase
  | fresh
  /-- Waits for a permit. -/
  | queued (ticket : Nat) (job : Job)
  /-- A call on the file system or on the path handler is in progress; a permit is held. -/
  | calling (job : Job)
  /-- A call on the fault handler is in progress; a permit is held. -/
  | consulting (job : Job) (f : Fault)
  /-- The item is being logged. -/
  | logging (t : Tally)
  /-- Waits for a level below. -/
  | descending (level : Nat) (i : FileInfo)
  | ended (result : Except Fault (Option Tally))

namespace Phase

def isEnded : Phase → Bool
  | ended _ => true
  | _ => false

/-- Whether a task in this phase has a permit. -/
def holdsPermit : Phase → Bool
  | calling _ | consulting _ _ => true
  | _ => false

end Phase

structure Task where
  level : Nat
  visit : Visit
  phase : Phase
  /-- Whether the task has been told to end. -/
  interrupted : Bool

inductive Stage
  | running
  /-- A fault has ended the level, which waits for its tasks to end. -/
  | draining (f : Fault)
  | closed (result : Except Fault Tally)

def Stage.isClosed : Stage → Bool
  | closed _ => true
  | _ => false

structure Level where
  /-- The number of its cancellation source. -/
  source : Nat
  depth : Nat
  priority : Priority
  total : Tally
  /-- The first fault with which one of its tasks ended. -/
  failure : Option Fault
  /-- Whether the task that waits for the level has been told to end. -/
  interrupted : Bool
  stage : Stage

inductive Event
  | stated (p : Path)
  | linkRead (p : Path)
  | listed (p : Path)
  | reported (c : PathCall)
  | offered (f : Fault)
  | logged (line : Text)
  deriving DecidableEq

structure State (σ : Type) where
  admission : Admission
  visited : List Text
  levels : List Level
  tasks : List Task
  /-- What has happened, the latest first. -/
  trace : List Event
  memory : σ

/-- A level that has no tasks; it stands for the levels that are not there. -/
def Level.none : Level := ⟨0, 0, .root, .zero, .none, false, .running⟩

namespace State

variable {σ : Type}

def level (s : State σ) (k : Nat) : Level := s.levels[k]?.getD .none

def note (s : State σ) (e : Event) : State σ := { s with trace := e :: s.trace }

def updateTask (s : State σ) (i : Nat) (f : Task → Task) : State σ :=
  { s with tasks := s.tasks.modify i f }

def updateLevel (s : State σ) (k : Nat) (f : Level → Level) : State σ :=
  { s with levels := s.levels.modify k f }

def setPhase (s : State σ) (i : Nat) (phase : Phase) : State σ :=
  s.updateTask i fun t => { t with phase }

/-- Whether all tasks of a level have ended. -/
def allEnded (s : State σ) (k : Nat) : Bool :=
  s.tasks.all fun t => t.level ≠ k || t.phase.isEnded

end State

/-- The number of the caller's own source and token. -/
def callerToken : Nat := 0

end TreeCensus.Walk
