import TreeCensus.FileSystem
import TreeCensus.Filter
import TreeCensus.Priority

/-!
# Options of a walk

The handlers of a walk keep a memory of type `σ` from call to call. A handler acts and answers at one
moment, before which it may let others go on. A handler of paths may stop the whole walk, may ask
whether the walk has been stopped, and answers whether the item counts.
-/

namespace TreeCensus.Walk

set_option autoImplicit false

/-- Which items are written to the log. -/
structure LogRule where
  maxLevel : Option Int
  minSize : Option Int
  deriving DecidableEq

/-- Whether an item of this level and size is to be logged. -/
def LogRule.allows (r : LogRule) (level size : Int) : Bool :=
  (match r.minSize with
    | some m => m ≤ size
    | none => true) &&
  (match r.maxLevel with
    | some m => level ≤ m
    | none => true)

structure Logging where
  rule : LogRule
  /-- Whether the log lets others go on when it has taken an item. -/
  yields : Bool
  deriving DecidableEq

/-- A handler that is told an `α` and answers a `β`. -/
structure Handler (σ α β : Type) where
  /-- Whether the handler lets others go on before it acts. -/
  yields : Bool
  act : σ → α → σ × β

/-- What a path handler is told about an item. -/
structure PathCall where
  path : Path
  level : Nat
  info : FileInfo
  tally : Tally
  deriving DecidableEq

/-- What a path handler does, in this order. -/
structure PathReply where
  /-- Cancels the caller's token. -/
  stop : Option Reason
  /-- Fails if the token of the item's level is cancelled. -/
  check : Bool
  answer : Except Fault Bool

inductive Paths
  /-- One path by itself, which is refused. -/
  | one (p : Path)
  | several (ps : List Path)
  deriving DecidableEq

structure Options (σ : Type) where
  paths : Paths
  walkLinks : Bool
  filter : Option (Path → Verdict)
  onPath : Option (Handler σ PathCall PathReply)
  onFault : Option (Handler σ Fault (Except Fault Bool))
  log : Option Logging
  priority : Priority

def defaultPriority : Priority := .create 0 .root

/-- What is given as a handler or a filter. -/
inductive Callback
  | absent | callable | unusable
  deriving DecidableEq

/-- The settings of a walk as far as they can be wrong. -/
structure Settings where
  paths : Paths
  log : Option LogRule
  onPath : Callback
  onFault : Callback
  filter : Callback

def LogRule.issues (r : LogRule) : List Issue :=
  (match r.maxLevel with
    | some m => if m < 0 then [.negativeLevel] else []
    | none => []) ++
  (match r.minSize with
    | some m => if m < 0 then [.negativeSize] else []
    | none => [])

def Settings.issues (s : Settings) : List Issue :=
  (match s.paths with
    | .one _ => [.singlePath]
    | .several _ => []) ++
  (match s.log with
    | some r => r.issues
    | none => []) ++
  (if s.onPath = .unusable then [.pathHandler] else []) ++
  (if s.onFault = .unusable then [.errorHandler] else []) ++
  (if s.filter = .unusable then [.filter] else [])

namespace Options

variable {σ : Type}

def callback {α : Type} (f : Option α) : Callback := if f.isSome then .callable else .absent

def settings (o : Options σ) : Settings :=
  ⟨o.paths, o.log.map (·.rule), callback o.onPath, callback o.onFault, callback o.filter⟩

def issues (o : Options σ) : List Issue := o.settings.issues

end Options

end TreeCensus.Walk
