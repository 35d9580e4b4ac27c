import TreeCensus.Walk.Advance

/-!
# Runs of a walk

A run lets tasks and levels make their steps in turn until the topmost level is closed.
-/

namespace TreeCensus.Walk

set_option autoImplicit false

variable {σ : Type}

/-- The caller's side of a walk. -/
structure Caller (σ : Type) where
  pool : Pool
  /-- Whether the walk heeds the caller's token. -/
  heeded : Bool
  /-- The reason, if the token was cancelled before the walk. -/
  cancelled : Option Reason
  memory : σ

/-- What a walk leaves behind. -/
structure Report (σ : Type) where
  result : Except Fault Tally
  trace : List Event
  memory : σ

namespace State

/-- The state in which a walk of the given paths begins. -/
def start (env : Environment σ) (caller : Caller σ) (paths : List Path) : State σ :=
  let s : State σ := ⟨⟨caller.pool, Cancellation.Network.empty.addSource []⟩, [], [], [], [], caller.memory⟩
  s.openLevel env (if caller.heeded then [callerToken] else []) 0 env.options.priority paths

def stepOr (env : Environment σ) (s : State σ) (a : Actor) : State σ := (s.step? env a).getD s

/-- Gives every task a step, the first one first, and then every level, the lowest one first. -/
def sweep (env : Environment σ) (s : State σ) : State σ :=
  let s := (List.range s.tasks.length).foldl (fun s i => s.stepOr env (.task i)) s
  (List.range s.levels.length).reverse.foldl (fun s k => s.stepOr env (.level k)) s

def result? (s : State σ) : Option (Except Fault Tally) :=
  match (s.level 0).stage with
  | .closed r => some r
  | _ => none

/-- Sweeps until the topmost level is closed, at most `fuel` times. -/
def run (env : Environment σ) : (fuel : Nat) → State σ → State σ
  | 0, s => s
  | fuel + 1, s => if s.result?.isSome then s else run env fuel (s.sweep env)

end State

/-- Walks with at most `fuel` sweeps; a walk that does not end within them reports an interruption. -/
def walk (files : FileSystem) (options : Options σ) (caller : Caller σ) (fuel : Nat) : Report σ :=
  let failed (f : Fault) : Report σ := ⟨.error f, [], caller.memory⟩
  match options.paths with
  | .one _ => failed (.invalidSettings options.issues)
  | .several paths =>
    if options.issues ≠ [] then failed (.invalidSettings options.issues)
    else
      match caller.heeded, caller.cancelled with
      | true, some r => failed (.ofReason r)
      | _, _ =>
        let env : Environment σ := ⟨files, options, fun _ => none⟩
        let s := (State.start env caller paths).run env fuel
        ⟨s.result?.getD (.error .interrupted), s.trace.reverse, s.memory⟩

namespace Report

def stated (r : Report σ) : List Path :=
  r.trace.filterMap fun e => match e with
    | .stated p => some p
    | _ => none

def listed (r : Report σ) : List Path :=
  r.trace.filterMap fun e => match e with
    | .listed p => some p
    | _ => none

def calls (r : Report σ) : List PathCall :=
  r.trace.filterMap fun e => match e with
    | .reported c => some c
    | _ => none

def offered (r : Report σ) : List Fault :=
  r.trace.filterMap fun e => match e with
    | .offered f => some f
    | _ => none

def lines (r : Report σ) : List Text :=
  r.trace.filterMap fun e => match e with
    | .logged l => some l
    | _ => none

end Report

end TreeCensus.Walk
