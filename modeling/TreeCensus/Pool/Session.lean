import TreeCensus.Pool.Admission

/-!
# Sessions of a pool

Several tasks use one pool. A task asks for permits and keeps them, or it runs an errand while it
holds them; an errand may have to wait at a gate. Tasks that can go on are served first come, first
served. A task that is told to end before it has begun comes to nothing, without an event.
-/

namespace TreeCensus.Pool

set_option autoImplicit false

inductive Errand (α : Type)
  /-- Keeps the permits. -/
  | keep
  /-- Ends with `result`; if `gated`, not before its gate is open. -/
  | run (gated : Bool) (result : Except Fault α)

inductive Phase
  | fresh
  | waiting (ticket : Nat)
  | gate
  | over
  deriving DecidableEq

structure Task (α : Type) where
  name : Text
  count : Int
  priority : Priority
  token : Option Nat
  errand : Errand α
  phase : Phase
  /-- Whether the task has been told to end. -/
  interrupted : Bool

inductive Event (α : Type)
  | granted (name : Text)
  | started (name : Text)
  | ended (name : Text) (result : Except Fault α)

structure Session (α : Type) where
  admission : Admission
  tokens : List (Text × Nat)
  tasks : List (Task α)
  /-- The numbers of the tasks that can go on, in the order in which they will. -/
  ready : List Nat
  /-- The tasks whose gates are open. -/
  opened : List Text
  events : List (Event α)

namespace Session

variable {α : Type}

def start (capacity : Int) : Except Fault (Session α) :=
  (Pool.create capacity).map fun pool => ⟨⟨pool, .empty⟩, [], [], [], [], []⟩

def pool (s : Session α) : Pool := s.admission.pool

/-- The token of a name, which is made when it is first used. -/
def token (s : Session α) (name : Text) : Session α × Nat :=
  match s.tokens.lookup name with
  | some t => (s, t)
  | none =>
    let t := s.admission.network.tokens.length
    ({ s with
        admission := { s.admission with network := s.admission.network.addSource [] }
        tokens := (name, t) :: s.tokens }, t)

def note (s : Session α) (e : Event α) : Session α := { s with events := s.events ++ [e] }

def setPhase (s : Session α) (i : Nat) (phase : Phase) : Session α :=
  { s with tasks := s.tasks.modify i fun t => { t with phase } }

def enqueue (s : Session α) (i : Nat) : Session α :=
  if i ∈ s.ready then s else { s with ready := s.ready ++ [i] }

/-- Lets the tasks go on whose tickets are settled. -/
def enqueueSettled (s : Session α) : Session α :=
  s.pool.settled.foldl
    (fun s p =>
      match s.tasks.findIdx? (·.phase = .waiting p.1) with
      | some i => s.enqueue i
      | none => s) s

/-- A task has come to its end. -/
def conclude (s : Session α) (i : Nat) (name : Text) (result : Except Fault α) : Session α :=
  (s.setPhase i .over).note (.ended name result)

/-- An errand is done, and the permits go back. -/
def giveBack (s : Session α) (i : Nat) (t : Task α) (result : Except Fault α) : Session α :=
  match s.admission.release t.count with
  | (admission, none) => { s with admission }.conclude i t.name result
  | (admission, some f) => { s with admission }.conclude i t.name (.error f)

/-- A task has its permits. -/
def proceed (s : Session α) (i : Nat) (t : Task α) : Session α :=
  match t.errand with
  | .keep => (s.setPhase i .over).note (.granted t.name)
  | .run gated result =>
    match s.admission.called? t.token with
    | some f => s.giveBack i t (.error f)
    | none =>
      let s := s.note (.started t.name)
      match result with
      | .error f => s.giveBack i t (.error f)
      | .ok value =>
        if gated ∧ t.name ∉ s.opened then s.setPhase i .gate else s.giveBack i t (.ok value)

/-- Lets a task go on to where it waits next. -/
def resume (s : Session α) (i : Nat) (t : Task α) : Session α :=
  match t.phase with
  | .over => s
  | .fresh =>
    if t.interrupted then s.setPhase i .over
    else
      match s.admission.ask t.priority t.count t.token with
      | .error f => s.conclude i t.name (.error f)
      | .ok (admission, none) => { s with admission }.proceed i t
      | .ok (admission, some ticket) => { s with admission }.setPhase i (.waiting ticket)
  | .waiting ticket =>
    match s.admission.collect? ticket t.count t.token t.interrupted with
    | none => s
    | some (admission, some f) => { s with admission }.conclude i t.name (.error f)
    | some (admission, none) => { s with admission }.proceed i t
  | .gate =>
    match t.interrupted, t.errand with
    | false, .run _ result => s.giveBack i t result
    | _, _ => s.giveBack i t (.error .interrupted)

/-- Lets tasks go on until none can; `fuel` bounds the number of turns. -/
def drain : (fuel : Nat) → Session α → Session α
  | 0, s => s
  | fuel + 1, s =>
    match s.ready with
    | [] => s
    | i :: rest =>
      let s := { s with ready := rest }
      match s.tasks[i]? with
      | none => drain fuel s
      | some t => drain fuel (s.resume i t).enqueueSettled

/-- Lets tasks go on until none can; a task waits at most three times. -/
def settle (s : Session α) : Session α := s.drain (3 * s.tasks.length + s.ready.length)

inductive Step (α : Type)
  | submit (name : Text) (count : Int) (priority : Priority) (token : Option Text)
      (errand : Errand α)
  | release (count : Int)
  | openGate (name : Text)
  | interrupt (name : Text)
  | cancel (token : Text) (reason : Reason)

/-- Tells a task to end. -/
def interrupt (s : Session α) (i : Nat) (t : Task α) : Session α :=
  let s := { s with tasks := s.tasks.modify i fun t => { t with interrupted := true } }
  match t.phase with
  | .waiting ticket => { s with admission := s.admission.abandon ticket }
  | .gate => s.enqueue i
  | .fresh | .over => s

/-- Does a step; tasks that it starts or wakes have not gone on yet. -/
def perform (s : Session α) : Step α → Session α × Option Fault
  | .submit name count priority token errand =>
    let (s, token) := match token with
      | none => (s, none)
      | some name =>
        let (s, t) := s.token name
        (s, some t)
    let t : Task α := ⟨name, count, priority, token, errand, .fresh, false⟩
    ({ s with tasks := s.tasks ++ [t], ready := s.ready ++ [s.tasks.length] }, none)
  | .release count =>
    let (admission, failure) := s.admission.release count
    ({ s with admission }.enqueueSettled, failure)
  | .openGate name =>
    let s := { s with opened := name :: s.opened }
    match s.tasks.findIdx? (fun t => t.name = name ∧ t.phase = .gate) with
    | some i => (s.enqueue i, none)
    | none => (s, none)
  | .interrupt name =>
    match s.tasks.findIdx? (·.name = name) with
    | none => (s, none)
    | some i =>
      match s.tasks[i]? with
      | none => (s, none)
      | some t => ((s.interrupt i t).enqueueSettled, none)
  | .cancel token reason =>
    let (s, t) := s.token token
    ({ s with admission := s.admission.cancel t reason }.enqueueSettled, none)

/-- Does a step and, if told to, lets all tasks go on; the events are those of this step alone. -/
def step (s : Session α) (settling : Bool) (st : Step α) : Session α × Option Fault :=
  let (s, failure) := { s with events := [] }.perform st
  (if settling then s.settle else s, failure)

end Session

end TreeCensus.Pool
