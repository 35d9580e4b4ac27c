import TreeCensus.Fault
import TreeCensus.Priority

/-!
# Pools of permits

A pool has a fixed number of permits. Who asks for more than are free, or asks while others wait, has
to wait as well. Waiters are admitted in the order of their priorities, equal ones in the order of
their arrival, and the first one is never passed over. What became of a waiter is kept until it is
collected.
-/

namespace TreeCensus

set_option autoImplicit false

structure Waiter where
  ticket : Nat
  priority : Priority
  count : Int
  deriving DecidableEq

inductive Settlement
  | granted
  | refused (f : Fault)
  | abandoned
  deriving DecidableEq

structure Pool where
  capacity : Int
  held : Int
  /-- In the order in which they will be admitted. -/
  waiting : List Waiter
  /-- What became of the tickets that are not collected yet, in the order in which it came. -/
  settled : List (Nat × Settlement)
  /-- The next ticket. -/
  next : Nat
  deriving DecidableEq

namespace Pool

def create (capacity : Int) : Except Fault Pool :=
  if capacity < 1 then .error .emptyPool else .ok ⟨capacity, 0, [], [], 0⟩

/-- The number of permits of a pool that is not asked for one of another size. -/
def defaultCapacity : Int := 32

def default : Pool := ⟨defaultCapacity, 0, [], [], 0⟩

def free (p : Pool) : Int := p.capacity - p.held

def pending (p : Pool) : Nat := p.waiting.length

/-- Puts a waiter that has just come behind all whose priority is not later than its own. -/
def enqueue (w : Waiter) : List Waiter → List Waiter
  | [] => [w]
  | v :: vs => if w.priority.Before v.priority then w :: v :: vs else v :: enqueue w vs

/-- The outcome of admitting waiters from the front of a queue. -/
structure Admitted where
  held : Int
  tickets : List Nat
  waiting : List Waiter

/-- Admits waiters as long as the first one fits. -/
def letIn (capacity held : Int) : List Waiter → Admitted
  | [] => ⟨held, [], []⟩
  | w :: ws =>
    if capacity < held + w.count then ⟨held, [], w :: ws⟩
    else
      let a := letIn capacity (held + w.count) ws
      { a with tickets := w.ticket :: a.tickets }

def wake (p : Pool) : Pool :=
  let a := letIn p.capacity p.held p.waiting
  { p with
    held := a.held
    waiting := a.waiting
    settled := p.settled ++ a.tickets.map fun t => (t, .granted) }

/-- Asks for permits: they are granted at once, or there is a ticket to wait with. -/
def request (p : Pool) (priority : Priority) (count : Int) : Pool × Option Nat :=
  if p.waiting = [] ∧ p.held + count ≤ p.capacity then ({ p with held := p.held + count }, none)
  else
    ({ p with waiting := enqueue ⟨p.next, priority, count⟩ p.waiting, next := p.next + 1 },
      some p.next)

/-- Gives permits back. Giving back more than are held is a fault, but it is done all the same. -/
def release (p : Pool) (count : Int) : Pool × Option Fault :=
  let p := { p with held := p.held - count }
  if p.held < 0 then (p, some .releasedTooMuch) else (p.wake, none)

def isWaiting (p : Pool) (ticket : Nat) : Bool := p.waiting.any (·.ticket = ticket)

/-- Ends the waiting with a ticket, if it still goes on. -/
def settle (p : Pool) (ticket : Nat) (s : Settlement) : Pool :=
  if p.isWaiting ticket then
    { p with
      waiting := p.waiting.filter (·.ticket ≠ ticket)
      settled := p.settled ++ [(ticket, s)] }
  else p

/-- Refuses a waiter, which may let others in. -/
def refuse (p : Pool) (ticket : Nat) (f : Fault) : Pool :=
  if p.isWaiting ticket then (p.settle ticket (.refused f)).wake else p

/-- A waiter that was told to end waits no more; others are let in when it collects. -/
def abandon (p : Pool) (ticket : Nat) : Pool := p.settle ticket .abandoned

/-- Collects what became of a ticket for `count` permits. Whoever was told to end after the permits
were granted gives them back. There is nothing to collect as long as the ticket waits. -/
def collect? (p : Pool) (ticket : Nat) (count : Int) (interrupted : Bool) :
    Option (Pool × Option Fault) :=
  (p.settled.lookup ticket).map fun s =>
    let p := { p with settled := p.settled.eraseP (·.1 = ticket) }
    match s with
    | .granted =>
      if interrupted then
        let (p, failure) := p.release count
        (p, some (failure.getD .interrupted))
      else (p, none)
    | .refused f => (p.wake, some (if interrupted then .interrupted else f))
    | .abandoned => (p.wake, some .interrupted)

def written (p : Pool) : Text :=
  "PriorityPool(hold=".toList ++ Text.ofInt p.held ++ '/' :: Text.ofInt p.capacity ++
    ", pending=".toList ++ Text.ofInt p.pending ++ [')']

end Pool

end TreeCensus
