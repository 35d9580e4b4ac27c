import TreeCensus.Cancellation.Network
import TreeCensus.Pool

/-!
# Admission to a pool

Whoever asks a pool for permits may name a token that calls the request off. While the request waits
it is subscribed to its token; when the token is cancelled, the requests that wait with it are refused
one after the other.
-/

namespace TreeCensus

set_option autoImplicit false

open Cancellation (Network Listener)

structure Admission where
  pool : Pool
  network : Network Nat
  deriving DecidableEq

namespace Admission

/-- The fault of a token, if there is one and it is cancelled. -/
def called? (a : Admission) (token : Option Nat) : Option Fault :=
  token.bind fun t => (a.network.reason? t).map Fault.ofReason

/-- Asks for permits: a fault, permits, or a ticket to wait with. -/
def ask (a : Admission) (priority : Priority) (count : Int) (token : Option Nat) :
    Except Fault (Admission × Option Nat) :=
  if a.pool.capacity < count then .error (.tooLargeRequest count a.pool.capacity)
  else
    match a.called? token with
    | some f => .error f
    | none =>
      match a.pool.request priority count, token with
      | (pool, some ticket), some t =>
        .ok (⟨pool, a.network.subscribe t (.client ticket)⟩, some ticket)
      | (pool, ticket), _ => .ok ({ a with pool }, ticket)

def release (a : Admission) (count : Int) : Admission × Option Fault :=
  let (pool, failure) := a.pool.release count
  ({ a with pool }, failure)

def abandon (a : Admission) (ticket : Nat) : Admission :=
  { a with pool := a.pool.abandon ticket }

/-- Collects what became of a ticket and ends its subscription. -/
def collect? (a : Admission) (ticket : Nat) (count : Int) (token : Option Nat) (interrupted : Bool) :
    Option (Admission × Option Fault) :=
  (a.pool.collect? ticket count interrupted).map fun (pool, failure) =>
    let network := match token with
      | some t => a.network.unsubscribe t (.client ticket)
      | none => a.network
    (⟨pool, network⟩, failure)

/-- Cancels a source and refuses the requests that wait with a token so cancelled. -/
def cancel (a : Admission) (source : Nat) (r : Reason) : Admission :=
  let (network, told) := a.network.cancel source r
  ⟨told.foldl (fun pool p => pool.refuse p.1 (.ofReason p.2)) a.pool, network⟩

end Admission

end TreeCensus
