import TreeCensus.Cancellation.Network

/-!
# Scripts of cancellation

A script names sources, tokens and subscribers and works on them step by step. A source shares its
name with its token until the name is given to another token; the source then keeps it for the steps
that work on sources. A subscriber that is told of a cancellation notes it, and may then perform a
step of its own; that step is done before the next subscriber is told. A step that fails leaves
everything undone that was still to be done.
-/

namespace TreeCensus.Cancellation

set_option autoImplicit false

inductive Step
  | source (id : Text) (linked : List (Option Text))
  | combine (id : Text) (tokens : List (Option Text))
  | cancel (id : Text) (reason : Reason)
  | close (id : Text)
  | enter (id : Text)
  | leave (id : Text)
  | isCancelled (id : Text)
  /-- The `reaction` is what the subscriber does when it is told; only the first one counts. -/
  | subscribe (id token handle : Text) (reaction : Option Step)
  | unsubscribe (handle : Text)
  | raiseIfCancelled (token : Text)
  | fault (token : Text)
  | quote (token : Text)

/-- What a step answers. -/
inductive Answer
  | nothing
  | truth (b : Bool)
  | names (ids : List Text)
  | fault (f : Fault)
  | text (t : Text)

/-- A subscription that can be taken back; none if the subscriber was told at once. -/
abbrev Handle := Option (Nat × Text)

inductive Task
  | notice (n : Notice Text)
  | perform (s : Step)
  | keep (handle : Text) (h : Handle)

structure State where
  network : Network Text
  /-- The sources by name, the latest first. -/
  sources : List (Text × Nat)
  /-- The tokens by name, in the order in which the names were first used. -/
  tokens : List (Text × Nat)
  handles : List (Text × Handle)
  reactions : List (Text × Option Step)
  /-- The subscribers that were told, in order, with the reason they heard. -/
  heard : List (Text × Reason)

namespace State

def empty : State := ⟨.empty, [], [], [], [], []⟩

def token? (st : State) (id : Text) : Option Nat := st.tokens.lookup id

/-- The token of a name; a name that is not bound stands for no token of the network. -/
def token (st : State) (id : Text) : Nat := (st.token? id).getD st.network.tokens.length

/-- The source of a name; a name that is not bound stands for no source of the network. -/
def source (st : State) (id : Text) : Nat :=
  (st.sources.lookup id).getD st.network.tokens.length

def bind (st : State) (id : Text) (t : Nat) : State :=
  { st with
    tokens :=
      if (st.token? id).isSome then st.tokens.map fun p => if p.1 = id then (id, t) else p
      else st.tokens ++ [(id, t)] }

/-- The tokens that are meant by names, missing names being left out. -/
def present (st : State) (ids : List (Option Text)) : List Nat :=
  ids.filterMap fun id => id.bind st.token?

/-- Gives a name to the token of a new source. -/
def addToken (st : State) (id : Text) (linked : List Nat) : State :=
  { st with network := st.network.addSource linked }.bind id st.network.tokens.length

/-- Gives a name to a new source and to its token. -/
def addSource (st : State) (id : Text) (linked : List Nat) : State :=
  { st with sources := (id, st.network.tokens.length) :: st.sources }.addToken id linked

def hasReaction (st : State) (id : Text) : Bool := (st.reactions.lookup id).isSome

/-- Does one task. The tasks that it gives rise to come before those that are still to be done. -/
def advance (st : State) : Task → Except Fault (State × List Task)
  | .notice (.tell (.source s) r) =>
    let (network, notices) := st.network.strike s r
    .ok ({ st with network }, notices.map .notice)
  | .notice (.tell (.client c) r) =>
    let follow := match st.reactions.lookup c with
      | some (some step) => [.perform step]
      | _ => []
    .ok ({ st with heard := st.heard ++ [(c, r)] }, follow)
  | .notice (.close s) => .ok ({ st with network := st.network.detach s }, [])
  | .keep handle h => .ok ({ st with handles := (handle, h) :: st.handles }, [])
  | .perform (.source id linked) => .ok (st.addSource id (st.present linked), [])
  | .perform (.combine id tokens) =>
    match st.present tokens with
    | [t] => .ok (st.bind id t, [])
    | ts => .ok (st.addToken id ts, [])
  | .perform (.cancel id r) => .ok (st, [.notice (.tell (.source (st.source id)) r)])
  | .perform (.close id) | .perform (.leave id) => .ok (st, [.notice (.close (st.source id))])
  | .perform (.subscribe id token handle reaction) =>
    let st :=
      if st.hasReaction id then st else { st with reactions := (id, reaction) :: st.reactions }
    let t := st.token token
    match st.network.reason? t with
    | some r => .ok (st, [.notice (.tell (.client id) r), .keep handle none])
    | none =>
      .ok ({ st with network := st.network.subscribe t (.client id) }, [.keep handle (some (t, id))])
  | .perform (.unsubscribe handle) =>
    match st.handles.lookup handle with
    | some (some (t, id)) => .ok ({ st with network := st.network.unsubscribe t (.client id) }, [])
    | _ => .ok (st, [])
  | .perform (.raiseIfCancelled token) =>
    let t := st.token token
    if st.network.isCancelled t then .error (st.network.fault t) else .ok (st, [])
  | .perform (.enter _) | .perform (.isCancelled _) | .perform (.fault _) | .perform (.quote _) =>
    .ok (st, [])

/-- Does tasks until none is left or one fails; `fuel` bounds their number. -/
def run : (fuel : Nat) → State → List Task → State × Option Fault
  | 0, st, _ => (st, none)
  | _, st, [] => (st, none)
  | fuel + 1, st, task :: rest =>
    match st.advance task with
    | .error f => (st, some f)
    | .ok (st', more) => run fuel st' (more ++ rest)

/-- Subscribers that set each other off for ever are cut short after this many tasks. -/
def patience : Nat := 1000000

/-- The form in which a token is shown. -/
def quoted (st : State) (id : Text) : Text :=
  match st.network.reason? (st.token id) with
  | none => "CancellationToken(active)".toList
  | some r => "CancellationToken(cancelled, reason=".toList ++ r.quoted ++ [')']

/-- What a step that did not fail answers, in the state that it led to. -/
def answer (st : State) : Step → Answer
  | .combine id tokens =>
    .names ((tokens.filterMap fun t => t).filter fun t => st.token? t = st.token? id)
  | .enter _ => .truth true
  | .isCancelled id => .truth (st.network.isCancelled (st.source id))
  | .fault token => .fault (st.network.fault (st.token token))
  | .quote token => .text (st.quoted token)
  | _ => .nothing

def perform (st : State) (step : Step) : State × Answer :=
  let st := { st with heard := [] }
  match st.run patience [.perform step] with
  | (st', some f) => (st', .fault f)
  | (st', none) => (st', st'.answer step)

end State

end TreeCensus.Cancellation
