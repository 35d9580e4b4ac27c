import TreeCensus.Fault

/-!
# Networks of cancellation sources

Each source owns one token, under the same number, and may be linked to tokens of other sources. When
a token is cancelled, whoever subscribed to it is told in the order of subscription: a linked source
is cancelled in its turn, with the same reason, before the next one is told. A source that has been
cancelled lets go of its links.
-/

namespace TreeCensus.Cancellation

set_option autoImplicit false

variable {κ : Type}

/-- Who is told of a cancellation: a linked source, or a client from outside. -/
inductive Listener (κ : Type)
  | source (s : Nat)
  | client (c : κ)
  deriving DecidableEq

/-- The same listener may subscribe several times; the serial numbers tell the subscriptions apart. -/
structure Subscription (κ : Type) where
  serial : Nat
  listener : Listener κ
  deriving DecidableEq

structure Token (κ : Type) where
  /-- Why the token was cancelled, if it was. -/
  reason : Option Reason
  subscriptions : List (Subscription κ)
  /-- The tokens that the source of this token is linked to. -/
  links : List Nat
  deriving DecidableEq

namespace Token

def fresh : Token κ := ⟨none, [], []⟩

def isCancelled (t : Token κ) : Bool := t.reason.isSome

/-- Takes away the first subscription of a listener. -/
def dropListener [DecidableEq κ] (l : Listener κ) (t : Token κ) : Token κ :=
  { t with subscriptions := t.subscriptions.eraseP (·.listener = l) }

@[simp] theorem reason_dropListener [DecidableEq κ] (l : Listener κ) (t : Token κ) :
    (t.dropListener l).reason = t.reason := rfl

end Token

structure Network (κ : Type) where
  tokens : List (Token κ)
  /-- The number of subscriptions made so far. -/
  serial : Nat
  deriving DecidableEq

/-- What remains to be done while a cancellation spreads. -/
inductive Notice (κ : Type)
  | tell (l : Listener κ) (r : Reason)
  | close (s : Nat)
  deriving DecidableEq

/-- What a list of notices weighs; a notice to a source outweighs that the source is closed. -/
def Notice.weight : List (Notice κ) → Nat
  | [] => 0
  | tell _ _ :: rest => weight rest + 2
  | close _ :: rest => weight rest + 1

namespace Network

def empty : Network κ := ⟨[], 0⟩

def reason? (net : Network κ) (t : Nat) : Option Reason := net.tokens[t]?.bind (·.reason)

def isCancelled (net : Network κ) (t : Nat) : Bool := (net.reason? t).isSome

/-- The fault that the token reports. -/
def fault (net : Network κ) (t : Nat) : Fault := .ofReason ((net.reason? t).getD .none)

def update (net : Network κ) (t : Nat) (f : Token κ → Token κ) : Network κ :=
  { net with tokens := net.tokens.modify t f }

/-- Adds a subscription to a token that is not cancelled. -/
def subscribe (net : Network κ) (t : Nat) (l : Listener κ) : Network κ :=
  { tokens := net.tokens.modify t fun tok =>
      { tok with subscriptions := tok.subscriptions ++ [⟨net.serial, l⟩] }
    serial := net.serial + 1 }

def unsubscribe [DecidableEq κ] (net : Network κ) (t : Nat) (l : Listener κ) : Network κ :=
  net.update t (·.dropListener l)

/-- Takes a source off all tokens that it is linked to. -/
def detach [DecidableEq κ] (net : Network κ) (s : Nat) : Network κ :=
  let links := (net.tokens[s]?.map (·.links)).getD []
  (links.foldl (fun n t => n.unsubscribe t (.source s)) net).update s fun tok =>
    { tok with links := [] }

/-- Links a source to a token. A token that is already cancelled cancels the source at once. -/
def link [DecidableEq κ] (s : Nat) (net : Network κ) (t : Nat) : Network κ :=
  match net.reason? t with
  | none => (net.subscribe t (.source s)).update s fun tok => { tok with links := tok.links ++ [t] }
  | some r => (net.update s fun tok => { tok with reason := tok.reason.or (some r) }).detach s

/-- A new source that is linked to the given tokens, one after the other. -/
def addSource [DecidableEq κ] (net : Network κ) (linked : List Nat) : Network κ :=
  linked.foldl (link net.tokens.length) { net with tokens := net.tokens ++ [.fresh] }

/-- Marks the token of a source as cancelled, unless it is; what has to be done then. -/
def strike (net : Network κ) (s : Nat) (r : Reason) : Network κ × List (Notice κ) :=
  match net.tokens[s]? with
  | some ⟨none, subscriptions, _⟩ =>
    (net.update s fun tok => { tok with reason := some r, subscriptions := [] },
      subscriptions.map (fun sub => .tell sub.listener r) ++ [.close s])
  | _ => (net, [.close s])

/-- The number of tokens that are not cancelled. -/
def active (net : Network κ) : Nat := net.tokens.countP (!·.isCancelled)

theorem active_update (net : Network κ) (t : Nat) (f : Token κ → Token κ)
    (hf : ∀ tok, (f tok).reason = tok.reason) : (net.update t f).active = net.active := by
  have key : ∀ (l : List (Token κ)) (i : Nat),
      (l.modify i f).countP (!·.isCancelled) = l.countP (!·.isCancelled) := by
    intro l
    induction l with
    | nil => simp
    | cons a l ih =>
      intro i
      cases i with
      | zero => simp [List.countP_cons, Token.isCancelled, hf]
      | succ i => simp [List.countP_cons, ih]
  exact key net.tokens t

theorem active_detach [DecidableEq κ] (net : Network κ) (s : Nat) :
    (net.detach s).active = net.active := by
  have key : ∀ (links : List Nat) (n : Network κ),
      (links.foldl (fun n t => n.unsubscribe t (.source s)) n).active = n.active := by
    intro links
    induction links with
    | nil => simp
    | cons t links ih =>
      intro n
      simp only [List.foldl_cons]
      rw [ih]
      exact active_update n t _ (by simp)
  unfold detach
  rw [active_update _ _ _ (by simp)]
  exact key _ net

theorem active_strike (net : Network κ) (s : Nat) (r : Reason) :
    (net.strike s r).1.active < net.active ∨
      (net.strike s r).1 = net ∧ (net.strike s r).2 = [.close s] := by
  unfold strike
  split
  · next subs links h =>
    left
    have key : ∀ (l : List (Token κ)) (i : Nat), l[i]? = some ⟨none, subs, links⟩ →
        (l.modify i fun tok => { tok with reason := some r, subscriptions := [] }).countP
          (!·.isCancelled) < l.countP (!·.isCancelled) := by
      intro l
      induction l with
      | nil => simp
      | cons a l ih =>
        intro i hi
        cases i with
        | zero =>
          obtain rfl : a = ⟨none, subs, links⟩ := by simpa using hi
          simp [Token.isCancelled]
        | succ i =>
          have := ih i (by simpa using hi)
          simp only [List.modify_succ_cons, List.countP_cons]
          omega
    exact key net.tokens s h
  · exact Or.inr ⟨rfl, rfl⟩

/-- Works off notices. The clients that are told are listed in order, with the reason they hear. -/
def spread [DecidableEq κ] (net : Network κ) : List (Notice κ) → Network κ × List (κ × Reason)
  | [] => (net, [])
  | .tell (.client c) r :: rest =>
    let out := spread net rest
    (out.1, (c, r) :: out.2)
  | .tell (.source s) r :: rest =>
    have := active_strike net s r
    spread (net.strike s r).1 ((net.strike s r).2 ++ rest)
  | .close s :: rest =>
    have := active_detach net s
    spread (net.detach s) rest
termination_by notices => (net.active, Notice.weight notices)
decreasing_by
  · apply Prod.Lex.right
    simp [Notice.weight]
  · rcases this with h | ⟨h, h'⟩
    · exact Prod.Lex.left _ _ h
    · rw [h, h']
      apply Prod.Lex.right
      simp [Notice.weight]
  · rw [this]
    apply Prod.Lex.right
    simp [Notice.weight]

/-- Cancels a source and all that are linked to it, directly or through others. -/
def cancel [DecidableEq κ] (net : Network κ) (s : Nat) (r : Reason) :
    Network κ × List (κ × Reason) :=
  net.spread [.tell (.source s) r]

end Network

end TreeCensus.Cancellation
