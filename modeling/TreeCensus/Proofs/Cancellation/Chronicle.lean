import TreeCensus.Proofs.Cancellation.Tidiness

/-!
# Chronicles of a network

A chronicle is a network together with what is still to be done and with what has happened. Those who
hear a token that is cancelled are told one after the other, and a client that is told runs a program of
its own, which may call for anything or fail before the next one is told. `Move` allows everything that
can happen, in any order: what a call gives rise to is done before the program that made the call goes
on, and a failure drops all that is to be done, down to some program that goes on in spite of it.
-/

namespace TreeCensus.Cancellation

set_option autoImplicit false

variable {κ : Type}

/-- A subscription on the list of a token has the number that the network gave it. One that was made when
the token was cancelled already is told from others by how much had happened before. -/
inductive Tie
  | listed (token serial : Nat)
  | late (token time : Nat)
  deriving DecidableEq

def Tie.token : Tie → Nat
  | listed t _ => t
  | late t _ => t

/-- What is still to be done. -/
inductive Item (κ : Type)
  /-- Somebody has to be told, through a subscription or because a call asks for it. -/
  | tell (tie : Option Tie) (l : Listener κ) (r : Reason)
  | close (s : Nat)
  /-- A program that was called has to come to its end. -/
  | program
  deriving DecidableEq

inductive Event (κ : Type)
  /-- A new source was linked to some tokens. -/
  | source (s : Nat) (linked : List Nat)
  | cancel (s : Nat) (r : Reason)
  | close (s : Nat)
  | subscribe (tie : Tie) (c : κ)
  | unsubscribe (tie : Tie) (c : κ)
  | told (tie : Option Tie) (l : Listener κ) (r : Reason)
  | failed
  deriving DecidableEq

namespace Item

def notice? : Item κ → Option (Notice κ)
  | tell _ l r => some (.tell l r)
  | close s => some (.close s)
  | program => none

/-- The subscription through which somebody has to be told. -/
def tie? : Item κ → Option Tie
  | tell tie _ _ => tie
  | close _ | program => none

end Item

/-- The subscription through which somebody was told. -/
def Event.tie? : Event κ → Option Tie
  | told tie _ _ => tie
  | _ => none

/-- The client that was told, and the reason that it heard. -/
def Event.heard? : Event κ → Option (κ × Reason)
  | told _ (.client c) r => some (c, r)
  | _ => none

/-- A program can make a call when it is its turn, and so can whoever is outside when all is done. -/
inductive Idle : List (Item κ) → Prop
  | done : Idle []
  | program (rest : List (Item κ)) : Idle (.program :: rest)

/-- What has to be done when a token is struck. -/
def Network.dues (net : Network κ) (s : Nat) (r : Reason) : List (Item κ) :=
  if net.reason? s = none then
    (net.subscriptions s).map (fun sub => .tell (some (.listed s sub.serial)) sub.listener r) ++ [.close s]
  else [.close s]

/-- Takes back a subscription of a client. There is nothing to take back if the client was told at once. -/
def Network.untie [DecidableEq κ] (net : Network κ) (c : κ) : Tie → Network κ
  | .listed t _ => net.unsubscribe t (.client c)
  | .late _ _ => net

structure Chronicle (κ : Type) where
  network : Network κ
  /-- What is still to be done, the next first. -/
  agenda : List (Item κ)
  /-- What has happened, the latest last. -/
  trace : List (Event κ)

namespace Chronicle

def start : Chronicle κ := ⟨.empty, [], []⟩

/-- What has happened since an earlier time. -/
def since (q p : Chronicle κ) : List (Event κ) := q.trace.drop p.trace.length

/-- The subscriptions through which somebody has still to be told. -/
def due (p : Chronicle κ) : List Tie := p.agenda.filterMap Item.tie?

/-- The subscriptions through which somebody was told, once for every time. -/
def fired (p : Chronicle κ) : List Tie := p.trace.filterMap Event.tie?

variable [DecidableEq κ]

/-- A new source; missing tokens are left out. -/
def create (p : Chronicle κ) (linked : List (Option Nat)) : Chronicle κ :=
  { p with
    network := p.network.addSource linked.reduceOption
    trace := p.trace ++ [.source p.network.tokens.length linked.reduceOption] }

/-- One token that is cancelled when one of some tokens is: the only one that is there, or that of a new
source. -/
def combine (p : Chronicle κ) (tokens : List (Option Nat)) : Chronicle κ × Nat :=
  match tokens.reduceOption with
  | [t] => (p, t)
  | _ => (p.create tokens, p.network.tokens.length)

inductive Move : Chronicle κ → Chronicle κ → Prop
  | create (p : Chronicle κ) (linked : List (Option Nat)) (idle : Idle p.agenda)
      (known : ∀ t, some t ∈ linked → t < p.network.tokens.length) : Move p (p.create linked)
  | cancel (p : Chronicle κ) (s : Nat) (r : Reason) (idle : Idle p.agenda)
      (known : s < p.network.tokens.length) :
      Move p { p with
        agenda := .tell none (.source s) r :: p.agenda
        trace := p.trace ++ [.cancel s r] }
  | close (p : Chronicle κ) (s : Nat) (idle : Idle p.agenda) (known : s < p.network.tokens.length) :
      Move p { p with agenda := .close s :: p.agenda, trace := p.trace ++ [.close s] }
  | subscribe (p : Chronicle κ) (t : Nat) (c : κ) (idle : Idle p.agenda)
      (known : t < p.network.tokens.length) (quiet : p.network.reason? t = none) :
      Move p { p with
        network := p.network.subscribe t (.client c)
        trace := p.trace ++ [.subscribe (.listed t p.network.serial) c] }
  /-- Whoever subscribes to a cancelled token is told at once. -/
  | late (p : Chronicle κ) (t : Nat) (c : κ) (r : Reason) (idle : Idle p.agenda)
      (struck : p.network.reason? t = some r) :
      Move p { p with
        agenda := .tell (some (.late t p.trace.length)) (.client c) r :: p.agenda
        trace := p.trace ++ [.subscribe (.late t p.trace.length) c] }
  | unsubscribe (p : Chronicle κ) (tie : Tie) (c : κ) (idle : Idle p.agenda)
      (made : .subscribe tie c ∈ p.trace) :
      Move p { p with
        network := p.network.untie c tie
        trace := p.trace ++ [.unsubscribe tie c] }
  /-- A source that is told is cancelled. -/
  | strike (p : Chronicle κ) (tie : Option Tie) (s : Nat) (r : Reason) (rest : List (Item κ))
      (next : p.agenda = .tell tie (.source s) r :: rest) :
      Move p
        { network := (p.network.strike s r).1
          agenda := p.network.dues s r ++ rest
          trace := p.trace ++ [.told tie (.source s) r] }
  | tell (p : Chronicle κ) (tie : Option Tie) (c : κ) (r : Reason) (rest : List (Item κ))
      (next : p.agenda = .tell tie (.client c) r :: rest) :
      Move p { p with
        agenda := .program :: rest
        trace := p.trace ++ [.told tie (.client c) r] }
  | detach (p : Chronicle κ) (s : Nat) (rest : List (Item κ)) (next : p.agenda = .close s :: rest) :
      Move p { p with network := p.network.detach s, agenda := rest }
  | finish (p : Chronicle κ) (rest : List (Item κ)) (next : p.agenda = .program :: rest) :
      Move p { p with agenda := rest }
  /-- A program fails, and another one that is under way, or whoever is outside, goes on. -/
  | fail (p : Chronicle κ) (rest kept : List (Item κ)) (next : p.agenda = .program :: rest)
      (suffix : kept <:+ rest) (idle : Idle kept) :
      Move p { p with agenda := kept, trace := p.trace ++ [.failed] }

inductive Moves : Chronicle κ → Chronicle κ → Prop
  | refl (p : Chronicle κ) : Moves p p
  | cons {p q m : Chronicle κ} : Move p q → Moves q m → Moves p m

variable {p q m : Chronicle κ}

namespace Moves

theorem trans (h : Moves p q) (h' : Moves q m) : Moves p m := by
  induction h with
  | refl => exact h'
  | cons hone _ ih => exact .cons hone (ih h')

theorem single (h : Move p q) : Moves p q := .cons h (.refl q)

theorem tail (h : Moves p q) (h' : Move q m) : Moves p m := h.trans (.single h')

/-- What every move keeps is kept by all of them. -/
theorem induct {motive : Chronicle κ → Prop} (h : Moves p q) (hp : motive p)
    (hmove : ∀ {a b}, Moves p a → motive a → Move a b → motive b) : motive q := by
  have hfrom : ∀ {a b}, Moves a b → Moves p a → motive a → motive b := by
    intro a b hab
    induction hab with
    | refl => exact fun _ ha => ha
    | cons hone _ ih => exact fun hpa ha => ih (hpa.tail hone) (hmove hpa ha hone)
  exact hfrom h (.refl p) hp

end Moves

theorem Move.trace (h : Move p q) : ∃ new, q.trace = p.trace ++ new := by
  cases h with
  | create | cancel | close | subscribe | late | unsubscribe | strike | tell | fail => exact ⟨_, rfl⟩
  | detach | finish => exact ⟨[], (List.append_nil _).symm⟩

theorem Moves.trace (h : Moves p q) : q.trace = p.trace ++ q.since p := by
  have hprefix : p.trace <+: q.trace := by
    induction h with
    | refl => exact List.prefix_rfl
    | cons hone _ ih =>
      obtain ⟨new, hnew⟩ := hone.trace
      exact .trans ⟨new, hnew.symm⟩ ih
  obtain ⟨new, hnew⟩ := hprefix
  unfold since
  rw [← hnew, List.drop_left]

omit [DecidableEq κ] in
@[simp] theorem since_self (p : Chronicle κ) : p.since p = [] := List.drop_length

omit [DecidableEq κ] in
theorem since_eq {new : List (Event κ)} (h : q.trace = p.trace ++ new) : q.since p = new := by
  unfold since
  rw [h, List.drop_left]

omit [DecidableEq κ] in
theorem eq_of_mem_since {e new : Event κ} (h : q.trace = p.trace ++ [new]) (hmem : e ∈ q.since p) :
    e = new := by
  rw [since_eq h] at hmem
  exact List.mem_singleton.mp hmem

theorem Moves.since (h : Moves p q) (h' : Moves q m) : m.since p = q.since p ++ m.since q :=
  since_eq (by rw [← List.append_assoc, ← h.trace, ← h'.trace])

theorem Moves.mem_trace (h : Moves p q) {e : Event κ} (he : e ∈ p.trace) : e ∈ q.trace := by
  rw [h.trace]
  exact List.mem_append_left _ he

end Chronicle

end TreeCensus.Cancellation
