import TreeCensus.Proofs.Cancellation.Links
import TreeCensus.Proofs.Pool.Stakes

/-!
# Trades

`Trade allowed given taken a b` says what is common to all operations on an admission: from `a` to
`b` somebody gives up some stakes in the pool and takes others, whatever else is at stake there, and
subscribes to no tokens but those that are `allowed`. Parties that each ask, wait, hold and give back
as they please make a `Dealing`.
-/

namespace TreeCensus

set_option autoImplicit false

open Cancellation (Network)
open Pool (Serves Settles Stake)

namespace Pool

theorem Settles.capacity {p q : Pool} (h : Settles p q) : q.capacity = p.capacity := by
  induction h with
  | refl p => rfl
  | cons hone _ ih =>
    rw [ih]
    cases hone <;> rfl

theorem capacity_request (p : Pool) (priority : Priority) (count : Int) :
    (p.request priority count).1.capacity = p.capacity := by
  unfold request
  split <;> rfl

theorem capacity_release (p : Pool) (count : Int) : (p.release count).1.capacity = p.capacity := by
  unfold release
  dsimp only
  split <;> rfl

theorem capacity_collect? {p q : Pool} {ticket : Nat} {count : Int} {interrupted : Bool}
    {failure : Option Fault} (h : p.collect? ticket count interrupted = some (q, failure)) :
    q.capacity = p.capacity := by
  rcases collect?_cases h with ⟨_, _, rfl, _⟩ | ⟨_, _, rfl, _⟩ | ⟨_, _, _, rfl, _⟩
  · rfl
  · exact capacity_release _ _
  · rfl

end Pool

structure Trade (allowed : Nat → Prop) (given taken : List Stake) (a b : Admission) : Prop where
  capacity : b.pool.capacity = a.pool.capacity
  serves : ∀ rest, Serves a.pool (given ++ rest) → Serves b.pool (taken ++ rest)
  linked : a.network.Linked → b.network.Linked
  follows : Network.Follows allowed a.network b.network

namespace Trade

variable {allowed : Nat → Prop} {given taken left : List Stake} {a b c : Admission}

theorem refl (allowed : Nat → Prop) (stakes : List Stake) (a : Admission) :
    Trade allowed stakes stakes a a :=
  ⟨rfl, fun _ h => h, fun h => h, .refl _⟩

theorem trans (h : Trade allowed given taken a b) (h' : Trade allowed taken left b c) :
    Trade allowed given left a c := by
  refine ⟨h'.capacity.trans h.capacity, ?_, ?_, h.follows.trans h'.follows⟩
  · intro rest hserves
    exact h'.serves rest (h.serves rest hserves)
  · intro hlinked
    exact h'.linked (h.linked hlinked)

/-- Who keeps some stakes besides trades all the same. -/
theorem keep (h : Trade allowed given taken a b) (kept : List Stake) :
    Trade allowed (given ++ kept) (taken ++ kept) a b := by
  refine ⟨h.capacity, ?_, h.linked, h.follows⟩
  intro rest hserves
  rw [List.append_assoc] at hserves ⊢
  exact h.serves _ hserves

theorem congr (h : Trade allowed given taken a b) {given' taken' : List Stake}
    (hgiven : given'.Perm given) (htaken : taken.Perm taken') : Trade allowed given' taken' a b := by
  refine ⟨h.capacity, ?_, h.linked, h.follows⟩
  intro rest hserves
  exact (h.serves rest (hserves.perm (hgiven.append_right rest))).perm (htaken.append_right rest)

/-- Waiters are settled; nobody has to do anything about it. -/
theorem settles (h : Settles a.pool b.pool) (hnetwork : b.network = a.network) :
    Trade allowed given given a b := by
  refine ⟨h.capacity, fun _ hserves => hserves.settles h, ?_, ?_⟩
  · rw [hnetwork]
    exact id
  · rw [hnetwork]
    exact .refl _

theorem grant {priority : Priority} {count : Int} {token : Option Nat} (hcount : 0 < count)
    (h : a.ask priority count token = .ok (b, none)) : Trade allowed [] [.hold count] a b := by
  obtain ⟨_, _, hrequest, hnetwork⟩ := Admission.ask_cases h
  have hsame : b.network = a.network := by cases token <;> exact hnetwork
  refine ⟨?_, ?_, ?_, ?_⟩
  · rw [← Pool.capacity_request a.pool priority count, hrequest]
  · intro rest hserves
    exact (Pool.Serves.cons_none.mpr hserves).grant hcount hrequest
  · rw [hsame]
    exact id
  · rw [hsame]
    exact .refl _

theorem queue {priority : Priority} {count : Int} {token : Option Nat} {ticket : Nat}
    (hcount : 0 < count) (htoken : ∀ t ∈ token, allowed t)
    (h : a.ask priority count token = .ok (b, some ticket)) :
    Trade allowed [] [.claim ticket count] a b := by
  obtain ⟨_, _, hrequest, hnetwork⟩ := Admission.ask_cases h
  have hserves : ∀ rest, Serves a.pool ([] ++ rest) → Serves b.pool ([.claim ticket count] ++ rest) :=
    fun rest hserves => (Pool.Serves.cons_none.mpr hserves).queue hcount hrequest
  have hcapacity : b.pool.capacity = a.pool.capacity := by
    rw [← Pool.capacity_request a.pool priority count, hrequest]
  cases token with
  | none =>
    have hsame : b.network = a.network := hnetwork
    exact ⟨hcapacity, hserves, by rw [hsame]; exact id, by rw [hsame]; exact .refl _⟩
  | some t =>
    have hsubscribe : b.network = a.network.subscribe t (.client ticket) := hnetwork
    refine ⟨hcapacity, hserves, ?_, ?_⟩
    · rw [hsubscribe]
      exact fun hlinked => hlinked.subscribe t ticket
    · rw [hsubscribe]
      exact .subscribe _ (htoken t rfl) _

theorem release (a : Admission) (count : Int) :
    Trade allowed [.hold count] [] a (a.release count).1 := by
  refine ⟨Pool.capacity_release a.pool count, ?_, id, .refl _⟩
  intro rest hserves
  exact Pool.Serves.cons_none.mp (Pool.Serves.release hserves).2

theorem collect {ticket : Nat} {count : Int} {token : Option Nat} {interrupted : Bool}
    {failure : Option Fault} (h : a.collect? ticket count token interrupted = some (b, failure)) :
    Trade allowed [.claim ticket count] (if failure = none then [.hold count] else []) a b := by
  obtain ⟨hpool, hnetwork⟩ := Admission.collect?_cases h
  have hserves : ∀ rest, Serves a.pool ([.claim ticket count] ++ rest) →
      Serves b.pool ((if failure = none then [.hold count] else []) ++ rest) := by
    intro rest hserves
    have hcollect := Pool.Serves.collect hserves hpool
    cases failure with
    | none => exact hcollect
    | some f => exact Pool.Serves.cons_none.mp hcollect
  cases token with
  | none =>
    have hsame : b.network = a.network := hnetwork
    exact ⟨Pool.capacity_collect? hpool, hserves, by rw [hsame]; exact id, by rw [hsame]; exact .refl _⟩
  | some t =>
    have hunsubscribe : b.network = a.network.unsubscribe t (.client ticket) := hnetwork
    refine ⟨Pool.capacity_collect? hpool, hserves, ?_, ?_⟩
    · rw [hunsubscribe]
      exact fun hlinked => hlinked.unsubscribe t ticket
    · rw [hunsubscribe]
      exact .unsubscribe _ t _

theorem abandon (a : Admission) (ticket : Nat) : Trade allowed given given a (a.abandon ticket) :=
  settles (a.settles_abandon ticket) rfl

theorem foldl_abandon (tickets : List Nat) : ∀ a : Admission,
    Trade allowed given given a (tickets.foldl (fun a ticket => a.abandon ticket) a) := by
  induction tickets with
  | nil => exact refl allowed given
  | cons ticket tickets ih =>
    intro a
    exact (abandon a ticket).trans (ih _)

theorem refuse (a : Admission) (ticket : Nat) (f : Fault) :
    Trade allowed given given a { a with pool := a.pool.refuse ticket f } :=
  settles (Pool.settles_refuse a.pool ticket f) rfl

theorem cancel (a : Admission) (source : Nat) (r : Reason) :
    Trade allowed given given a (a.cancel source r) :=
  ⟨(a.settles_cancel source r).capacity, fun _ hserves => hserves.settles (a.settles_cancel source r),
    fun hlinked => hlinked.cancel source r, .cancel a.network source r⟩

theorem addSource (a : Admission) {linked : List Nat} (hlinked : ∀ t ∈ linked, allowed t) :
    Trade allowed given given a { a with network := a.network.addSource linked } :=
  ⟨rfl, fun _ hserves => hserves, fun h => h.addSource linked, .addSource a.network hlinked⟩

theorem detach (a : Admission) (source : Nat) :
    Trade allowed given given a { a with network := a.network.detach source } :=
  ⟨rfl, fun _ hserves => hserves, fun h => h.detach source, .detach a.network source⟩

end Trade

namespace Admission

/-- What the parties with the given stakes may do: anyone may come and ask; who holds permits may give
them back; a request may be collected, called off or refused. Sources may be cancelled, made and taken
off their tokens at any time. -/
inductive Dealing : Admission → List Stake → Admission → List Stake → Prop
  | grant {a b : Admission} {stakes : List Stake} {priority : Priority} {count : Int}
      {token : Option Nat} (positive : 0 < count) (asked : a.ask priority count token = .ok (b, none)) :
      Dealing a stakes b (.hold count :: stakes)
  | queue {a b : Admission} {stakes : List Stake} {priority : Priority} {count : Int}
      {token : Option Nat} {ticket : Nat} (positive : 0 < count)
      (asked : a.ask priority count token = .ok (b, some ticket)) :
      Dealing a stakes b (.claim ticket count :: stakes)
  | release {a : Admission} {stakes rest : List Stake} {count : Int}
      (holds : stakes.Perm (.hold count :: rest)) : Dealing a stakes (a.release count).1 rest
  | collect {a b : Admission} {stakes rest : List Stake} {ticket : Nat} {count : Int}
      {token : Option Nat} {interrupted : Bool} {failure : Option Fault}
      (waits : stakes.Perm (.claim ticket count :: rest))
      (collected : a.collect? ticket count token interrupted = some (b, failure)) :
      Dealing a stakes b ((if failure = none then [.hold count] else []) ++ rest)
  | abandon {a : Admission} {stakes : List Stake} {ticket : Nat} {count : Int}
      (waits : .claim ticket count ∈ stakes) : Dealing a stakes (a.abandon ticket) stakes
  | refuse {a : Admission} {stakes : List Stake} {ticket : Nat} {count : Int}
      (waits : .claim ticket count ∈ stakes) (f : Fault) :
      Dealing a stakes { a with pool := a.pool.refuse ticket f } stakes
  | cancel {a : Admission} {stakes : List Stake} (source : Nat) (r : Reason) :
      Dealing a stakes (a.cancel source r) stakes
  | addSource {a : Admission} {stakes : List Stake} (linked : List Nat) :
      Dealing a stakes { a with network := a.network.addSource linked } stakes
  | detach {a : Admission} {stakes : List Stake} (source : Nat) :
      Dealing a stakes { a with network := a.network.detach source } stakes

theorem Dealing.trade {a b : Admission} {stakes stakes' : List Stake}
    (h : Dealing a stakes b stakes') : Trade (fun _ => True) stakes stakes' a b := by
  cases h with
  | grant positive asked => exact (Trade.grant positive asked).keep stakes
  | queue positive asked => exact (Trade.queue positive (fun _ _ => trivial) asked).keep stakes
  | release holds => exact ((Trade.release a _).keep stakes').congr holds (.refl _)
  | collect waits collected => exact ((Trade.collect collected).keep _).congr waits (.refl _)
  | abandon waits => exact .abandon a _
  | refuse waits f => exact .refuse a _ f
  | cancel source r => exact .cancel a source r
  | addSource linked => exact .addSource a fun _ _ => trivial
  | detach source => exact .detach a source

end Admission

end TreeCensus
