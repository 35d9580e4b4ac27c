import TreeCensus.Proofs.Pool.Trades

/-!
# Calm admissions

As long as nobody is told to end and no source is cancelled, a pool only ever grants requests, and
nobody waits while a permit is free. Everybody asks for one permit at a time here.
-/

namespace TreeCensus

set_option autoImplicit false

open Cancellation (Listener Network Token)

namespace Cancellation.Network

variable {κ : Type}

def Quiet (net : Network κ) : Prop := ∀ t, net.reason? t = none

namespace Quiet

variable {net : Network κ}

theorem update (h : Quiet net) (t : Nat) {f : Token κ → Token κ}
    (hf : ∀ tok, (f tok).reason = tok.reason) : Quiet (net.update t f) := by
  intro u
  rw [reason?_update net t u hf]
  exact h u

theorem subscribe (h : Quiet net) (t : Nat) (l : Listener κ) : Quiet (net.subscribe t l) := by
  have hupdate := h.update t (f := fun tok =>
    { tok with subscriptions := tok.subscriptions ++ [⟨net.serial, l⟩] }) fun _ => rfl
  exact hupdate

variable [DecidableEq κ]

theorem unsubscribe (h : Quiet net) (t : Nat) (l : Listener κ) : Quiet (net.unsubscribe t l) :=
  h.update t fun _ => rfl

theorem detach (h : Quiet net) (s : Nat) : Quiet (net.detach s) := by
  rw [detach_eq]
  refine update ?_ s fun _ => rfl
  generalize net.links s = tokens
  induction tokens generalizing net with
  | nil => exact h
  | cons t tokens ih => exact ih (h.unsubscribe t _)

theorem link (h : Quiet net) (s t : Nat) : Quiet (net.link s t) := by
  unfold Network.link
  rw [h t]
  exact (h.subscribe t _).update s fun _ => rfl

theorem addSource (h : Quiet net) (linked : List Nat) : Quiet (net.addSource linked) := by
  have hfresh : Quiet { net with tokens := net.tokens ++ [Token.fresh] } := by
    intro t
    unfold reason?
    rw [getElem?_append_fresh]
    split
    · rfl
    · exact h t
  unfold Network.addSource
  generalize net.tokens.length = s
  generalize { net with tokens := net.tokens ++ [Token.fresh] } = net' at hfresh ⊢
  induction linked generalizing net' with
  | nil => exact hfresh
  | cons t linked ih => exact ih _ (hfresh.link s t)

end Quiet

end Cancellation.Network

namespace Pool

structure Fair (p : Pool) : Prop where
  granted : ∀ e ∈ p.settled, e.2 = .granted
  single : ∀ w ∈ p.waiting, w.count = 1
  full : p.waiting ≠ [] → p.capacity ≤ p.held

theorem full_letIn {capacity : Int} (ws : List Waiter) :
    ∀ held, (∀ w ∈ ws, w.count = 1) → (∀ w ∈ (letIn capacity held ws).waiting, w ∈ ws) ∧
      ((letIn capacity held ws).waiting ≠ [] → capacity ≤ (letIn capacity held ws).held) := by
  induction ws with
  | nil =>
    intro held _
    exact ⟨fun _ hw => hw, fun hne => absurd rfl hne⟩
  | cons w ws ih =>
    intro held hcounts
    have hcount := hcounts w List.mem_cons_self
    unfold letIn
    split
    · refine ⟨fun _ hv => hv, fun _ => ?_⟩
      dsimp only
      omega
    · obtain ⟨hmem, hfull⟩ := ih (held + w.count) fun v hv => hcounts v (List.mem_cons_of_mem w hv)
      exact ⟨fun v hv => List.mem_cons_of_mem w (hmem v hv), hfull⟩

namespace Fair

variable {p q : Pool}

theorem wake (hgranted : ∀ e ∈ p.settled, e.2 = .granted) (hsingle : ∀ w ∈ p.waiting, w.count = 1) :
    Fair p.wake := by
  obtain ⟨hmem, hfull⟩ := full_letIn p.waiting p.held hsingle
  refine ⟨?_, fun w hw => hsingle w (hmem w hw), hfull⟩
  intro e he
  rcases List.mem_append.mp he with he | he
  · exact hgranted e he
  · obtain ⟨ticket, _, rfl⟩ := List.mem_map.mp he
    rfl

theorem request (h : Fair p) (priority : Priority) : Fair (p.request priority 1).1 := by
  unfold Pool.request
  split
  · next hfree => exact ⟨h.granted, h.single, fun hne => absurd hfree.1 hne⟩
  · next hbusy =>
    refine ⟨h.granted, ?_, ?_⟩
    · intro w hw
      rcases List.mem_cons.mp ((Books.perm_enqueue _ _).mem_iff.mp hw) with rfl | hw
      · rfl
      · exact h.single w hw
    · intro _
      change p.capacity ≤ p.held
      by_cases hnone : p.waiting = []
      · have : ¬ p.held + 1 ≤ p.capacity := fun hle => hbusy ⟨hnone, hle⟩
        omega
      · exact h.full hnone

theorem release (h : Fair p) (hfine : (p.release 1).2 = none) : Fair (p.release 1).1 := by
  unfold Pool.release at hfine ⊢
  dsimp only at hfine ⊢
  split at hfine
  · cases hfine
  · next hheld =>
    rw [if_neg hheld]
    exact wake h.granted h.single

theorem collect (h : Fair p) {ticket : Nat} {failure : Option Fault}
    (hq : p.collect? ticket 1 false = some (q, failure)) : failure = none ∧ Fair q := by
  rcases collect?_cases hq with ⟨_, _, rfl, hfailure⟩ | ⟨_, htold, _⟩ | ⟨s, hs, hlookup, _⟩
  · refine ⟨hfailure, fun e he => h.granted e (List.mem_of_mem_eraseP he), h.single, h.full⟩
  · cases htold
  · exact absurd (h.granted (ticket, s) (mem_of_lookup hlookup)) hs

theorem fresh (capacity : Int) : Fair ⟨capacity, 0, [], [], 0⟩ :=
  ⟨nofun, nofun, fun hne => absurd rfl hne⟩

end Fair

/-- Nobody waits while a permit is free, unless somebody who was told to end has yet to leave. All ask
for one permit at a time. -/
structure Fed (p : Pool) : Prop where
  single : ∀ w ∈ p.waiting, w.count = 1
  full : p.waiting ≠ [] → p.capacity ≤ p.held ∨ ∃ ticket, (ticket, Settlement.abandoned) ∈ p.settled

namespace Fed

variable {p q : Pool}

theorem wake (hsingle : ∀ w ∈ p.waiting, w.count = 1) : Fed p.wake := by
  obtain ⟨hmem, hfull⟩ := full_letIn p.waiting p.held hsingle
  exact ⟨fun w hw => hsingle w (hmem w hw), fun hne => .inl (hfull hne)⟩

theorem request (h : Fed p) (priority : Priority) : Fed (p.request priority 1).1 := by
  unfold Pool.request
  split
  · next hfree => exact ⟨h.single, fun hne => absurd hfree.1 hne⟩
  · next hbusy =>
    refine ⟨?_, ?_⟩
    · intro w hw
      rcases List.mem_cons.mp ((Books.perm_enqueue _ _).mem_iff.mp hw) with rfl | hw
      · rfl
      · exact h.single w hw
    · intro _
      by_cases hnone : p.waiting = []
      · have : ¬ p.held + 1 ≤ p.capacity := fun hle => hbusy ⟨hnone, hle⟩
        exact .inl (by dsimp only; omega)
      · exact h.full hnone

theorem release (hsingle : ∀ w ∈ p.waiting, w.count = 1) {count : Int}
    (hfine : (p.release count).2 = none) : Fed (p.release count).1 := by
  unfold Pool.release at hfine ⊢
  dsimp only at hfine ⊢
  split at hfine
  · cases hfine
  · next hheld =>
    rw [if_neg hheld]
    exact wake hsingle

theorem single_settle (h : Fed p) (ticket : Nat) (s : Settlement) :
    ∀ w ∈ (p.settle ticket s).waiting, w.count = 1 := by
  unfold Pool.settle
  split
  · exact fun w hw => h.single w (List.mem_filter.mp hw).1
  · exact h.single

theorem abandon (h : Fed p) (ticket : Nat) : Fed (p.abandon ticket) := by
  refine ⟨h.single_settle ticket .abandoned, ?_⟩
  unfold Pool.abandon Pool.settle
  split
  · exact fun _ => .inr ⟨ticket, List.mem_append_right _ (List.mem_singleton.mpr rfl)⟩
  · exact h.full

theorem refuse (h : Fed p) (ticket : Nat) (f : Fault) : Fed (p.refuse ticket f) := by
  unfold Pool.refuse
  split
  · exact wake (h.single_settle ticket (.refused f))
  · exact h

theorem collect (h : Fed p) {ticket : Nat} {count : Int} {interrupted : Bool} {failure : Option Fault}
    {claims : List (Nat × Int)} {out : Int} (hbooks : Books p ((ticket, count) :: claims) out)
    (hq : p.collect? ticket count interrupted = some (q, failure)) : Fed q := by
  rcases collect?_cases hq with ⟨hlookup, _, rfl, _⟩ | ⟨hlookup, _, rfl, _⟩ | ⟨s, _, _, rfl, _⟩
  · refine ⟨h.single, fun hne => (h.full hne).imp_right ?_⟩
    rintro ⟨other, hother⟩
    exact ⟨other, mem_without hlookup hother (by simp)⟩
  · have hthen := hbooks.without hlookup
    have hhands := hbooks.hands
    have hcount : 0 < count := hbooks.positive _ List.mem_cons_self
    rw [if_pos rfl] at hthen
    have hfine := (hthen.release (Int.le_of_lt hcount) (by omega)).1
    exact release (p := p.without ticket) h.single hfine
  · exact wake h.single

/-- If nothing is ready to be collected and nobody has a permit in hand, nobody waits. -/
theorem waiting_eq_nil (h : Fed p) {stakes : List Stake} (hserves : Serves p stakes)
    (hsize : 1 ≤ p.capacity) (hhands : (stakes.map (·.hands)).sum = 0) (hsettled : p.settled = []) :
    p.waiting = [] := by
  apply Classical.byContradiction
  intro hwaits
  have hheld := hserves.1.held
  have howed : owed (stakes.flatMap (·.claims)) p.settled = 0 := by
    unfold owed
    apply List.sum_eq_zero
    intro x hx
    obtain ⟨c, _, rfl⟩ := List.mem_map.mp hx
    rw [hsettled]
    rfl
  rcases h.full hwaits with hfull | ⟨ticket, hticket⟩
  · omega
  · rw [hsettled] at hticket
    cases hticket

end Fed

theorem create_eq {capacity : Int} {p : Pool} (h : create capacity = .ok p) :
    1 ≤ capacity ∧ p = ⟨capacity, 0, [], [], 0⟩ := by
  unfold create at h
  split at h
  · cases h
  · exact ⟨by omega, (Except.ok.inj h).symm⟩

/-- Nobody has anything at stake in a new pool. -/
theorem serves_create {capacity : Int} {p : Pool} (h : create capacity = .ok p) : Serves p [] := by
  obtain ⟨hsize, rfl⟩ := create_eq h
  refine ⟨⟨.refl _, .nil, nofun, nofun, nofun, Int.le_refl 0, rfl, ?_⟩, nofun⟩
  exact Int.le_trans Int.one_nonneg hsize

end Pool

namespace Admission

structure Calm (a : Admission) : Prop where
  fair : a.pool.Fair
  quiet : a.network.Quiet

namespace Calm

variable {a b : Admission}

theorem called? (h : Calm a) (token : Option Nat) : a.called? token = none := by
  unfold Admission.called?
  cases token with
  | none => rfl
  | some t =>
    rw [Option.bind_some, h.quiet t]
    rfl

theorem ask (h : Calm a) (hsize : 1 ≤ a.pool.capacity) (priority : Priority) (t : Nat) :
    ∃ b ticket, a.ask priority 1 (some t) = .ok (b, ticket) ∧ Calm b := by
  have hfair := h.fair.request priority
  unfold Admission.ask
  rw [if_neg (by omega), h.called?]
  rcases hrequest : a.pool.request priority 1 with ⟨pool, none | ticket⟩ <;> rw [hrequest] at hfair
  · exact ⟨_, none, rfl, hfair, h.quiet⟩
  · exact ⟨_, some ticket, rfl, hfair, h.quiet.subscribe t _⟩

theorem release (h : Calm a) (hfine : (a.release 1).2 = none) : Calm (a.release 1).1 :=
  ⟨h.fair.release hfine, h.quiet⟩

theorem collect (h : Calm a) {ticket : Nat} {token : Option Nat} {failure : Option Fault}
    (hq : a.collect? ticket 1 token false = some (b, failure)) : failure = none ∧ Calm b := by
  obtain ⟨hpool, hnetwork⟩ := collect?_cases hq
  obtain ⟨hfailure, hfair⟩ := h.fair.collect hpool
  refine ⟨hfailure, hfair, ?_⟩
  cases token with
  | none =>
    rw [show b.network = a.network from hnetwork]
    exact h.quiet
  | some t =>
    rw [show b.network = a.network.unsubscribe t (.client ticket) from hnetwork]
    exact h.quiet.unsubscribe t _

end Calm

end Admission

end TreeCensus
