import TreeCensus.Pool.Admission
import TreeCensus.Proofs.Pool.Books

/-!
# The parties at a pool

What a party has at stake in a pool is the claims that it waits with and the permits in its hands.
`Serves p stakes` says that the books of `p` are kept for all parties together; each operation of a
pool changes what one party has at stake and leaves the others alone.
-/

namespace TreeCensus

set_option autoImplicit false

namespace Pool

structure Stake where
  claims : List (Nat × Int)
  hands : Int

namespace Stake

def none : Stake := ⟨[], 0⟩

/-- A party that waits with a ticket. -/
def claim (ticket : Nat) (count : Int) : Stake := ⟨[(ticket, count)], 0⟩

def hold (count : Int) : Stake := ⟨[], count⟩

end Stake

def Serves (p : Pool) (stakes : List Stake) : Prop :=
  Books p (stakes.flatMap (·.claims)) (stakes.map (·.hands)).sum ∧ ∀ s ∈ stakes, 0 ≤ s.hands

theorem sum_hands_nonneg {stakes : List Stake} (h : ∀ s ∈ stakes, 0 ≤ s.hands) :
    0 ≤ (stakes.map (·.hands)).sum := by
  induction stakes with
  | nil => simp
  | cons s stakes ih =>
    have hs := h s List.mem_cons_self
    have hrest := ih fun t ht => h t (List.mem_cons_of_mem s ht)
    simp only [List.map_cons, List.sum_cons]
    omega

namespace Serves

variable {p q : Pool} {stakes stakes' : List Stake}

theorem perm (h : Serves p stakes) (hperm : stakes.Perm stakes') : Serves p stakes' := by
  refine ⟨?_, fun s hs => h.2 s (hperm.mem_iff.mpr hs)⟩
  rw [← (hperm.map (·.hands)).sum_eq]
  exact h.1.congr_claims (hperm.flatMap_right _)

theorem settles (h : Serves p stakes) (hpq : Settles p q) : Serves q stakes :=
  ⟨h.1.settles hpq, h.2⟩

theorem held_nonneg (h : Serves p stakes) : 0 ≤ p.held := h.1.held_nonneg

theorem bounded (h : Serves p stakes) : p.held ≤ p.capacity := h.1.bounded

theorem cons_none : Serves p (.none :: stakes) ↔ Serves p stakes := by
  simp [Serves, Stake.none]

theorem grant {priority : Priority} {count : Int} (h : Serves p (.none :: stakes))
    (hcount : 0 < count) (hq : p.request priority count = (q, Option.none)) :
    Serves q (.hold count :: stakes) := by
  have hbooks := (h.1.request_granted (Int.le_of_lt hcount) hq).2
  refine ⟨?_, ?_⟩
  · simpa [Stake.none, Stake.hold, Int.add_comm] using hbooks
  · intro s hs
    rcases List.mem_cons.mp hs with rfl | hs
    · exact Int.le_of_lt hcount
    · exact h.2 s (List.mem_cons_of_mem _ hs)

theorem queue {priority : Priority} {count : Int} {ticket : Nat} (h : Serves p (.none :: stakes))
    (hcount : 0 < count) (hq : p.request priority count = (q, some ticket)) :
    Serves q (.claim ticket count :: stakes) := by
  have hbooks := (h.1.request_queued hcount hq).2.2
  refine ⟨?_, ?_⟩
  · simpa [Stake.none, Stake.claim] using hbooks
  · intro s hs
    rcases List.mem_cons.mp hs with rfl | hs
    · exact Int.le_refl 0
    · exact h.2 s (List.mem_cons_of_mem _ hs)

theorem release {count : Int} (h : Serves p (.hold count :: stakes)) :
    (p.release count).2 = Option.none ∧ Serves (p.release count).1 (.none :: stakes) := by
  have hcount : 0 ≤ count := h.2 _ List.mem_cons_self
  have hrest := sum_hands_nonneg fun s hs => h.2 s (List.mem_cons_of_mem _ hs)
  have hsum : ((Stake.hold count :: stakes).map (·.hands)).sum =
      count + (stakes.map (·.hands)).sum := by simp [Stake.hold]
  obtain ⟨hfault, hbooks⟩ := h.1.release hcount (by omega)
  refine ⟨hfault, ?_, ?_⟩
  · rw [hsum, Int.add_comm count, Int.add_sub_cancel] at hbooks
    simpa [Stake.none, Stake.hold] using hbooks
  · intro s hs
    rcases List.mem_cons.mp hs with rfl | hs
    · exact Int.le_refl 0
    · exact h.2 s (List.mem_cons_of_mem _ hs)

/-- Whoever was granted permits can give them back. -/
theorem giveBack {ticket : Nat} {count : Int} (h : Serves p (.claim ticket count :: stakes))
    (hgranted : p.settled.lookup ticket = some .granted) :
    ((p.without ticket).release count).2 = Option.none := by
  have hcount : 0 < count := h.1.positive (ticket, count) List.mem_cons_self
  have hhands := sum_hands_nonneg h.2
  have hbooks := Books.without h.1 hgranted
  rw [if_pos rfl] at hbooks
  exact (hbooks.release (Int.le_of_lt hcount) (by omega)).1

theorem collect {ticket : Nat} {count : Int} {interrupted : Bool} {failure : Option Fault}
    (h : Serves p (.claim ticket count :: stakes))
    (hq : p.collect? ticket count interrupted = some (q, failure)) :
    Serves q ((if failure = Option.none then .hold count else .none) :: stakes) := by
  have hcount : 0 < count := h.1.positive (ticket, count) List.mem_cons_self
  have hbooks : Books q (stakes.flatMap (·.claims))
      (((Stake.claim ticket count :: stakes).map (·.hands)).sum +
        if failure = Option.none then count else 0) := Books.collect h.1 hq
  refine ⟨?_, ?_⟩
  · cases failure with
    | none => simpa [Stake.claim, Stake.hold, Int.add_comm] using hbooks
    | some f => simpa [Stake.claim, Stake.none] using hbooks
  · intro s hs
    rcases List.mem_cons.mp hs with rfl | hs
    · split
      · exact Int.le_of_lt hcount
      · exact Int.le_refl 0
    · exact h.2 s (List.mem_cons_of_mem _ hs)

end Serves

end Pool

namespace Admission

open Pool (Settles)

variable {a b : Admission}

theorem ask_cases {priority : Priority} {count : Int} {token : Option Nat} {ticket : Option Nat}
    (h : a.ask priority count token = .ok (b, ticket)) :
    count ≤ a.pool.capacity ∧ a.called? token = none ∧
      a.pool.request priority count = (b.pool, ticket) ∧
      b.network = match ticket, token with
        | some n, some t => a.network.subscribe t (.client n)
        | _, _ => a.network := by
  unfold ask at h
  split at h
  · cases h
  · next hfits =>
    split at h
    · cases h
    · next hcalled =>
      refine ⟨by omega, hcalled, ?_⟩
      rcases hr : a.pool.request priority count with ⟨pool, none | n⟩ <;>
        rcases token with _ | t <;> rw [hr] at h <;> obtain ⟨rfl, rfl⟩ := Prod.mk.inj (Except.ok.inj h) <;>
        exact ⟨rfl, rfl⟩

theorem collect?_cases {ticket : Nat} {count : Int} {token : Option Nat} {interrupted : Bool}
    {failure : Option Fault} (h : a.collect? ticket count token interrupted = some (b, failure)) :
    a.pool.collect? ticket count interrupted = some (b.pool, failure) ∧
      b.network = match token with
        | some t => a.network.unsubscribe t (.client ticket)
        | none => a.network := by
  obtain ⟨⟨pool, f⟩, hpool, heq⟩ := Option.map_eq_some_iff.mp h
  obtain ⟨rfl, rfl⟩ := Prod.mk.inj heq
  refine ⟨hpool, ?_⟩
  cases token <;> rfl

theorem collect?_eq_none {ticket : Nat} {count : Int} {token : Option Nat} {interrupted : Bool} :
    a.collect? ticket count token interrupted = none ↔
      a.pool.collect? ticket count interrupted = none := by
  simp [collect?]

@[simp] theorem release_pool (count : Int) : (a.release count).1.pool = (a.pool.release count).1 :=
  rfl

@[simp] theorem release_network (count : Int) : (a.release count).1.network = a.network := rfl

@[simp] theorem release_fault (count : Int) : (a.release count).2 = (a.pool.release count).2 := rfl

theorem settles_abandon (a : Admission) (ticket : Nat) : Settles a.pool (a.abandon ticket).pool :=
  Pool.settles_abandon a.pool ticket

theorem settles_foldl_refuse (told : List (Nat × Reason)) :
    ∀ p : Pool, Settles p (told.foldl (fun pool e => pool.refuse e.1 (.ofReason e.2)) p) := by
  induction told with
  | nil => exact fun p => .refl p
  | cons e told ih => exact fun p => (Pool.settles_refuse p e.1 _).trans (ih _)

theorem settles_cancel (a : Admission) (source : Nat) (r : Reason) :
    Settles a.pool (a.cancel source r).pool :=
  settles_foldl_refuse _ a.pool

end Admission

end TreeCensus
