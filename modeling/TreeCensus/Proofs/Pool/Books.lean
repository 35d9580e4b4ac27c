import Mathlib
import TreeCensus.Pool

/-!
# The books of a pool

Whoever waits at a pool, or was let in and has not collected yet, has a claim: a ticket and the number
of permits that it is for. `Books p claims out` says that the tickets of the pool are those of `claims`,
and that the permits held are the `out` permits in somebody's hands and those that were granted to
claims. Every operation of a pool keeps its books.
-/

namespace TreeCensus.Pool

set_option autoImplicit false

/-- The tickets that wait, and then those that are settled. -/
def tickets (p : Pool) : List Nat := p.waiting.map (·.ticket) ++ p.settled.map (·.1)

/-- The permits that were granted to claims and have not been collected. -/
def owed (claims : List (Nat × Int)) (settled : List (Nat × Settlement)) : Int :=
  (claims.map fun c => if (c.1, Settlement.granted) ∈ settled then c.2 else 0).sum

/-- One waiter ceases to wait: the first one with its permits, or any one without. -/
inductive Settling : Pool → Pool → Prop
  | grant {p : Pool} {w : Waiter} {ws : List Waiter} (first : p.waiting = w :: ws)
      (fits : p.held + w.count ≤ p.capacity) :
      Settling p { p with
        held := p.held + w.count
        waiting := ws
        settled := p.settled ++ [(w.ticket, .granted)] }
  | dismiss {p : Pool} {w : Waiter} {s : Settlement} (waits : w ∈ p.waiting) (refused : s ≠ .granted) :
      Settling p { p with
        waiting := p.waiting.filter (·.ticket ≠ w.ticket)
        settled := p.settled ++ [(w.ticket, s)] }

inductive Settles : Pool → Pool → Prop
  | refl (p : Pool) : Settles p p
  | cons {p q r : Pool} : Settling p q → Settles q r → Settles p r

namespace Settles

theorem single {p q : Pool} (h : Settling p q) : Settles p q := .cons h (.refl q)

theorem trans {p q r : Pool} (hpq : Settles p q) (hqr : Settles q r) : Settles p r := by
  induction hpq with
  | refl => exact hqr
  | cons h _ ih => exact .cons h (ih hqr)

end Settles

theorem settles_letIn (ws : List Waiter) :
    ∀ p : Pool, p.waiting = ws →
      Settles p { p with
        held := (letIn p.capacity p.held ws).held
        waiting := (letIn p.capacity p.held ws).waiting
        settled := p.settled ++ (letIn p.capacity p.held ws).tickets.map fun t => (t, .granted) } := by
  induction ws with
  | nil =>
    intro p hp
    have : p.waiting = (letIn p.capacity p.held []).waiting := hp
    simp only [letIn, List.map_nil, List.append_nil]
    rw [← hp]
    exact .refl p
  | cons w ws ih =>
    intro p hp
    unfold letIn
    split
    · rw [← hp]
      simpa using Settles.refl p
    · next hfull =>
      have hrest := ih { p with
        held := p.held + w.count
        waiting := ws
        settled := p.settled ++ [(w.ticket, .granted)] } rfl
      simp only [List.map_cons]
      rw [List.append_cons]
      exact .cons (.grant hp (by omega)) hrest

theorem settles_wake (p : Pool) : Settles p p.wake := settles_letIn p.waiting p rfl

theorem isWaiting_iff {p : Pool} {ticket : Nat} :
    p.isWaiting ticket = true ↔ ∃ w ∈ p.waiting, w.ticket = ticket := by
  simp [isWaiting]

theorem settles_settle (p : Pool) (ticket : Nat) {s : Settlement} (hs : s ≠ .granted) :
    Settles p (p.settle ticket s) := by
  unfold settle
  split
  · next h =>
    obtain ⟨w, hw, rfl⟩ := isWaiting_iff.mp h
    exact .single (.dismiss hw hs)
  · exact .refl p

theorem settles_refuse (p : Pool) (ticket : Nat) (f : Fault) : Settles p (p.refuse ticket f) := by
  unfold refuse
  split
  · exact (settles_settle p ticket (by simp)).trans (settles_wake _)
  · exact .refl p

theorem settles_abandon (p : Pool) (ticket : Nat) : Settles p (p.abandon ticket) :=
  settles_settle p ticket (by simp)

/-- What was settled before stays, and who waited either still waits or is settled now. -/
theorem Settles.log {p q : Pool} (h : Settles p q) (hnodup : (p.waiting.map (·.ticket)).Nodup) :
    q.capacity = p.capacity ∧ q.next = p.next ∧ ∃ new, q.settled = p.settled ++ new ∧
      (new.map (·.1) ++ q.waiting.map (·.ticket)).Perm (p.waiting.map (·.ticket)) := by
  induction h with
  | refl p => exact ⟨rfl, rfl, [], by simp, by simp⟩
  | @cons p q r hpq hqr ih =>
    have hone : q.capacity = p.capacity ∧ q.next = p.next ∧ ∃ e, q.settled = p.settled ++ [e] ∧
        (e.1 :: q.waiting.map (·.ticket)).Perm (p.waiting.map (·.ticket)) := by
      cases hpq with
      | grant hfirst _ => exact ⟨rfl, rfl, _, rfl, by simp [hfirst]⟩
      | @dismiss w _ hw _ =>
        refine ⟨rfl, rfl, _, rfl, ?_⟩
        have hfilter : (p.waiting.filter (·.ticket ≠ w.ticket)).map (·.ticket) =
            (p.waiting.map (·.ticket)).erase w.ticket := by
          rw [hnodup.erase_eq_filter, List.filter_map]
          congr 1
          apply List.filter_congr
          intro v _
          by_cases hv : v.ticket = w.ticket <;> simp [hv]
        have hmem : w.ticket ∈ p.waiting.map (·.ticket) := List.mem_map_of_mem hw
        rw [hfilter]
        exact (List.perm_cons_erase hmem).symm
    obtain ⟨hcap, hnext, e, hset, hperm⟩ := hone
    have hq : (q.waiting.map (·.ticket)).Nodup :=
      (List.nodup_cons.mp (hperm.nodup_iff.mpr hnodup)).2
    obtain ⟨hcap', hnext', new, hset', hperm'⟩ := ih hq
    refine ⟨hcap'.trans hcap, hnext'.trans hnext, e :: new, by simp [hset', hset], ?_⟩
    exact (hperm'.cons e.1).trans hperm

structure Books (p : Pool) (claims : List (Nat × Int)) (out : Int) : Prop where
  tickets : p.tickets.Perm (claims.map (·.1))
  nodup : (claims.map (·.1)).Nodup
  fresh : ∀ c ∈ claims, c.1 < p.next
  counts : ∀ w ∈ p.waiting, (w.ticket, w.count) ∈ claims
  positive : ∀ c ∈ claims, 0 < c.2
  hands : 0 ≤ out
  held : p.held = out + owed claims p.settled
  bounded : p.held ≤ p.capacity

theorem owed_perm {claims claims' : List (Nat × Int)} (h : claims.Perm claims')
    (settled : List (Nat × Settlement)) : owed claims settled = owed claims' settled :=
  (h.map _).sum_eq

theorem owed_cons (c : Nat × Int) (claims : List (Nat × Int)) (settled : List (Nat × Settlement)) :
    owed (c :: claims) settled =
      (if (c.1, Settlement.granted) ∈ settled then c.2 else 0) + owed claims settled := by
  simp [owed]

theorem owed_append (claims claims' : List (Nat × Int)) (settled : List (Nat × Settlement)) :
    owed (claims ++ claims') settled = owed claims settled + owed claims' settled := by
  simp [owed]

/-- Only what is settled for one of the claims matters. -/
theorem owed_congr {claims : List (Nat × Int)} {settled settled' : List (Nat × Settlement)}
    (h : ∀ c ∈ claims, (c.1, Settlement.granted) ∈ settled ↔ (c.1, Settlement.granted) ∈ settled') :
    owed claims settled = owed claims settled' := by
  unfold owed
  congr 1
  apply List.map_congr_left
  intro c hc
  simp only [h c hc]

theorem owed_nonneg {claims : List (Nat × Int)} (h : ∀ c ∈ claims, 0 < c.2)
    (settled : List (Nat × Settlement)) : 0 ≤ owed claims settled := by
  induction claims with
  | nil => simp [owed]
  | cons c claims ih =>
    have hc := h c List.mem_cons_self
    have hrest := ih fun d hd => h d (List.mem_cons_of_mem c hd)
    rw [owed_cons]
    split <;> omega

namespace Books

variable {p : Pool} {claims : List (Nat × Int)} {out : Int}

theorem congr_claims (h : Books p claims out) {claims' : List (Nat × Int)}
    (hperm : claims.Perm claims') : Books p claims' out where
  tickets := h.tickets.trans (hperm.map _)
  nodup := (hperm.map _).nodup_iff.mp h.nodup
  fresh := fun c hc => h.fresh c (hperm.mem_iff.mpr hc)
  counts := fun w hw => hperm.mem_iff.mp (h.counts w hw)
  positive := fun c hc => h.positive c (hperm.mem_iff.mpr hc)
  hands := h.hands
  held := h.held.trans (by rw [owed_perm hperm])
  bounded := h.bounded

theorem held_nonneg (h : Books p claims out) : 0 ≤ p.held := by
  have := owed_nonneg h.positive p.settled
  have := h.hands
  have := h.held
  omega

theorem nodup_tickets (h : Books p claims out) : p.tickets.Nodup :=
  h.tickets.nodup_iff.mpr h.nodup

theorem nodup_waiting (h : Books p claims out) : (p.waiting.map (·.ticket)).Nodup :=
  (List.nodup_append.mp h.nodup_tickets).1

theorem nodup_settled (h : Books p claims out) : (p.settled.map (·.1)).Nodup :=
  (List.nodup_append.mp h.nodup_tickets).2.1

theorem not_settled_of_waiting (h : Books p claims out) {w : Waiter} (hw : w ∈ p.waiting)
    (s : Settlement) : (w.ticket, s) ∉ p.settled := by
  intro hs
  have hdisjoint := (List.nodup_append.mp h.nodup_tickets).2.2
  exact hdisjoint _ (List.mem_map_of_mem hw) _ (List.mem_map_of_mem hs) rfl

theorem ticket_lt_next (h : Books p claims out) {ticket : Nat} (ht : ticket ∈ p.tickets) :
    ticket < p.next := by
  obtain ⟨c, hc, rfl⟩ := List.mem_map.mp (h.tickets.mem_iff.mp ht)
  exact h.fresh c hc

/-- A settlement takes a ticket from the waiting ones to the settled ones. -/
theorem tickets_move {w : Waiter} {rest : List Waiter}
    (hrest : (w.ticket :: rest.map (·.ticket)).Perm (p.waiting.map (·.ticket))) (s : Settlement) :
    (rest.map (·.ticket) ++ (p.settled ++ [(w.ticket, s)]).map (·.1)).Perm p.tickets := by
  have hmove : (rest.map (·.ticket) ++ (p.settled.map (·.1) ++ [w.ticket])).Perm
      (w.ticket :: (rest.map (·.ticket) ++ p.settled.map (·.1))) := by
    rw [← List.append_assoc]
    exact List.perm_append_singleton _ _
  simp only [List.map_append, List.map_cons, List.map_nil]
  refine hmove.trans ?_
  exact hrest.append_right (p.settled.map (·.1))

theorem settling (h : Books p claims out) {q : Pool} (hpq : Settling p q) : Books q claims out := by
  cases hpq with
  | @grant w ws hfirst hfits =>
    have hw : w ∈ p.waiting := by simp [hfirst]
    have hclaim := h.counts w hw
    obtain ⟨before, after, rfl⟩ := List.append_of_mem hclaim
    have hother : ∀ c ∈ before ++ after, c.1 ≠ w.ticket := by
      intro c hc heq
      have hmid := (List.nodup_middle.mp (by simpa using h.nodup) :
        (w.ticket :: (before.map (·.1) ++ after.map (·.1))).Nodup)
      apply (List.nodup_cons.mp hmid).1
      rw [← List.map_append, ← heq]
      exact List.mem_map_of_mem hc
    have hsame : owed (before ++ after) (p.settled ++ [(w.ticket, .granted)]) =
        owed (before ++ after) p.settled := by
      apply owed_congr
      intro c hc
      simp [hother c hc]
    have hnot := h.not_settled_of_waiting hw .granted
    have hheld := h.held
    rw [owed_perm List.perm_middle, owed_cons] at hheld
    simp only [hnot, if_false] at hheld
    refine ⟨?_, h.nodup, h.fresh, ?_, h.positive, h.hands, ?_, hfits⟩
    · refine (tickets_move (p := p) (by simp [hfirst]) _).trans h.tickets
    · intro v hv
      exact h.counts v (by simp [hfirst, hv])
    · rw [owed_perm List.perm_middle, owed_cons, hsame]
      simp only [List.mem_append, List.mem_singleton, or_true, if_true]
      omega
  | @dismiss w s hw hs =>
    refine ⟨?_, h.nodup, h.fresh, ?_, h.positive, h.hands, ?_, h.bounded⟩
    · refine (tickets_move (p := p) ?_ s).trans h.tickets
      obtain ⟨-, -, new, hnew, hperm⟩ :=
        (Settles.single (.dismiss hw hs)).log h.nodup_waiting
      obtain rfl : new = [(w.ticket, s)] := by simpa using hnew.symm
      exact hperm
    · intro v hv
      exact h.counts v (List.mem_filter.mp hv).1
    · refine h.held.trans ?_
      congr 1
      apply owed_congr
      intro c _
      simp [Ne.symm hs]

theorem settles (h : Books p claims out) {q : Pool} (hpq : Settles p q) : Books q claims out := by
  induction hpq with
  | refl => exact h
  | cons hstep _ ih => exact ih (h.settling hstep)

theorem release (h : Books p claims out) {count : Int} (hcount : 0 ≤ count) (hout : count ≤ out) :
    (p.release count).2 = none ∧ Books (p.release count).1 claims (out - count) := by
  have howed := owed_nonneg h.positive p.settled
  have hheld := h.held
  have hback : Books { p with held := p.held - count } claims (out - count) := by
    refine ⟨h.tickets, h.nodup, h.fresh, h.counts, h.positive, ?_, ?_, ?_⟩
    · omega
    · show p.held - count = out - count + owed claims p.settled
      omega
    · have := h.bounded
      show p.held - count ≤ p.capacity
      omega
  have hneg : ¬ p.held - count < 0 := by omega
  simp only [Pool.release, hneg, if_false]
  exact ⟨trivial, hback.settles (settles_wake _)⟩

theorem request_granted (h : Books p claims out) {priority : Priority} {count : Int}
    (hcount : 0 ≤ count) {q : Pool} (hq : p.request priority count = (q, none)) :
    q = { p with held := p.held + count } ∧ Books q claims (out + count) := by
  unfold Pool.request at hq
  split at hq
  · next hfree =>
    obtain ⟨rfl, -⟩ := Prod.mk.inj hq
    refine ⟨rfl, h.tickets, h.nodup, h.fresh, h.counts, h.positive, ?_, ?_, hfree.2⟩
    · have := h.hands
      omega
    · have := h.held
      show p.held + count = out + count + owed claims p.settled
      omega
  · cases hq

theorem perm_enqueue (w : Waiter) (ws : List Waiter) : (enqueue w ws).Perm (w :: ws) := by
  induction ws with
  | nil => exact .refl _
  | cons v vs ih =>
    unfold enqueue
    split
    · exact .refl _
    · exact (ih.cons v).trans (.swap w v vs)

theorem request_queued (h : Books p claims out) {priority : Priority} {count : Int}
    (hcount : 0 < count) {q : Pool} {ticket : Nat}
    (hq : p.request priority count = (q, some ticket)) :
    ticket = p.next ∧ q = { p with
      waiting := enqueue ⟨p.next, priority, count⟩ p.waiting, next := p.next + 1 } ∧
      Books q ((ticket, count) :: claims) out := by
  unfold Pool.request at hq
  split at hq
  · cases hq
  · obtain ⟨rfl, hticket⟩ := Prod.mk.inj hq
    obtain rfl : p.next = ticket := by simpa using hticket
    have hnew : ∀ s, (p.next, s) ∉ p.settled := by
      intro s hs
      have hmem : p.next ∈ p.tickets :=
        List.mem_append_right _ (List.mem_map_of_mem (f := (·.1)) hs)
      exact absurd (h.ticket_lt_next hmem) (by omega)
    have hperm := perm_enqueue ⟨p.next, priority, count⟩ p.waiting
    refine ⟨rfl, rfl, ?_, ?_, ?_, ?_, ?_, h.hands, ?_, h.bounded⟩
    · have htickets := ((hperm.map (·.ticket)).append_right (p.settled.map (·.1)))
      exact htickets.trans (h.tickets.cons p.next)
    · refine List.nodup_cons.mpr ⟨?_, h.nodup⟩
      intro hmem
      obtain ⟨c, hc, heq⟩ := List.mem_map.mp hmem
      have := h.fresh c hc
      simp only at heq
      omega
    · intro c hc
      show c.1 < p.next + 1
      rcases List.mem_cons.mp hc with rfl | hc
      · simp
      · have := h.fresh c hc
        omega
    · intro w hw
      rcases List.mem_cons.mp (hperm.mem_iff.mp hw) with rfl | hw
      · exact List.mem_cons_self
      · exact List.mem_cons_of_mem _ (h.counts w hw)
    · intro c hc
      rcases List.mem_cons.mp hc with rfl | hc
      · exact hcount
      · exact h.positive c hc
    · refine h.held.trans ?_
      rw [owed_cons]
      simp [hnew]

end Books

/-- The pool from which the outcome of a ticket was taken. -/
def without (p : Pool) (ticket : Nat) : Pool :=
  { p with settled := p.settled.eraseP (·.1 = ticket) }

theorem collect?_cases {p q : Pool} {ticket : Nat} {count : Int} {interrupted : Bool}
    {failure : Option Fault} (h : p.collect? ticket count interrupted = some (q, failure)) :
    (p.settled.lookup ticket = some .granted ∧ interrupted = false ∧
      q = p.without ticket ∧ failure = none) ∨
    (p.settled.lookup ticket = some .granted ∧ interrupted = true ∧
      q = ((p.without ticket).release count).1 ∧
      failure = some (((p.without ticket).release count).2.getD .interrupted)) ∨
    (∃ s, s ≠ .granted ∧ p.settled.lookup ticket = some s ∧
      q = (p.without ticket).wake ∧ ∃ f, failure = some f) := by
  obtain ⟨s, hs, hq⟩ := Option.map_eq_some_iff.mp h
  cases s with
  | granted =>
    cases interrupted with
    | false =>
      obtain ⟨rfl, rfl⟩ := Prod.mk.inj hq
      exact .inl ⟨hs, rfl, rfl, rfl⟩
    | true =>
      obtain ⟨rfl, rfl⟩ := Prod.mk.inj hq
      exact .inr (.inl ⟨hs, rfl, rfl, rfl⟩)
  | refused f =>
    obtain ⟨rfl, rfl⟩ := Prod.mk.inj hq
    exact .inr (.inr ⟨_, by simp, hs, rfl, _, rfl⟩)
  | abandoned =>
    obtain ⟨rfl, rfl⟩ := Prod.mk.inj hq
    exact .inr (.inr ⟨_, by simp, hs, rfl, _, rfl⟩)

theorem collect?_eq_none {p : Pool} {ticket : Nat} {count : Int} {interrupted : Bool}
    (h : p.collect? ticket count interrupted = none) : ticket ∉ p.settled.map (·.1) := by
  have hnone : p.settled.lookup ticket = none := by simpa [collect?] using h
  intro hmem
  obtain ⟨e, he, rfl⟩ := List.mem_map.mp hmem
  have := List.lookup_eq_none_iff.mp hnone e he
  simp at this

/-- The entry of a ticket stands between entries of others. -/
theorem split_of_lookup {settled : List (Nat × Settlement)} {ticket : Nat} {s : Settlement}
    (h : settled.lookup ticket = some s) :
    ∃ before after, settled = before ++ (ticket, s) :: after ∧
      settled.eraseP (·.1 = ticket) = before ++ after := by
  obtain ⟨before, after, rfl, hbefore⟩ := List.lookup_eq_some_iff.mp h
  refine ⟨before, after, rfl, ?_⟩
  rw [List.eraseP_append_right, List.eraseP_cons_of_pos (by simp)]
  · intro e he
    have hne := hbefore e he
    simp only [bne_iff_ne] at hne
    simpa using fun heq => hne (by simpa using heq.symm)

/-- Whatever was settled otherwise than the ticket that is taken stays. -/
theorem mem_without {p : Pool} {ticket other : Nat} {s u : Settlement} (h : p.settled.lookup ticket = some s)
    (hother : (other, u) ∈ p.settled) (hne : u ≠ s) : (other, u) ∈ (p.without ticket).settled := by
  obtain ⟨before, after, hsplit, herase⟩ := split_of_lookup h
  rw [hsplit, List.mem_append, List.mem_cons] at hother
  unfold Pool.without
  rw [herase, List.mem_append]
  rcases hother with hother | heq | hother
  · exact .inl hother
  · exact absurd (Prod.mk.inj heq).2 hne
  · exact .inr hother

namespace Books

variable {p : Pool} {claims : List (Nat × Int)} {out : Int}

/-- Who takes the outcome of its ticket has no claim any more, but perhaps permits. -/
theorem without {ticket : Nat} {count : Int} (h : Books p ((ticket, count) :: claims) out)
    {s : Settlement} (hs : p.settled.lookup ticket = some s) :
    Books (p.without ticket) claims (out + if s = .granted then count else 0) := by
  obtain ⟨before, after, hsettled, herase⟩ := split_of_lookup hs
  have hcount : 0 < count := h.positive _ List.mem_cons_self
  have hnodup : ticket ∉ claims.map (·.1) ∧ (claims.map (·.1)).Nodup := List.nodup_cons.mp h.nodup
  have hkeys := h.nodup_settled
  rw [hsettled, List.map_append, List.map_cons, List.nodup_middle] at hkeys
  -- The ticket is claimed once and settled once, so the other claims are owed what they were.
  have hother : ∀ c ∈ claims, c.1 ≠ ticket := by
    intro c hc heq
    exact hnodup.1 (heq ▸ List.mem_map_of_mem hc)
  have hgranted : (ticket, Settlement.granted) ∈ p.settled ↔ s = .granted := by
    have hnot : ∀ u, (ticket, u) ∉ before ++ after := by
      intro u hu
      apply (List.nodup_cons.mp hkeys).1
      rw [← List.map_append]
      exact List.mem_map_of_mem (f := (·.1)) hu
    have := hnot .granted
    simp only [hsettled, List.mem_append, List.mem_cons, Prod.mk.injEq] at this ⊢
    constructor
    · rintro (hb | ⟨-, rfl⟩ | ha)
      · exact absurd (Or.inl hb) this
      · rfl
      · exact absurd (Or.inr ha) this
    · rintro rfl
      exact .inr (.inl ⟨trivial, rfl⟩)
  have hrest : owed claims (before ++ after) = owed claims p.settled := by
    apply owed_congr
    intro c hc
    simp [hsettled, hother c hc]
  have htickets : (ticket :: (p.waiting.map (·.ticket) ++ (before ++ after).map (·.1))).Perm
      (ticket :: claims.map (·.1)) := by
    refine .trans ?_ h.tickets
    unfold Pool.tickets
    rw [hsettled, List.map_append, List.map_append, List.map_cons]
    refine (List.perm_middle.symm.trans ?_)
    exact List.perm_middle.symm.append_left _
  have hheld := h.held
  rw [owed_cons] at hheld
  refine ⟨?_, hnodup.2, ?_, ?_, ?_, ?_, ?_, h.bounded⟩
  · show (p.waiting.map (·.ticket) ++ (p.settled.eraseP _).map (·.1)).Perm _
    rw [herase]
    exact htickets.cons_inv
  · intro c hc
    exact h.fresh c (List.mem_cons_of_mem _ hc)
  · intro w hw
    rcases List.mem_cons.mp (h.counts w hw) with heq | hc
    · obtain ⟨rfl, -⟩ := Prod.mk.inj heq
      exact absurd (hsettled ▸ by simp) (h.not_settled_of_waiting hw s)
    · exact hc
  · intro c hc
    exact h.positive c (List.mem_cons_of_mem _ hc)
  · have := h.hands
    split <;> omega
  · show p.held = _ + owed claims (p.settled.eraseP _)
    rw [herase, hrest]
    simp only [hgranted] at hheld
    omega

/-- A claim is collected: its permits change hands, or there are none. -/
theorem collect {ticket : Nat} {count : Int} {interrupted : Bool}
    (h : Books p ((ticket, count) :: claims) out) {q : Pool} {failure : Option Fault}
    (hq : p.collect? ticket count interrupted = some (q, failure)) :
    Books q claims (out + if failure = none then count else 0) := by
  have hcount : 0 < count := h.positive _ List.mem_cons_self
  rcases collect?_cases hq with ⟨hs, -, rfl, rfl⟩ | ⟨hs, -, rfl, rfl⟩ | ⟨s, hs, hlookup, rfl, f, rfl⟩
  · simpa using h.without hs
  · have hbooks := h.without hs
    have hhands := h.hands
    simp only [if_true] at hbooks
    have hle : count ≤ out + count := by omega
    have hback := (hbooks.release (Int.le_of_lt hcount) hle).2
    rw [Int.add_sub_cancel] at hback
    simpa using hback
  · have hbooks := h.without hlookup
    simp only [hs, if_false] at hbooks
    exact hbooks.settles (settles_wake _)

end Books

end TreeCensus.Pool
