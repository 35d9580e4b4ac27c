import TreeCensus.Proofs.Pool.Trades

/-!
# What becomes of tickets

What became of a ticket stays on record until it is collected. Only who is told of a cancellation is
refused, and only who was told to end is abandoned; everything else that is settled is granted.
-/

namespace TreeCensus

set_option autoImplicit false

namespace Pool

variable {p q : Pool} {e : Nat × Settlement}

theorem Settles.subset (h : Settles p q) : p.settled ⊆ q.settled := by
  induction h with
  | refl => exact List.Subset.refl _
  | cons hone _ ih =>
    refine List.Subset.trans ?_ ih
    cases hone <;> exact List.subset_append_left _ _

theorem Settles.next (h : Settles p q) : q.next = p.next := by
  induction h with
  | refl => rfl
  | cons hone _ ih =>
    rw [ih]
    cases hone <;> rfl

theorem next_release (p : Pool) (count : Int) : (p.release count).1.next = p.next := by
  unfold release
  dsimp only
  split <;> rfl

theorem next_collect? {ticket : Nat} {count : Int} {interrupted : Bool} {failure : Option Fault}
    (h : p.collect? ticket count interrupted = some (q, failure)) : q.next = p.next := by
  rcases collect?_cases h with ⟨_, _, rfl, _⟩ | ⟨_, _, rfl, _⟩ | ⟨_, _, _, rfl, _⟩
  · rfl
  · exact next_release _ _
  · rfl

/-- A request that is granted at once leaves nothing behind. -/
theorem request_none {priority : Priority} {count : Int} (h : p.request priority count = (q, none)) :
    q.next = p.next ∧ q.settled = p.settled := by
  unfold request at h
  split at h
  · rw [← (Prod.mk.inj h).1]
    exact ⟨rfl, rfl⟩
  · simp at h

theorem request_some {priority : Priority} {count : Int} {ticket : Nat}
    (h : p.request priority count = (q, some ticket)) :
    ticket = p.next ∧ q.next = p.next + 1 ∧ q.settled = p.settled := by
  unfold request at h
  split at h
  · simp at h
  · obtain ⟨hpool, heq⟩ := Prod.mk.inj h
    rw [← hpool]
    exact ⟨(Option.some.inj heq).symm, rfl, rfl⟩

theorem mem_settled_wake (h : e ∈ p.wake.settled) : e ∈ p.settled ∨ e.2 = .granted := by
  rcases List.mem_append.mp h with h | h
  · exact .inl h
  · obtain ⟨ticket, _, rfl⟩ := List.mem_map.mp h
    exact .inr rfl

theorem mem_settled_settle {ticket : Nat} {s : Settlement} (h : e ∈ (p.settle ticket s).settled) :
    e ∈ p.settled ∨ e = (ticket, s) := by
  unfold settle at h
  split at h
  · exact (List.mem_append.mp h).imp_right List.mem_singleton.mp
  · exact .inl h

theorem mem_settled_refuse {ticket : Nat} {f : Fault} (h : e ∈ (p.refuse ticket f).settled) :
    e ∈ p.settled ∨ e.2 = .granted ∨ e = (ticket, .refused f) := by
  unfold refuse at h
  split at h
  · rcases mem_settled_wake h with h | h
    · exact (mem_settled_settle h).imp_right .inr
    · exact .inr (.inl h)
  · exact .inl h

theorem mem_settled_release {count : Int} (h : e ∈ (p.release count).1.settled) :
    e ∈ p.settled ∨ e.2 = .granted := by
  unfold release at h
  dsimp only at h
  split at h
  · exact .inl h
  · exact mem_settled_wake (p := { p with held := p.held - count }) h

theorem mem_settled_collect {ticket : Nat} {count : Int} {interrupted : Bool} {failure : Option Fault}
    (hq : p.collect? ticket count interrupted = some (q, failure)) (h : e ∈ q.settled) :
    e ∈ p.settled ∨ e.2 = .granted := by
  rcases collect?_cases hq with ⟨_, _, rfl, _⟩ | ⟨_, _, rfl, _⟩ | ⟨_, _, _, rfl, _⟩
  · exact .inl (List.mem_of_mem_eraseP h)
  · exact (mem_settled_release h).imp_left List.mem_of_mem_eraseP
  · exact (mem_settled_wake h).imp_left List.mem_of_mem_eraseP

theorem settled_release (p : Pool) (count : Int) : p.settled ⊆ (p.release count).1.settled := by
  unfold release
  dsimp only
  split
  · exact List.Subset.refl _
  · exact List.subset_append_left _ _

/-- Collecting a ticket takes nothing but what became of that ticket. -/
theorem settled_collect {ticket : Nat} {count : Int} {interrupted : Bool} {failure : Option Fault}
    (hq : p.collect? ticket count interrupted = some (q, failure)) (h : e ∈ p.settled)
    (hother : e.1 ≠ ticket) : e ∈ q.settled := by
  have hkept : e ∈ (p.without ticket).settled :=
    (List.mem_eraseP_of_neg (by simpa using hother)).mpr h
  rcases collect?_cases hq with ⟨_, _, rfl, _⟩ | ⟨_, _, rfl, _⟩ | ⟨_, _, _, rfl, _⟩
  · exact hkept
  · exact settled_release _ count hkept
  · exact List.mem_append_left _ hkept

/-- Why a ticket gets no permits. -/
theorem collect_some {ticket : Nat} {count : Int} {interrupted : Bool} {f : Fault}
    (hq : p.collect? ticket count interrupted = some (q, some f)) : interrupted = true ∨
      (ticket, .refused f) ∈ p.settled ∨ (ticket, .abandoned) ∈ p.settled := by
  cases interrupted with
  | true => exact .inl rfl
  | false =>
    right
    obtain ⟨s, hs, hq⟩ := Option.map_eq_some_iff.mp hq
    have hmem := mem_of_lookup hs
    cases s with
    | granted => simp at hq
    | refused g =>
      obtain rfl : g = f := by simpa using (Prod.mk.inj hq).2
      exact .inl hmem
    | abandoned => exact .inr hmem

/-- What the users with the given stakes may do with a pool: anyone may come and ask; who holds permits
may give them back; a request may be collected, called off or refused. -/
inductive Sharing : Pool → List Stake → Pool → List Stake → Prop
  | grant {p q : Pool} {stakes : List Stake} {priority : Priority} {count : Int} (positive : 0 < count)
      (fits : count ≤ p.capacity) (asked : p.request priority count = (q, none)) :
      Sharing p stakes q (.hold count :: stakes)
  | queue {p q : Pool} {stakes : List Stake} {priority : Priority} {count : Int} {ticket : Nat}
      (positive : 0 < count) (fits : count ≤ p.capacity)
      (asked : p.request priority count = (q, some ticket)) :
      Sharing p stakes q (.claim ticket count :: stakes)
  | release {p : Pool} {stakes rest : List Stake} {count : Int}
      (holds : stakes.Perm (.hold count :: rest)) : Sharing p stakes (p.release count).1 rest
  | collect {p q : Pool} {stakes rest : List Stake} {ticket : Nat} {count : Int} {interrupted : Bool}
      {failure : Option Fault} (waits : stakes.Perm (.claim ticket count :: rest))
      (collected : p.collect? ticket count interrupted = some (q, failure)) :
      Sharing p stakes q ((if failure = none then [.hold count] else []) ++ rest)
  | abandon {p : Pool} {stakes : List Stake} {ticket : Nat} {count : Int}
      (waits : .claim ticket count ∈ stakes) : Sharing p stakes (p.abandon ticket) stakes
  | refuse {p : Pool} {stakes : List Stake} {ticket : Nat} {count : Int}
      (waits : .claim ticket count ∈ stakes) (f : Fault) : Sharing p stakes (p.refuse ticket f) stakes

namespace Sharing

variable {stakes stakes' : List Stake}

theorem dealing (h : Sharing p stakes q stakes') (net : Cancellation.Network Nat) :
    Admission.Dealing ⟨p, net⟩ stakes ⟨q, net⟩ stakes' := by
  cases h with
  | @grant _ _ priority count positive fits asked =>
    have hask : Admission.ask ⟨p, net⟩ priority count none = .ok (⟨q, net⟩, none) := by
      unfold Admission.ask
      rw [if_neg (by dsimp only; omega)]
      simp [Admission.called?, asked]
    exact .grant positive hask
  | @queue _ _ priority count ticket positive fits asked =>
    have hask : Admission.ask ⟨p, net⟩ priority count none = .ok (⟨q, net⟩, some ticket) := by
      unfold Admission.ask
      rw [if_neg (by dsimp only; omega)]
      simp [Admission.called?, asked]
    exact .queue positive hask
  | release holds => exact .release (a := ⟨p, net⟩) holds
  | @collect _ _ _ ticket count interrupted failure waits collected =>
    have hcollect : Admission.collect? ⟨p, net⟩ ticket count none interrupted = some (⟨q, net⟩, failure) := by
      unfold Admission.collect?
      rw [collected]
      rfl
    exact .collect waits hcollect
  | abandon waits => exact .abandon (a := ⟨p, net⟩) waits
  | refuse waits f => exact .refuse (a := ⟨p, net⟩) waits f

theorem next (h : Sharing p stakes q stakes') : p.next ≤ q.next := by
  cases h with
  | grant _ _ asked => exact Nat.le_of_eq (request_none asked).1.symm
  | queue _ _ asked =>
    rw [(request_some asked).2.1]
    exact Nat.le_succ _
  | release => exact Nat.le_of_eq (next_release _ _).symm
  | collect _ collected => exact Nat.le_of_eq (next_collect? collected).symm
  | abandon => exact Nat.le_of_eq (settles_abandon p _).next.symm
  | refuse _ f => exact Nat.le_of_eq (settles_refuse p _ f).next.symm

/-- A claim that is new has the next ticket. -/
theorem claims (h : Sharing p stakes q stakes') {stake : Stake} (hstake : stake ∈ stakes')
    {ticket : Nat} {count : Int} (hclaim : (ticket, count) ∈ stake.claims) :
    (∃ old ∈ stakes, (ticket, count) ∈ old.claims) ∨ ticket = p.next := by
  cases h with
  | grant _ _ asked =>
    rcases List.mem_cons.mp hstake with rfl | hstake
    · cases hclaim
    · exact .inl ⟨stake, hstake, hclaim⟩
  | queue _ _ asked =>
    rcases List.mem_cons.mp hstake with rfl | hstake
    · rw [(Prod.mk.inj (List.mem_singleton.mp hclaim)).1]
      exact .inr (request_some asked).1
    · exact .inl ⟨stake, hstake, hclaim⟩
  | release holds => exact .inl ⟨stake, holds.mem_iff.mpr (List.mem_cons_of_mem _ hstake), hclaim⟩
  | collect waits _ =>
    rcases List.mem_append.mp hstake with hstake | hstake
    · split at hstake
      · rw [List.mem_singleton.mp hstake] at hclaim
        cases hclaim
      · cases hstake
    · exact .inl ⟨stake, waits.mem_iff.mpr (List.mem_cons_of_mem _ hstake), hclaim⟩
  | abandon | refuse => exact .inl ⟨stake, hstake, hclaim⟩

/-- What comes of the tickets of others is that they are granted. -/
theorem mem_settled (h : Sharing p stakes q stakes') (he : e ∈ q.settled) :
    e ∈ p.settled ∨ e.2 = .granted ∨ ∃ stake ∈ stakes, ∃ count, (e.1, count) ∈ stake.claims := by
  cases h with
  | grant _ _ asked =>
    rw [(request_none asked).2] at he
    exact .inl he
  | queue _ _ asked =>
    rw [(request_some asked).2.2] at he
    exact .inl he
  | release => exact (mem_settled_release he).imp_right .inl
  | collect _ collected => exact (mem_settled_collect collected he).imp_right .inl
  | abandon waits =>
    rcases mem_settled_settle he with hold | rfl
    · exact .inl hold
    · exact .inr (.inr ⟨_, waits, _, List.mem_singleton.mpr rfl⟩)
  | refuse waits f =>
    rcases mem_settled_refuse he with hold | hgranted | rfl
    · exact .inl hold
    · exact .inr (.inl hgranted)
    · exact .inr (.inr ⟨_, waits, _, List.mem_singleton.mpr rfl⟩)

/-- Nobody takes what has become of a ticket of others. -/
theorem settled (h : Sharing p stakes q stakes') (he : e ∈ p.settled)
    (hother : ∀ stake ∈ stakes, ∀ count, (e.1, count) ∉ stake.claims) : e ∈ q.settled := by
  cases h with
  | grant _ _ asked =>
    rw [(request_none asked).2]
    exact he
  | queue _ _ asked =>
    rw [(request_some asked).2.2]
    exact he
  | release => exact settled_release p _ he
  | @collect _ _ _ ticket count _ _ waits collected =>
    refine settled_collect collected he ?_
    rintro heq
    refine hother (.claim ticket count) (waits.mem_iff.mpr List.mem_cons_self) count ?_
    rw [heq]
    exact List.mem_singleton.mpr rfl
  | abandon => exact (settles_abandon p _).subset he
  | refuse _ f => exact (settles_refuse p _ f).subset he

end Sharing

/-- Only who was granted permits gets them. -/
theorem collect_none {ticket : Nat} {count : Int} {interrupted : Bool}
    (hq : p.collect? ticket count interrupted = some (q, none)) : (ticket, .granted) ∈ p.settled := by
  rcases collect?_cases hq with ⟨hgranted, _⟩ | ⟨_, _, _, hnone⟩ | ⟨_, _, _, _, _, hnone⟩
  · exact mem_of_lookup hgranted
  · cases hnone
  · cases hnone

end Pool

namespace Admission

variable {e : Nat × Settlement}

theorem mem_settled_foldl_refuse (told : List (Nat × Reason)) : ∀ {p : Pool},
    e ∈ (told.foldl (fun pool r => pool.refuse r.1 (.ofReason r.2)) p).settled →
      e ∈ p.settled ∨ e.2 = .granted ∨ ∃ r ∈ told, e = (r.1, .refused (.ofReason r.2)) := by
  induction told with
  | nil => exact fun h => .inl h
  | cons r told ih =>
    intro p h
    rcases ih h with h | h | ⟨q, hq, heq⟩
    · rcases Pool.mem_settled_refuse h with h | h | h
      · exact .inl h
      · exact .inr (.inl h)
      · exact .inr (.inr ⟨r, List.mem_cons_self, h⟩)
    · exact .inr (.inl h)
    · exact .inr (.inr ⟨q, List.mem_cons_of_mem r hq, heq⟩)

/-- If refusals have any effect, somebody who waits is refused. -/
theorem foldl_refuse_cases (told : List (Nat × Reason)) (p : Pool) :
    told.foldl (fun pool r => pool.refuse r.1 (.ofReason r.2)) p = p ∨
      ∃ r ∈ told, p.isWaiting r.1 = true ∧ (r.1, .refused (.ofReason r.2)) ∈
        (told.foldl (fun pool r => pool.refuse r.1 (.ofReason r.2)) p).settled := by
  induction told with
  | nil => exact .inl rfl
  | cons r told ih =>
    by_cases hwaits : p.isWaiting r.1 = true
    · refine .inr ⟨r, List.mem_cons_self, hwaits, (settles_foldl_refuse told _).subset ?_⟩
      change _ ∈ (p.refuse r.1 _).settled
      unfold Pool.refuse
      rw [if_pos hwaits]
      refine (Pool.settles_wake _).subset ?_
      unfold Pool.settle
      rw [if_pos hwaits]
      exact List.mem_append_right _ (List.mem_singleton.mpr rfl)
    · have hsame : p.refuse r.1 (.ofReason r.2) = p := by
        unfold Pool.refuse
        rw [if_neg hwaits]
      rw [List.foldl_cons, hsame]
      exact ih.imp_right fun ⟨q, hq, hrest⟩ => ⟨q, List.mem_cons_of_mem r hq, hrest⟩

theorem mem_settled_cancel {a : Admission} {source : Nat} {r : Reason}
    (h : e ∈ (a.cancel source r).pool.settled) : e ∈ a.pool.settled ∨ e.2 = .granted ∨
      ∃ q ∈ (a.network.cancel source r).2, e = (q.1, .refused (.ofReason q.2)) :=
  mem_settled_foldl_refuse _ h

theorem mem_settled_foldl_abandon (tickets : List Nat) : ∀ {a : Admission},
    e ∈ (tickets.foldl (fun a ticket => a.abandon ticket) a).pool.settled →
      e ∈ a.pool.settled ∨ ∃ ticket ∈ tickets, e = (ticket, .abandoned) := by
  induction tickets with
  | nil => exact fun h => .inl h
  | cons ticket tickets ih =>
    intro a h
    rcases ih h with h | ⟨other, hother, heq⟩
    · exact (Pool.mem_settled_settle h).imp_right fun heq => ⟨ticket, List.mem_cons_self, heq⟩
    · exact .inr ⟨other, List.mem_cons_of_mem ticket hother, heq⟩

theorem settles_foldl_abandon (tickets : List Nat) : ∀ a : Admission,
    Pool.Settles a.pool (tickets.foldl (fun a ticket => a.abandon ticket) a).pool := by
  induction tickets with
  | nil => exact fun a => .refl a.pool
  | cons ticket tickets ih => exact fun a => (a.settles_abandon ticket).trans (ih _)

theorem network_foldl_abandon (tickets : List Nat) : ∀ a : Admission,
    (tickets.foldl (fun a ticket => a.abandon ticket) a).network = a.network := by
  induction tickets with
  | nil => exact fun _ => rfl
  | cons ticket tickets ih => exact fun a => ih _

end Admission

end TreeCensus
