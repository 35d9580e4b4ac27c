import TreeCensus.Proofs.Pool.Blockage
import TreeCensus.Proofs.Pool.Fairness

/-!
# Giving permits back

A pool that is given back no more permits than it counts as held admits those at the head of the line, and its
count stays between the bounds unless a negative number was given back. If more are given back, it refuses, but
it has lowered the count by then. Nobody in the line is touched, but the permits that were refused count as free
from then on: the pool answers all later calls as if it were larger by so many permits.
-/

namespace TreeCensus.Pool

set_option autoImplicit false

variable {p q : Pool} {capacity : Int}

/-- A single use of a pool, by anybody. -/
inductive Call
  | request (priority : Priority) (count : Int)
  | release (count : Int)
  | refuse (ticket : Nat) (f : Fault)
  | abandon (ticket : Nat)
  | collect (ticket : Nat) (count : Int) (interrupted : Bool)

inductive Reply
  | granted
  | queued (ticket : Nat)
  | failed (f : Fault)
  | done
  /-- There is nothing to collect yet. -/
  | pending
  deriving DecidableEq

def answer (p : Pool) : Call → Pool × Reply
  | .request priority count =>
    match p.request priority count with
    | (q, none) => (q, .granted)
    | (q, some ticket) => (q, .queued ticket)
  | .release count =>
    match p.release count with
    | (q, none) => (q, .done)
    | (q, some f) => (q, .failed f)
  | .refuse ticket f => (p.refuse ticket f, .done)
  | .abandon ticket => (p.abandon ticket, .done)
  | .collect ticket count interrupted =>
    match p.collect? ticket count interrupted with
    | none => (p, .pending)
    | some (q, none) => (q, .granted)
    | some (q, some f) => (q, .failed f)

/-- The pool and its replies after some calls. -/
def answers (p : Pool) : List Call → Pool × List Reply
  | [] => (p, [])
  | call :: calls =>
    let (q, reply) := p.answer call
    let (q, replies) := q.answers calls
    (q, reply :: replies)

/-- Permits are given back that are held. -/
def Call.Covered (p : Pool) : Call → Prop
  | release count => count ≤ p.held
  | collect ticket count interrupted =>
    p.settled.lookup ticket = some .granted → interrupted = true → count ≤ p.held
  | request _ _ | refuse _ _ | abandon _ => True

/-- No release is refused. -/
def Covered (p : Pool) : List Call → Prop
  | [] => True
  | call :: calls => call.Covered p ∧ (p.answer call).1.Covered calls

/-- What is asked for, or given back, is not negative. -/
def Call.Sensible : Call → Prop
  | request _ count | release count | collect _ count _ => 0 ≤ count
  | refuse _ _ | abandon _ => True

section LetIn

theorem letIn_admits (capacity : Int) (ws : List Waiter) : ∀ held, ∃ admitted,
    ws = admitted ++ (letIn capacity held ws).waiting ∧
      (letIn capacity held ws).tickets = admitted.map (·.ticket) ∧
        (letIn capacity held ws).held = held + (admitted.map (·.count)).sum := by
  induction ws with
  | nil => exact fun held => ⟨[], rfl, rfl, (Int.add_zero held).symm⟩
  | cons w ws ih =>
    intro held
    unfold letIn
    split
    · exact ⟨[], rfl, rfl, (Int.add_zero held).symm⟩
    · obtain ⟨admitted, hwaiting, htickets, hheld⟩ := ih (held + w.count)
      refine ⟨w :: admitted, congrArg (w :: ·) hwaiting, congrArg (w.ticket :: ·) htickets, ?_⟩
      rw [List.map_cons, List.sum_cons, ← Int.add_assoc]
      exact hheld

/-- Nobody is admitted beyond the capacity. -/
theorem letIn_held_le {ws : List Waiter} :
    ∀ {held}, held ≤ capacity → (letIn capacity held ws).held ≤ capacity := by
  induction ws with
  | nil => exact id
  | cons w ws ih =>
    intro held hle
    unfold letIn
    split
    · exact hle
    · exact ih (by omega)

/-- Nobody is admitted to a pool that is beyond its capacity. -/
theorem letIn_eq_of_lt {ws : List Waiter} (hcounts : ∀ w ∈ ws, 0 ≤ w.count) {held : Int}
    (hlt : capacity < held) : letIn capacity held ws = ⟨held, [], ws⟩ := by
  cases ws with
  | nil => rfl
  | cons w ws =>
    have hcount := hcounts w List.mem_cons_self
    unfold letIn
    exact if_pos (by omega)

/-- Permits that are added to a pool, and are all held, make no difference. -/
theorem letIn_add (k : Int) (ws : List Waiter) : ∀ held, letIn (capacity + k) (held + k) ws =
    { letIn capacity held ws with held := (letIn capacity held ws).held + k } := by
  induction ws with
  | nil => exact fun _ => rfl
  | cons w ws ih =>
    intro held
    unfold letIn
    by_cases hfull : capacity < held + w.count
    · rw [if_pos hfull, if_pos (by omega)]
    · rw [if_neg hfull, if_neg (by omega), Int.add_right_comm, ih]

end LetIn

/-- The pool with `k` permits more, which are held. -/
def extend (p : Pool) (k : Int) : Pool := { p with capacity := p.capacity + k, held := p.held + k }

section Extend
variable (p) (k : Int)

theorem wake_extend : (p.extend k).wake = p.wake.extend k := by
  unfold wake extend
  dsimp only
  rw [letIn_add]

theorem request_extend (priority : Priority) (count : Int) :
    (p.extend k).request priority count =
      ((p.request priority count).1.extend k, (p.request priority count).2) := by
  have hfree : (p.waiting = [] ∧ p.held + k + count ≤ p.capacity + k) ↔
      (p.waiting = [] ∧ p.held + count ≤ p.capacity) := and_congr_right fun _ => by omega
  unfold request extend
  simp only [hfree]
  split
  · rw [Int.add_right_comm]
  · rfl

theorem settle_extend (ticket : Nat) (s : Settlement) :
    (p.extend k).settle ticket s = (p.settle ticket s).extend k := by
  unfold settle
  change (if p.isWaiting ticket then _ else _) = _
  split <;> rfl

theorem refuse_extend (ticket : Nat) (f : Fault) :
    (p.extend k).refuse ticket f = (p.refuse ticket f).extend k := by
  unfold refuse
  rw [settle_extend, wake_extend]
  change (if p.isWaiting ticket then _ else _) = _
  split <;> rfl

end Extend

/-- A release of more permits than are held only lowers the count. -/
theorem release_of_lt {n : Int} (h : p.held < n) :
    p.release n = ({ p with held := p.held - n }, some .releasedTooMuch) := by
  unfold release
  exact if_pos (by dsimp only; omega)

theorem release_of_le {n : Int} (h : n ≤ p.held) : p.release n = ({ p with held := p.held - n }.wake, none) := by
  unfold release
  exact if_neg (by dsimp only; omega)

theorem release_eq_none_iff {n : Int} : (p.release n).2 = none ↔ n ≤ p.held := by
  by_cases h : n ≤ p.held
  · rw [release_of_le h]
    exact iff_of_true rfl h
  · rw [release_of_lt (by omega)]
    exact iff_of_false nofun h

/-- If nobody waits for a negative number, the count is between the bounds after a release that returns, unless it
has been beyond the capacity before anybody was admitted. -/
theorem release_within {n : Int} (h : n ≤ p.held) (hcounts : ∀ w ∈ p.waiting, 0 ≤ w.count) :
    0 ≤ (p.release n).1.held ∧ ((p.release n).1.held ≤ p.capacity ↔ p.held - n ≤ p.capacity) := by
  rw [release_of_le h]
  change 0 ≤ (letIn p.capacity (p.held - n) p.waiting).held ∧
    ((letIn p.capacity (p.held - n) p.waiting).held ≤ p.capacity ↔ _)
  constructor
  · obtain ⟨admitted, hwaiting, -, hheld⟩ := letIn_admits p.capacity p.waiting (p.held - n)
    have hsum : 0 ≤ (admitted.map (·.count)).sum := by
      refine List.sum_nonneg fun count hcount => ?_
      obtain ⟨w, hw, rfl⟩ := List.mem_map.mp hcount
      exact hcounts w (hwaiting ▸ List.mem_append_left _ hw)
    omega
  · refine ⟨fun hle => Int.not_lt.mp fun hlt => ?_, letIn_held_le⟩
    rw [letIn_eq_of_lt hcounts hlt] at hle
    exact absurd hlt (Int.not_lt.mpr hle)

theorem release_extend {n k : Int} (h : n ≤ p.held) (hk : 0 ≤ k) :
    (p.extend k).release n = ((p.release n).1.extend k, none) := by
  rw [release_of_le h, release_of_le (show n ≤ p.held + k by omega), ← wake_extend]
  congr 2
  unfold extend
  dsimp only
  rw [add_sub_right_comm]

theorem collect?_extend {k : Int} (hk : 0 ≤ k) {ticket : Nat} {count : Int} {interrupted : Bool}
    (h : p.settled.lookup ticket = some .granted → interrupted = true → count ≤ p.held) :
    (p.extend k).collect? ticket count interrupted =
      (p.collect? ticket count interrupted).map fun r => (r.1.extend k, r.2) := by
  unfold collect?
  change (p.settled.lookup ticket).map _ = _
  cases hlookup : p.settled.lookup ticket with
  | none => rfl
  | some s =>
    simp only [Option.map_some]
    congr 1
    cases s with
    | granted =>
      cases interrupted with
      | false => rfl
      | true =>
        have hcovered : count ≤ (p.without ticket).held := h hlookup rfl
        have hrelease := release_extend hcovered hk
        have hfine := release_eq_none_iff.mpr hcovered
        change ((((p.without ticket).extend k).release count).1,
          some ((((p.without ticket).extend k).release count).2.getD .interrupted)) =
          (((p.without ticket).release count).1.extend k,
            some (((p.without ticket).release count).2.getD .interrupted))
        rw [hrelease, hfine]
    | refused f =>
      change (((p.without ticket).extend k).wake, _) = ((p.without ticket).wake.extend k, _)
      rw [wake_extend]
    | abandoned =>
      change (((p.without ticket).extend k).wake, _) = ((p.without ticket).wake.extend k, _)
      rw [wake_extend]

theorem answer_extend {k : Int} (hk : 0 ≤ k) {call : Call} (h : call.Covered p) :
    (p.extend k).answer call = ((p.answer call).1.extend k, (p.answer call).2) := by
  cases call with
  | request priority count =>
    unfold answer
    dsimp only
    rw [request_extend]
    obtain ⟨q, _ | ticket⟩ := p.request priority count <;> rfl
  | release count =>
    unfold answer
    dsimp only
    rw [release_extend h hk, release_of_le h]
  | refuse ticket f => exact congrArg (·, Reply.done) (refuse_extend p k ticket f)
  | abandon ticket => exact congrArg (·, Reply.done) (settle_extend p k ticket .abandoned)
  | collect ticket count interrupted =>
    unfold answer
    dsimp only
    rw [collect?_extend hk h]
    obtain _ | ⟨q, _ | f⟩ := p.collect? ticket count interrupted <;> rfl

/-- As long as no release is refused, permits that are added and are held make no difference to the replies. -/
theorem answers_extend {k : Int} (hk : 0 ≤ k) (calls : List Call) : ∀ {p : Pool}, p.Covered calls →
    (p.extend k).answers calls = ((p.answers calls).1.extend k, (p.answers calls).2) := by
  induction calls with
  | nil => exact fun _ => rfl
  | cons call calls ih =>
    intro p h
    unfold answers
    rw [answer_extend hk h.1]
    dsimp only
    rw [ih h.2]

/-- What a call does to the line and to the count: permits are asked for, or some of those in line are settled, and
before that permits may have been given back. -/
theorem answer_cases (p : Pool) (call : Call) :
    (∃ priority count, call = .request priority count ∧ (p.answer call).1 = (p.request priority count).1) ∨
      ∃ held settled, Settles { p with held, settled } (p.answer call).1 ∧
        (held = p.held ∨ ∃ count, held = p.held - count ∧
          (call = .release count ∨ ∃ ticket, call = .collect ticket count true)) := by
  cases call with
  | request priority count =>
    refine .inl ⟨_, _, rfl, ?_⟩
    unfold answer
    dsimp only
    obtain ⟨q, _ | ticket⟩ := p.request priority count <;> rfl
  | release count =>
    refine .inr ⟨p.held - count, p.settled, ?_, .inr ⟨count, rfl, .inl rfl⟩⟩
    have hpool : (p.answer (.release count)).1 = (p.release count).1 := by
      unfold answer
      dsimp only
      obtain ⟨q, _ | f⟩ := p.release count <;> rfl
    exact hpool ▸ settles_release p count
  | refuse ticket f => exact .inr ⟨p.held, p.settled, settles_refuse p ticket f, .inl rfl⟩
  | abandon ticket => exact .inr ⟨p.held, p.settled, settles_abandon p ticket, .inl rfl⟩
  | collect ticket count interrupted =>
    unfold answer
    dsimp only
    cases hcollect : p.collect? ticket count interrupted with
    | none => exact .inr ⟨p.held, p.settled, .refl p, .inl rfl⟩
    | some r =>
      obtain ⟨q, failure⟩ := r
      have hpool : (match some (q, failure) with
          | none => (p, Reply.pending)
          | some (q, none) => (q, Reply.granted)
          | some (q, some f) => (q, Reply.failed f)).1 = q := by
        cases failure <;> rfl
      rw [hpool]
      rcases collect?_cases hcollect with ⟨-, -, rfl, -⟩ | ⟨-, rfl, rfl, -⟩ | ⟨-, -, -, rfl, -⟩
      · exact .inr ⟨p.held, (p.without ticket).settled, .refl _, .inl rfl⟩
      · exact .inr ⟨p.held - count, (p.without ticket).settled, settles_release (p.without ticket) count,
          .inr ⟨count, rfl, .inr ⟨ticket, rfl⟩⟩⟩
      · exact .inr ⟨p.held, (p.without ticket).settled, settles_wake (p.without ticket), .inl rfl⟩

theorem Settles.held_le (h : Settles p q) (hp : p.held ≤ p.capacity) : q.held ≤ q.capacity := by
  induction h with
  | refl => exact hp
  | cons hone _ ih =>
    refine ih ?_
    cases hone with
    | grant _ fits => exact fits
    | dismiss => exact hp

theorem capacity_answer (p : Pool) (call : Call) : (p.answer call).1.capacity = p.capacity := by
  rcases p.answer_cases call with ⟨_, _, -, heq⟩ | ⟨_, _, hsettles, -⟩
  · rw [heq, capacity_request]
  · exact hsettles.capacity

theorem counts_answer {call : Call} (hp : ∀ w ∈ p.waiting, 0 ≤ w.count)
    (hcall : ∀ priority count, call = .request priority count → 0 ≤ count) :
    ∀ w ∈ (p.answer call).1.waiting, 0 ≤ w.count := by
  intro w hw
  rcases p.answer_cases call with ⟨priority, count, rfl, heq⟩ | ⟨_, _, hsettles, -⟩
  · rw [heq] at hw
    rcases hrequest : p.request priority count with ⟨q, _ | ticket⟩ <;> rw [hrequest] at hw
    · rw [(request_none_eq hrequest).2] at hw
      exact hp w hw
    · rw [(request_some_eq hrequest).2] at hw
      rcases List.mem_cons.mp ((Books.perm_enqueue _ _).mem_iff.mp hw) with rfl | hw
      · exact hcall priority count rfl
      · exact hp w hw
  · exact hp w (hsettles.sublist.subset hw)

/-- The count comes beyond the capacity only through a negative call. -/
theorem held_answer {call : Call} (hp : p.held ≤ p.capacity) (hcall : call.Sensible) :
    (p.answer call).1.held ≤ (p.answer call).1.capacity := by
  rcases p.answer_cases call with ⟨priority, count, rfl, heq⟩ | ⟨held, settled, hsettles, hheld⟩
  · rw [heq]
    unfold request
    split
    · next hfree => exact hfree.2
    · exact hp
  · refine hsettles.held_le ?_
    change held ≤ p.capacity
    rcases hheld with rfl | ⟨count, rfl, rfl | ⟨ticket, rfl⟩⟩
    · exact hp
    · have hcount : 0 ≤ count := hcall
      omega
    · have hcount : 0 ≤ count := hcall
      omega

/-- What every call keeps is kept by all of them. -/
theorem answers_induct {motive : Pool → Prop} (calls : List Call)
    (hstep : ∀ call ∈ calls, ∀ q : Pool, motive q → motive (q.answer call).1) :
    ∀ {p : Pool}, motive p → motive (p.answers calls).1 := by
  induction calls with
  | nil => exact id
  | cons call calls ih =>
    exact fun hp => ih (fun c hc => hstep c (List.mem_cons_of_mem _ hc)) (hstep call List.mem_cons_self _ hp)

/-- What comes of giving permits back to a pool that some calls were made to. -/
structure Refunds (capacity : Int) (calls : List Call) (p : Pool) : Prop where
  /-- A release returns if no more permits are given back than are held. -/
  returns : ∀ n, (p.release n).2 = none ↔ n ≤ p.held
  /-- It admits those at the head of the line, in order, until nobody is left or the first one does not fit. -/
  admits : ∀ n ≤ p.held, ∃ admitted, p.waiting = admitted ++ (p.release n).1.waiting ∧
    (p.release n).1.settled = p.settled ++ admitted.map (fun w => (w.ticket, .granted)) ∧
      (p.release n).1.held = p.held - n + (admitted.map (·.count)).sum ∧
        ((p.release n).1.waiting = [] ∨ ∃ w rest, (p.release n).1.waiting = w :: rest ∧
          capacity < (p.release n).1.held + w.count)
  /-- If nobody has asked for a negative number, the count is not negative when a release returns, and it is not
  beyond the capacity unless permits were taken from it beyond the capacity, -/
  within : (∀ priority count, .request priority count ∈ calls → 0 ≤ count) → ∀ n ≤ p.held,
    0 ≤ (p.release n).1.held ∧ ((p.release n).1.held ≤ capacity ↔ p.held - n ≤ capacity)
  /-- which takes a negative number. -/
  bounded : (∀ call ∈ calls, call.Sensible) → p.held ≤ capacity
  /-- A release that is refused lowers the count, and does nothing else. -/
  raises : ∀ n, p.held < n → p.release n = ({ p with held := p.held - n }, some .releasedTooMuch)
  /-- From then on the pool replies, until a release is refused again, as if it had so many permits more and the
  release had not been tried. -/
  later : ∀ {n calls}, 0 ≤ n → p.held < n → (p.release n).1.Covered calls →
    ((p.release n).1.answers calls).2 = ({ p with capacity := capacity + n }.answers calls).2

theorem refunds_of_answers {start : Pool} (h : create capacity = .ok start) (calls : List Call) :
    Refunds capacity calls (start.answers calls).1 := by
  obtain ⟨hsize, rfl⟩ := create_eq h
  have hcapacity := answers_induct calls (motive := fun q => q.capacity = capacity)
    (fun call _ q hq => (capacity_answer q call).trans hq) (p := ⟨capacity, 0, [], [], 0⟩) rfl
  have hheld := fun (hcalls : ∀ call ∈ calls, call.Sensible) =>
    answers_induct calls (motive := fun q => q.held ≤ q.capacity)
      (fun call hcall q hq => held_answer hq (hcalls call hcall)) (p := ⟨capacity, 0, [], [], 0⟩)
      (Int.le_trans Int.one_nonneg hsize)
  have hcounts := fun (hcalls : ∀ priority count, .request priority count ∈ calls → 0 ≤ count) =>
    answers_induct calls (motive := fun q => ∀ w ∈ q.waiting, 0 ≤ w.count)
      (fun call hcall q hq => counts_answer hq fun priority count heq => hcalls priority count (heq ▸ hcall))
      (p := ⟨capacity, 0, [], [], 0⟩) nofun
  generalize ((⟨capacity, 0, [], [], 0⟩ : Pool).answers calls).1 = p at *
  refine ⟨fun n => release_eq_none_iff, fun n hn => ?_, fun hcalls n hn => ?_,
    fun hcalls => hcapacity ▸ hheld hcalls, fun n => release_of_lt, fun {n later} hpos hn hcovered => ?_⟩
  · obtain ⟨admitted, hwaiting, htickets, hcount⟩ := letIn_admits p.capacity p.waiting (p.held - n)
    rw [release_of_le hn]
    refine ⟨admitted, hwaiting, ?_, hcount, ?_⟩
    · change p.settled ++ (letIn _ _ _).tickets.map _ = _
      rw [htickets, List.map_map]
      rfl
    · exact hcapacity ▸ letIn_stops p.waiting (p.held - n)
  · exact hcapacity ▸ release_within hn (hcounts hcalls)
  · have hextend : (p.release n).1.extend n = { p with capacity := capacity + n } := by
      rw [release_of_lt hn, ← hcapacity]
      unfold extend
      dsimp only
      rw [Int.sub_add_cancel]
    rw [← hextend, answers_extend hpos later hcovered]

/-- A permit is given back to a pool of one permit that nobody holds. The release is refused, and then the permit
is granted twice. -/
theorem refunds_without_permit : ∃ start p : Pool, create 1 = .ok start ∧
    start.answers [.release 1] = (p, [.failed .releasedTooMuch]) ∧ Refunds 1 [.release 1] p ∧ p.held = -1 ∧
      (p.answers [.request .root 1, .request .root 1]).2 = [.granted, .granted] :=
  ⟨⟨1, 0, [], [], 0⟩, (answers ⟨1, 0, [], [], 0⟩ [.release 1]).1, rfl, rfl, refunds_of_answers rfl _, rfl,
    rfl⟩

end TreeCensus.Pool
