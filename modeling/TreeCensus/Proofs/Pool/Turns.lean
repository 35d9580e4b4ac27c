import TreeCensus.Pool.Session
import TreeCensus.Proofs.Pool.Stakes

/-!
# Turns of the tasks of a session

What a turn of a task can do to the pool and to the task is listed once, in `Turn`; whatever holds of
the pool throughout a session is shown by going through that list.
-/

namespace TreeCensus.Pool

set_option autoImplicit false

variable {α : Type}

def Errand.keeps : Errand α → Bool
  | .keep => true
  | .run _ _ => false

namespace Session

/-- How the call of a task for permits ends in its next turn: with permits, with a fault, or not
yet. -/
def outcome? (s : Session α) (t : Task α) : Option Bool :=
  match t.phase with
  | .fresh =>
    if t.interrupted then none
    else
      match s.admission.ask t.priority t.count t.token with
      | .error _ => some false
      | .ok (_, none) => some true
      | .ok (_, some _) => none
  | .waiting ticket =>
    (s.admission.collect? ticket t.count t.token t.interrupted).map fun r => r.2.isNone
  | .gate | .over => none

@[simp] theorem pool_note (s : Session α) (e : Event α) : (s.note e).pool = s.pool := rfl

@[simp] theorem tasks_note (s : Session α) (e : Event α) : (s.note e).tasks = s.tasks := rfl

@[simp] theorem pool_setPhase (s : Session α) (i : Nat) (phase : Phase) :
    (s.setPhase i phase).pool = s.pool := rfl

@[simp] theorem tasks_setPhase (s : Session α) (i : Nat) (phase : Phase) :
    (s.setPhase i phase).tasks = s.tasks.modify i fun t => { t with phase } := rfl

@[simp] theorem pool_conclude (s : Session α) (i : Nat) (name : Text) (result : Except Fault α) :
    (s.conclude i name result).pool = s.pool := rfl

@[simp] theorem tasks_conclude (s : Session α) (i : Nat) (name : Text) (result : Except Fault α) :
    (s.conclude i name result).tasks = s.tasks.modify i fun t => { t with phase := .over } := rfl

theorem giveBack_eq (s : Session α) (i : Nat) (t : Task α) (result : Except Fault α) :
    (s.giveBack i t result).pool = (s.pool.release t.count).1 ∧
      (s.giveBack i t result).tasks = s.tasks.modify i fun t => { t with phase := .over } := by
  unfold giveBack
  rcases h : s.admission.release t.count with ⟨admission, _ | f⟩ <;>
  · have hpool : admission.pool = (s.pool.release t.count).1 := by
      rw [pool, ← Admission.release_pool, h]
    exact ⟨hpool, rfl⟩

@[simp] theorem pool_enqueue (s : Session α) (i : Nat) : (s.enqueue i).pool = s.pool := by
  unfold enqueue
  split <;> rfl

@[simp] theorem tasks_enqueue (s : Session α) (i : Nat) : (s.enqueue i).tasks = s.tasks := by
  unfold enqueue
  split <;> rfl

/-- Only the order in which tasks go on is touched. -/
theorem enqueueSettled_ready (s : Session α) :
    ∃ ready, s.enqueueSettled = { s with ready := ready } := by
  unfold enqueueSettled
  generalize s.pool.settled = entries
  induction entries generalizing s with
  | nil => exact ⟨s.ready, rfl⟩
  | cons e entries ih =>
    rw [List.foldl_cons]
    split
    · next i _ =>
      unfold enqueue
      split
      · exact ih s
      · exact ih { s with ready := s.ready ++ [i] }
    · exact ih s

theorem enqueueSettled_eq (s : Session α) :
    s.enqueueSettled.pool = s.pool ∧ s.enqueueSettled.tasks = s.tasks := by
  obtain ⟨ready, hready⟩ := s.enqueueSettled_ready
  rw [hready]
  exact ⟨rfl, rfl⟩

theorem token_eq (s : Session α) (name : Text) :
    (s.token name).1.pool = s.pool ∧ (s.token name).1.tasks = s.tasks := by
  unfold token
  split <;> exact ⟨rfl, rfl⟩

theorem events_token (s : Session α) (name : Text) : (s.token name).1.events = s.events := by
  unfold token
  split <;> rfl

theorem interrupt_eq (s : Session α) (i : Nat) (t : Task α) :
    Settles s.pool (s.interrupt i t).pool ∧
      (s.interrupt i t).tasks = s.tasks.modify i fun u => { u with interrupted := true } := by
  unfold interrupt
  dsimp only
  split
  · next ticket _ => exact ⟨Admission.settles_abandon s.admission ticket, rfl⟩
  · refine ⟨?_, by simp⟩
    rw [pool_enqueue]
    exact .refl s.pool
  · exact ⟨.refl s.pool, rfl⟩
  · exact ⟨.refl s.pool, rfl⟩

theorem cancel_eq (s : Session α) (name : Text) (reason : Reason) :
    Settles s.pool (s.perform (.cancel name reason)).1.pool ∧
      (s.perform (.cancel name reason)).1.tasks = s.tasks := by
  obtain ⟨hpool, htasks⟩ := token_eq s name
  unfold perform
  dsimp only
  obtain ⟨hafter, hlast⟩ := enqueueSettled_eq
    { (s.token name).1 with
      admission := (s.token name).1.admission.cancel (s.token name).2 reason }
  rw [hafter, hlast, ← hpool]
  exact ⟨Admission.settles_cancel _ _ _, htasks⟩

/-- How a task gets its permits: at once, or after it has waited. -/
inductive Takes (p : Pool) (t : Task α) (q : Pool) : Prop
  | atOnce (fresh : t.phase = .fresh) (granted : p.request t.priority t.count = (q, none))
  | collected {ticket : Nat} (waits : t.phase = .waiting ticket)
      (granted : p.collect? ticket t.count t.interrupted = some (q, none))

/-- All that a turn of a task can do to the pool and to the phase of the task, and how the call for
permits ends in it. -/
inductive Turn (p : Pool) (t : Task α) : Pool → Phase → Option Bool → Prop
  | idle (unsettled : ∀ ticket, t.phase = .waiting ticket → ticket ∉ p.settled.map (·.1)) :
      Turn p t p t.phase none
  | drop (fresh : t.phase = .fresh) : Turn p t p .over none
  | refuse (fresh : t.phase = .fresh) : Turn p t p .over (some false)
  | queue {q : Pool} {ticket : Nat} (fresh : t.phase = .fresh)
      (queued : p.request t.priority t.count = (q, some ticket)) : Turn p t q (.waiting ticket) none
  | fail {q : Pool} {ticket : Nat} {f : Fault} (waits : t.phase = .waiting ticket)
      (failed : p.collect? ticket t.count t.interrupted = some (q, some f)) :
      Turn p t q .over (some false)
  | keep {q : Pool} (takes : Takes p t q) (keeps : t.errand.keeps = true) :
      Turn p t q .over (some true)
  | park {q : Pool} (takes : Takes p t q) (runs : t.errand.keeps = false) :
      Turn p t q .gate (some true)
  | done {q : Pool} (takes : Takes p t q) (runs : t.errand.keeps = false) :
      Turn p t (q.release t.count).1 .over (some true)
  | finish (parked : t.phase = .gate) : Turn p t (p.release t.count).1 .over none

theorem modify_phase_self {tasks : List (Task α)} {i : Nat} {t : Task α} (h : tasks[i]? = some t) :
    (tasks.modify i fun u => { u with phase := t.phase }) = tasks := by
  apply List.ext_getElem?
  intro j
  rw [List.getElem?_modify]
  split
  · next hij =>
    subst hij
    simp [h]
  · simp

theorem proceed_turn {s : Session α} {p : Pool} (i : Nat) {t : Task α} (takes : Takes p t s.pool) :
    ∃ phase, Turn p t (s.proceed i t).pool phase (some true) ∧
      (s.proceed i t).tasks = s.tasks.modify i fun u => { u with phase } := by
  have hdone : t.errand.keeps = false → ∀ (u : Session α) result, u.pool = s.pool →
      u.tasks = s.tasks → ∃ phase, Turn p t (u.giveBack i t result).pool phase (some true) ∧
        (u.giveBack i t result).tasks = s.tasks.modify i fun u => { u with phase } := by
    intro hruns u result hpool htasks
    obtain ⟨hback, hover⟩ := giveBack_eq u i t result
    rw [hpool] at hback
    rw [htasks] at hover
    exact ⟨.over, hback ▸ .done takes hruns, hover⟩
  unfold proceed
  split
  · next herrand => exact ⟨.over, .keep takes (by rw [herrand]; rfl), rfl⟩
  · next gated result herrand =>
    have hruns : t.errand.keeps = false := by rw [herrand]; rfl
    split
    · exact hdone hruns s _ rfl rfl
    · split
      · exact hdone hruns _ _ rfl rfl
      · dsimp only
        split
        · exact ⟨.gate, .park takes hruns, rfl⟩
        · exact hdone hruns _ _ rfl rfl

/-- Behind a gate a run can only come to its end. -/
theorem resume_gate (s : Session α) (i : Nat) {t : Task α} (hphase : t.phase = .gate) :
    ∃ result, s.resume i t = s.giveBack i t result := by
  simp only [resume, hphase]
  split <;> exact ⟨_, rfl⟩

theorem resume_turn (s : Session α) {i : Nat} {t : Task α} (h : s.tasks[i]? = some t) :
    ∃ phase, Turn s.pool t (s.resume i t).pool phase (s.outcome? t) ∧
      (s.resume i t).tasks = s.tasks.modify i fun u => { u with phase } := by
  have hself := (modify_phase_self h).symm
  cases hphase : t.phase with
  | «over» =>
    simp only [resume, outcome?, hphase]
    exact ⟨t.phase, .idle (by simp [hphase]), hself⟩
  | fresh =>
    cases hinterrupted : t.interrupted with
    | true =>
      simp only [resume, outcome?, hphase, hinterrupted, if_true]
      exact ⟨.over, .drop hphase, rfl⟩
    | false =>
      rcases hask : s.admission.ask t.priority t.count t.token with f | ⟨admission, _ | ticket⟩ <;>
        simp only [resume, outcome?, hphase, hinterrupted, hask, Bool.false_eq_true, if_false]
      · exact ⟨.over, .refuse hphase, rfl⟩
      · exact proceed_turn i (.atOnce hphase (Admission.ask_cases hask).2.2.1)
      · exact ⟨.waiting ticket, .queue hphase (Admission.ask_cases hask).2.2.1, rfl⟩
  | waiting ticket =>
    rcases hcollect : s.admission.collect? ticket t.count t.token t.interrupted with
      _ | ⟨admission, _ | f⟩ <;>
      simp only [resume, outcome?, hphase, hcollect, Option.map_none, Option.map_some]
    · have hnone := Pool.collect?_eq_none (Admission.collect?_eq_none.mp hcollect)
      refine ⟨t.phase, .idle ?_, hself⟩
      intro n hn
      rw [hphase] at hn
      exact (Phase.waiting.inj hn) ▸ hnone
    · exact proceed_turn i (.collected hphase (Admission.collect?_cases hcollect).1)
    · exact ⟨.over, .fail hphase (Admission.collect?_cases hcollect).1, rfl⟩
  | gate =>
    obtain ⟨result, hresult⟩ := s.resume_gate i hphase
    obtain ⟨hpool, htasks⟩ := giveBack_eq s i t result
    simp only [outcome?, hphase, hresult]
    exact ⟨.over, hpool ▸ .finish hphase, htasks⟩

end Session

/-- From `p` to `q` nothing that is settled was lost; those who have been settled since then waited
before or have come since then. -/
def Grows (p q : Pool) : Prop :=
  q.capacity = p.capacity ∧ p.next ≤ q.next ∧ ∃ new arrivals,
    q.settled = p.settled ++ new ∧
    (new.map (·.1) ++ q.waiting.map (·.ticket)).Perm (arrivals ++ p.waiting.map (·.ticket)) ∧
    arrivals.Nodup ∧ ∀ n ∈ arrivals, p.next ≤ n ∧ n < q.next

namespace Grows

theorem refl (p : Pool) : Grows p p :=
  ⟨rfl, Nat.le_refl _, [], [], by simp, by simp, List.nodup_nil, by simp⟩

theorem trans {p q r : Pool} (hpq : Grows p q) (hqr : Grows q r) : Grows p r := by
  obtain ⟨hcap, hnext, new, come, hset, hperm, hnodup, hlt⟩ := hpq
  obtain ⟨hcap', hnext', new', come', hset', hperm', hnodup', hlt'⟩ := hqr
  refine ⟨hcap'.trans hcap, by omega, new ++ new', come' ++ come, by simp [hset, hset'], ?_, ?_, ?_⟩
  · rw [List.map_append, List.append_assoc, List.append_assoc]
    refine (hperm'.append_left (new.map (·.1))).trans ?_
    refine .trans ?_ (hperm.append_left come')
    rw [← List.append_assoc, ← List.append_assoc]
    exact List.perm_append_comm.append_right _
  · refine List.nodup_append.mpr ⟨hnodup', hnodup, ?_⟩
    intro m hm n hn heq
    have := hlt n hn
    have := hlt' m hm
    omega
  · intro n hn
    rcases List.mem_append.mp hn with hn | hn
    · have := hlt' n hn
      omega
    · have := hlt n hn
      omega

theorem of_settles {p q : Pool} (h : Settles p q) (hnodup : (p.waiting.map (·.ticket)).Nodup) :
    Grows p q := by
  obtain ⟨hcap, hnext, new, hset, hperm⟩ := h.log hnodup
  exact ⟨hcap, hnext ▸ Nat.le_refl _, new, [], hset, hperm, List.nodup_nil, by simp⟩

theorem of_release {p : Pool} {count : Int} (hfault : (p.release count).2 = none)
    (hnodup : (p.waiting.map (·.ticket)).Nodup) : Grows p (p.release count).1 := by
  by_cases hneg : p.held - count < 0
  · simp [release, hneg] at hfault
  · simp only [release, hneg, if_false]
    exact of_settles (p := { p with held := p.held - count }) (settles_wake _) hnodup

theorem of_request {p q : Pool} {priority : Priority} {count : Int} {ticket : Option Nat}
    (h : p.request priority count = (q, ticket)) : Grows p q := by
  unfold request at h
  split at h
  · obtain ⟨rfl, -⟩ := Prod.mk.inj h
    exact refl p
  · obtain ⟨rfl, -⟩ := Prod.mk.inj h
    refine ⟨rfl, by simp, [], [p.next], by simp, ?_, by simp, by simp⟩
    exact (Books.perm_enqueue ⟨p.next, priority, count⟩ p.waiting).map (·.ticket)

end Grows

/-- The pool as it is when the outcome of the task's ticket has been taken from it. -/
def Task.cleared (t : Task α) (p : Pool) : Pool :=
  match t.phase with
  | .waiting ticket => p.without ticket
  | _ => p

/-- What a task has at stake in a phase, if `kept` says whether it keeps permits at the end. -/
def Task.stake (t : Task α) (kept : Bool) : Phase → Stake
  | .fresh => .none
  | .waiting ticket => .claim ticket t.count
  | .gate => .hold t.count
  | .over => if kept then .hold t.count else .none

namespace Session

variable {p q : Pool} {t : Task α} {kept : Bool} {stakes : List Stake}

theorem Takes.serves (h : Takes p t q) (hcount : 0 < t.count)
    (hserves : Serves p (t.stake kept t.phase :: stakes)) :
    Serves q (.hold t.count :: stakes) ∧ Grows (t.cleared p) q := by
  cases h with
  | atOnce hfresh hgranted =>
    rw [hfresh] at hserves
    refine ⟨hserves.grant hcount hgranted, ?_⟩
    rw [Task.cleared, hfresh]
    exact .of_request hgranted
  | @collected ticket hwaits hgranted =>
    rw [hwaits] at hserves
    refine ⟨by simpa using hserves.collect hgranted, ?_⟩
    rw [Task.cleared, hwaits]
    rcases collect?_cases hgranted with ⟨-, -, rfl, -⟩ | ⟨-, -, -, hf⟩ | ⟨-, -, -, -, f, hf⟩
    · exact .refl _
    · cases hf
    · cases hf

theorem grows_collect {ticket : Nat} {count : Int} {interrupted : Bool} {failure : Option Fault}
    (hserves : Serves p (.claim ticket count :: stakes))
    (h : p.collect? ticket count interrupted = some (q, failure)) : Grows (p.without ticket) q := by
  have hnodup : ((p.without ticket).waiting.map (·.ticket)).Nodup := hserves.1.nodup_waiting
  rcases collect?_cases h with ⟨-, -, rfl, -⟩ | ⟨hs, -, rfl, -⟩ | ⟨s, -, -, rfl, -⟩
  · exact .refl _
  · exact .of_release (hserves.giveBack hs) hnodup
  · exact .of_settles (settles_wake _) hnodup

/-- A turn keeps the books, and it settles nothing twice. -/
theorem Turn.serves {phase : Phase} {outcome : Option Bool} (h : Turn p t q phase outcome)
    (hcount : 0 < t.count) (hkept : kept = true → t.phase = .over)
    (hserves : Serves p (t.stake kept t.phase :: stakes)) :
    Serves q (t.stake (kept || t.errand.keeps && outcome == some true) phase :: stakes) ∧
      Grows (t.cleared p) q := by
  have hnot : t.phase ≠ .over → kept = false := by
    intro hne
    cases kept with
    | false => rfl
    | true => exact absurd (hkept rfl) hne
  cases h with
  | idle hunsettled =>
    refine ⟨by simpa using hserves, ?_⟩
    unfold Task.cleared
    split
    · next ticket hwaits =>
      have hsame : p.without ticket = p := by
        have herase : p.settled.eraseP (·.1 = ticket) = p.settled := by
          apply List.eraseP_of_forall_not
          intro e he heq
          apply hunsettled ticket hwaits
          rw [← of_decide_eq_true heq]
          exact List.mem_map_of_mem he
        rw [Pool.without, herase]
      rw [hsame]
      exact .refl p
    · exact .refl p
  | drop hfresh =>
    rw [hfresh] at hserves
    have := hnot (by simp [hfresh])
    refine ⟨by simpa [this, Task.stake] using hserves, ?_⟩
    simpa [Task.cleared, hfresh] using Grows.refl p
  | refuse hfresh =>
    rw [hfresh] at hserves
    have := hnot (by simp [hfresh])
    refine ⟨by simpa [this, Task.stake] using hserves, ?_⟩
    simpa [Task.cleared, hfresh] using Grows.refl p
  | queue hfresh hqueued =>
    rw [hfresh] at hserves
    refine ⟨hserves.queue hcount hqueued, ?_⟩
    simpa [Task.cleared, hfresh] using Grows.of_request hqueued
  | fail hwaits hfailed =>
    rw [hwaits] at hserves
    have := hnot (by simp [hwaits])
    refine ⟨by simpa [this, Task.stake] using hserves.collect hfailed, ?_⟩
    simpa [Task.cleared, hwaits] using grows_collect hserves hfailed
  | keep htakes hkeeps =>
    obtain ⟨hq, hgrows⟩ := htakes.serves hcount hserves
    exact ⟨by simpa [hkeeps, Task.stake] using hq, hgrows⟩
  | park htakes _ => exact htakes.serves hcount hserves
  | done htakes hruns =>
    obtain ⟨hq, hgrows⟩ := htakes.serves hcount hserves
    obtain ⟨hfault, hback⟩ := hq.release
    have : kept = false := by
      apply hnot
      cases htakes with
      | atOnce hfresh _ => simp [hfresh]
      | collected hwaits _ => simp [hwaits]
    refine ⟨by simpa [this, hruns, Task.stake] using hback, ?_⟩
    exact hgrows.trans (.of_release hfault hq.1.nodup_waiting)
  | finish hparked =>
    rw [hparked] at hserves
    obtain ⟨hfault, hback⟩ := hserves.release
    have := hnot (by simp [hparked])
    refine ⟨by simpa [this, Task.stake] using hback, ?_⟩
    simpa [Task.cleared, hparked] using Grows.of_release hfault hserves.1.nodup_waiting

end Session

end TreeCensus.Pool
