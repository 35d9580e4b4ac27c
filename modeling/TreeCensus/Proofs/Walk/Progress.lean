import TreeCensus.Proofs.Pool.Fairness
import TreeCensus.Proofs.Pool.Outcomes
import TreeCensus.Proofs.Walk.Deeds
import TreeCensus.Proofs.Walk.Descents

/-!
# Progress

A walk that has its pool for itself can always make a step until it comes back: whoever waits for a
permit is let in when nobody else has one, and a level closes when its tasks have ended. So a walk
whose steps are bounded comes back in whatever order they are made.
-/

namespace TreeCensus.Walk

set_option autoImplicit false

variable {σ : Type} {env : Environment σ} {capacity : Int} {s s' : State σ}

/-- Steps of tasks and levels, in any order. -/
inductive State.Steps (env : Environment σ) : Nat → State σ → State σ → Prop
  | refl (s : State σ) : Steps env 0 s s
  | cons {n : Nat} {a : Actor} {s s' s'' : State σ} (step : s.step? env a = some s')
      (rest : Steps env n s' s'') : Steps env (n + 1) s s''

theorem State.Steps.trans {n m : Nat} {s s' s'' : State σ} (h : Steps env n s s')
    (h' : Steps env m s' s'') : Steps env (n + m) s s'' := by
  induction h with
  | refl => rwa [Nat.zero_add]
  | cons step _ ih =>
    rw [Nat.add_right_comm]
    exact .cons step (ih h')

/-- What every step keeps is kept by many. -/
theorem State.Steps.induct {n : Nat} {P : State σ → Prop} (h : Steps env n s s')
    (hstep : ∀ a s s', s.step? env a = some s' → P s → P s') (hs : P s) : P s' := by
  induction h with
  | refl => exact hs
  | cons step _ ih => exact ih (hstep _ _ _ step hs)

/-- Whether nobody can make a step. -/
def State.Stuck (env : Environment σ) (s : State σ) : Prop := ∀ a, s.step? env a = none

/-- What a task waits for that cannot make a step. -/
inductive State.Waits (s : State σ) : Phase → Prop
  | ended (result : Except Fault (Option Tally)) : Waits s (.ended result)
  | permit (ticket : Nat) (job : Job) (unsettled : s.admission.pool.settled.lookup ticket = none) :
      Waits s (.queued ticket job)
  | level (k : Nat) (info : FileInfo) (goesOn : (s.level k).stage.isClosed = false) :
      Waits s (.descending k info)

theorem State.level_of_stage {k source : Nat} {stage : Stage} (h : s.stages[k]? = some (source, stage)) :
    ∃ l, s.levels[k]? = some l ∧ l.stage = stage := by
  unfold stages at h
  rw [List.getElem?_map] at h
  obtain ⟨l, hl, heq⟩ := Option.map_eq_some_iff.mp h
  exact ⟨l, hl, (Prod.mk.inj heq).2⟩

theorem State.result?_of_level {l : Level} {result : Except Fault Tally} (hl : s.levels[0]? = some l)
    (hclosed : l.stage = .closed result) : s.result? = some result := by
  unfold result? level
  rw [hl, Option.getD_some, hclosed]

/-- No source of a walk that begins is cancelled. -/
theorem State.quiet_start (env : Environment σ) (caller : Caller σ) (paths : List Path) :
    (State.start env caller paths).admission.network.Quiet := by
  have hempty : (Cancellation.Network.empty : Cancellation.Network Nat).Quiet := fun _ => rfl
  exact (hempty.addSource []).addSource _

/-- A walk that shares its pool with others, who have some stakes in it. -/
structure Shared (capacity : Int) (others : List Pool.Stake) (s : State σ) : Prop where
  sound : ∃ own, Scene.Sound capacity ⟨s, own, others⟩
  forked : Forked s.posts s.stages.length

namespace Shared

variable {others : List Pool.Stake}

theorem serves_all (h : Shared capacity others s) :
    Pool.Serves s.admission.pool (s.stakes ++ others) := by
  obtain ⟨own, hsound⟩ := h.sound
  exact hsound.serves

theorem nested (h : Shared capacity others s) : Nested s.posts s.stages s.admission.network := by
  obtain ⟨own, hsound⟩ := h.sound
  exact hsound.nested

theorem capacity_eq (h : Shared capacity others s) : s.admission.pool.capacity = capacity := by
  obtain ⟨own, hsound⟩ := h.sound
  exact hsound.capacity

theorem source_ne (h : Shared capacity others s) {i : Nat} {t : Task} (ht : s.tasks[i]? = some t) :
    (s.level t.level).source ≠ callerToken := by
  obtain ⟨own, hsound⟩ := h.sound
  exact hsound.source_ne ht

theorem placed (h : Shared capacity others s) {i : Nat} {t : Task} (ht : s.tasks[i]? = some t) :
    t.level < s.levels.length := by
  have hplaced := h.nested.placed _ (List.mem_of_getElem? (State.posts_of_task ht))
  rwa [State.stages, List.length_map] at hplaced

theorem serves_task (h : Shared capacity others s) {i : Nat} {t : Task} (ht : s.tasks[i]? = some t) :
    Pool.Serves s.admission.pool (t.phase.stakes ++ (s.stakesBut i ++ others)) := by
  have hperm := (s.perm_stakes (State.posts_of_task ht)).append_right others
  rw [List.append_assoc] at hperm
  exact h.serves_all.perm hperm

/-- Nobody else waits with the ticket of a task. -/
theorem claim_once (h : Shared capacity others s) {i : Nat} {p : Nat × Phase} {ticket : Nat} {job : Job}
    (hp : s.posts[i]? = some p) (hqueued : p.2 = .queued ticket job) {stake : Pool.Stake}
    (hstake : stake ∈ s.stakesBut i ++ others) {count : Int} : (ticket, count) ∉ stake.claims := by
  intro hclaim
  have hperm := (s.perm_stakes hp).append_right others
  rw [List.append_assoc] at hperm
  have hnodup := (h.serves_all.perm hperm).1.nodup
  rw [hqueued] at hnodup
  refine (List.nodup_cons.mp hnodup).1 ?_
  exact List.mem_map.mpr ⟨(ticket, count), List.mem_flatMap.mpr ⟨stake, hstake, hclaim⟩, rfl⟩

/-- No two tasks wait with the same ticket. -/
theorem queued_once (h : Shared capacity others s) {i j : Nat} {p q : Nat × Phase} {ticket : Nat}
    {job job' : Job} (hp : s.posts[i]? = some p) (hq : s.posts[j]? = some q)
    (hpqueued : p.2 = .queued ticket job) (hqqueued : q.2 = .queued ticket job') : i = j := by
  apply Classical.byContradiction
  intro hne
  have hmem : q ∈ s.posts.eraseIdx i := List.mem_eraseIdx_iff_getElem?.mpr ⟨j, Ne.symm hne, hq⟩
  have hstake : .claim ticket 1 ∈ s.stakesBut i ++ others := by
    refine List.mem_append_left _ (List.mem_flatMap.mpr ⟨q, hmem, ?_⟩)
    rw [hqqueued]
    exact List.mem_singleton.mpr rfl
  exact h.claim_once hp hpqueued hstake (List.mem_singleton.mpr rfl)

theorem step (h : Shared capacity others s) {a : Actor} (hstep : s.step? env a = some s') :
    Shared capacity others s' := by
  obtain ⟨own, hsound⟩ := h.sound
  have hmove : Scene.Move env ⟨s, own, others⟩ (Scene.after ⟨s, own, others⟩ s') := .act hstep
  exact ⟨⟨_, hsound.move hmove⟩, hsound.forked_move hmove h.forked⟩

/-- The level of a task that has not ended is open. -/
theorem level_open (h : Shared capacity others s) {i : Nat} {t : Task} (ht : s.tasks[i]? = some t)
    (hgoes : t.phase.isEnded = false) :
    ∃ l, s.levels[t.level]? = some l ∧ l.stage.isClosed = false := by
  have hl := List.getElem?_eq_getElem (h.placed ht)
  refine ⟨_, hl, ?_⟩
  apply Classical.byContradiction
  intro hclosed
  have hended := h.nested.isEnded_of_isClosed (State.stages_of_level hl) (by simpa using hclosed)
    (List.mem_of_getElem? (State.posts_of_task ht)) rfl
  rw [hgoes] at hended
  cases hended

/-- At every moment of a step its task has only changed what it has at stake itself. -/
theorem advances (h : Shared capacity others s) {i : Nat} {t : Task} (ht : s.tasks[i]? = some t)
    {u : Task} {c : Cursor} {s₁ : State σ} (hamid : s.Amid env i u c s₁) :
    s.Ready t ∧ Advances i t.level t.phase.stakes s (.goOn u c s₁) := by
  induction hamid with
  | enter task entry =>
    obtain rfl := Option.some.inj (ht.symm.trans task)
    exact State.advances_entry i entry
  | next _ move ih =>
    have hnext := ih.2.move env (h.source_ne ht)
    rw [move] at hnext
    exact ⟨ih.1, hnext⟩

theorem share (h : Shared capacity others s) {q : Pool} {others' : List Pool.Stake}
    (hsharing : Pool.Sharing s.admission.pool others q others') :
    Shared capacity others' { s with admission := { s.admission with pool := q } } := by
  obtain ⟨own, hsound⟩ := h.sound
  exact ⟨⟨own, hsound.deal (hsharing.dealing s.admission.network)⟩, h.forked⟩

theorem cancel (h : Shared capacity others s) (r : Reason) :
    Shared capacity others { s with admission := s.admission.cancel callerToken r } := by
  obtain ⟨own, hsound⟩ := h.sound
  exact ⟨⟨own, hsound.deal (.cancel callerToken r)⟩, h.forked⟩

theorem start (env : Environment σ) {caller : Caller σ} (paths : List Path)
    (hpool : Pool.Serves caller.pool others) :
    Shared caller.pool.capacity others (State.start env caller paths) :=
  ⟨⟨_, Scene.Sound.start env caller paths hpool⟩, Scene.forked_start env caller paths others⟩

end Shared

/-- A walk that has its pool for itself, and whose waiters are let in as they should. -/
structure Live (capacity : Int) (s : State σ) : Prop extends Shared capacity [] s where
  fed : s.admission.pool.Fed

theorem Live.serves (h : Live capacity s) : Pool.Serves s.admission.pool s.stakes := by
  have := h.serves_all
  rwa [List.append_nil] at this

section Fed

theorem Admission.fed_foldl_abandon (tickets : List Nat) : ∀ a : Admission, a.pool.Fed →
    (tickets.foldl (fun a ticket => a.abandon ticket) a).pool.Fed := by
  induction tickets with
  | nil => exact fun _ h => h
  | cons ticket tickets ih => exact fun a h => ih _ (h.abandon ticket)

theorem Admission.fed_cancel {a : Admission} (h : a.pool.Fed) (source : Nat) (r : Reason) :
    (a.cancel source r).pool.Fed := by
  unfold Admission.cancel
  dsimp only
  generalize (a.network.cancel source r).2 = told
  generalize a.pool = p at h ⊢
  induction told generalizing p with
  | nil => exact h
  | cons e told ih => exact ih _ (h.refuse e.1 _)

theorem Admission.fed_ask {a b : Admission} (h : a.pool.Fed) {priority : Priority}
    {token ticket : Option Nat} (hask : a.ask priority 1 token = .ok (b, ticket)) : b.pool.Fed := by
  have := h.request priority
  rwa [(Admission.ask_cases hask).2.2.1] at this

/-- Nobody waits in vain after a move if the permit that is given back was held. -/
theorem Deed.fed {i : Nat} {t : Task} {c : Cursor} {course : Course σ} (h : Deed env i t s c course)
    (hfed : s.admission.pool.Fed) (hfine : ∀ next, c = .giveBack next → (s.admission.release 1).2 = none) :
    course.Meets (fun _ _ s' => s'.admission.pool.Fed) fun s' => s'.admission.pool.Fed := by
  cases h with
  | @onward _ _ _ s' _ _ _ deals =>
    change s'.admission.pool.Fed
    generalize s'.admission = b at deals ⊢
    cases deals with
    | nothing => exact hfed
    | grant asked => exact Admission.fed_ask hfed asked
    | release next => exact Pool.Fed.release (p := s.admission.pool) hfed.single (hfine next rfl)
    | cancel _ => exact Admission.fed_cancel hfed callerToken _
  | conclude result =>
    change (s.conclude i t result).admission.pool.Fed
    rw [State.admission_conclude]
    exact hfed
  | queue asked => exact Admission.fed_ask hfed asked
  | @rest _ s' _ _ _ _ admission =>
    change s'.admission.pool.Fed
    rw [admission]
    exact hfed
  | descend => exact hfed

end Fed

namespace Live

theorem fed_enter (h : Live capacity s) {i : Nat} {t : Task} {c : Cursor}
    (ht : s.tasks[i]? = some t) (henters : s.Enters env t c s') : s'.admission.pool.Fed := by
  have hcollect : ∀ {ticket : Nat} {job : Job} {b : Admission} {failure : Option Fault},
      t.phase = .queued ticket job → s.admission.collect? ticket 1 (some (s.level t.level).source)
        t.interrupted = some (b, failure) → b.pool.Fed := by
    intro ticket job b failure hphase hcollect
    have hserves := h.serves_task ht
    rw [hphase] at hserves
    exact h.fed.collect hserves.1 (Admission.collect?_cases hcollect).1
  cases henters with
  | refused phase collected => exact hcollect phase collected
  | called phase collected _ => exact hcollect phase collected
  | admitted phase collected _ => exact hcollect phase collected
  | _ => exact h.fed

theorem fed_task (h : Live capacity s) {i : Nat} {t : Task} (ht : s.tasks[i]? = some t)
    (hstep : s.stepTask? env i t = some s') : s'.admission.pool.Fed := by
  refine (State.along_step (P := fun _ _ s₁ => s₁.admission.pool.Fed)
    (Q := fun s' => s'.admission.pool.Fed) ht (fun c s₁ => h.fed_enter ht) ?_).2 s' hstep
  intro u d s₂ hamid hfed
  have hfine : ∀ next, d = .giveBack next → (s₂.admission.release 1).2 = none := by
    rintro next rfl
    cases (h.advances ht hamid).2 with
    | onward _ _ _ _ trade => exact (trade.serves _ (h.serves_task ht)).release.1
  exact (d.deed_move env i u s₂).fed hfed hfine

theorem fed_level (h : Live capacity s) {k : Nat} {l : Level} (hstep : s.stepLevel? k l = some s') :
    s'.admission.pool.Fed := by
  unfold State.stepLevel? at hstep
  cases hstage : l.stage with
  | closed result => simp [hstage] at hstep
  | draining f =>
    simp only [hstage] at hstep
    split at hstep
    · rw [← Option.some.inj hstep]
      exact h.fed
    · cases hstep
  | running =>
    simp only [hstage] at hstep
    split at hstep
    · rw [← Option.some.inj hstep]
      exact Admission.fed_foldl_abandon _ _ (Admission.fed_cancel h.fed _ _)
    · split at hstep
      · split at hstep <;> (rw [← Option.some.inj hstep]; exact h.fed)
      · cases hstep

theorem step (h : Live capacity s) {a : Actor} (hstep : s.step? env a = some s') : Live capacity s' := by
  refine ⟨h.toShared.step hstep, ?_⟩
  cases a with
  | task i =>
    obtain ⟨t, ht, hstep⟩ := Option.bind_eq_some_iff.mp hstep
    exact h.fed_task ht hstep
  | level k =>
    obtain ⟨l, _, hstep⟩ := Option.bind_eq_some_iff.mp hstep
    exact h.fed_level hstep

theorem steps (h : Live capacity s) {n : Nat} (hsteps : State.Steps env n s s') : Live capacity s' :=
  hsteps.induct (fun _ _ _ hstep h => h.step hstep) h

/-- Nobody else has anything at stake in the pool of the caller. -/
theorem start (env : Environment σ) {caller : Caller σ} (paths : List Path)
    (hpool : Pool.Serves caller.pool []) :
    Live caller.pool.capacity (State.start env caller paths) := by
  refine ⟨.start env paths hpool, ?_⟩
  have hnone : caller.pool.waiting = [] := by
    have htickets := List.perm_nil.mp hpool.1.tickets
    exact List.map_eq_nil_iff.mp (List.append_eq_nil_iff.mp htickets).1
  have hfed : caller.pool.Fed := ⟨by rw [hnone]; nofun, fun hne => absurd hnone hne⟩
  exact hfed

end Live

namespace State.Stuck

theorem waits (h : s.Stuck env) {t : Task} (ht : t ∈ s.tasks) : s.Waits t.phase := by
  obtain ⟨i, hi⟩ := List.getElem?_of_mem ht
  have hstep : s.tasks[i]?.bind (s.stepTask? env i) = none := h (.task i)
  rw [hi, Option.bind_some, stepTask?_eq, Option.map_eq_none_iff] at hstep
  unfold entry? at hstep
  cases hphase : t.phase with
  | queued ticket job =>
    simp only [hphase, Option.map_eq_none_iff, Admission.collect?_eq_none] at hstep
    unfold Pool.collect? at hstep
    exact .permit ticket job (Option.map_eq_none_iff.mp hstep)
  | descending k info =>
    cases hstage : (s.level k).stage with
    | closed result => simp [hphase, hstage] at hstep
    | _ => exact .level k info (by rw [hstage]; rfl)
  | ended result => exact .ended result
  | _ => simp [hphase] at hstep

theorem unsettled (h : s.Stuck env) {c : Nat × Int} (hc : c ∈ s.stakes.flatMap (·.claims)) :
    s.admission.pool.settled.lookup c.1 = none := by
  obtain ⟨stake, hstake, hc⟩ := List.mem_flatMap.mp hc
  obtain ⟨p, hp, hstake⟩ := List.mem_flatMap.mp hstake
  obtain ⟨u, hu, rfl⟩ := List.mem_map.mp hp
  have hwaits := h.waits hu
  dsimp only at hstake
  generalize u.phase = phase at hwaits hstake
  cases hwaits with
  | ended result => cases hstake
  | permit ticket job unsettled =>
    obtain rfl := List.mem_singleton.mp hstake
    obtain rfl := List.mem_singleton.mp hc
    exact unsettled
  | level k info goesOn => cases hstake

theorem sum_hands_eq_zero (h : s.Stuck env) : (s.stakes.map (·.hands)).sum = 0 := by
  unfold State.stakes
  rw [sum_hands, Int.natCast_eq_zero, List.countP_eq_zero]
  intro p hp
  obtain ⟨u, hu, rfl⟩ := List.mem_map.mp hp
  have hwaits := h.waits hu
  dsimp only
  generalize u.phase = phase at hwaits
  cases hwaits <;> exact Bool.false_ne_true

/-- Everything in the pool belongs to a task that could collect it. -/
theorem settled_eq_nil (h : s.Stuck env) (hlive : Live capacity s) : s.admission.pool.settled = [] := by
  apply List.eq_nil_iff_forall_not_mem.mpr
  intro e he
  have hticket : e.1 ∈ s.admission.pool.tickets :=
    List.mem_append_right _ (List.mem_map_of_mem he)
  obtain ⟨c, hc, heq⟩ := List.mem_map.mp (hlive.serves.1.tickets.mem_iff.mp hticket)
  have := List.lookup_eq_none_iff.mp (h.unsettled hc) e he
  simp [heq] at this

/-- If somebody waited for a permit, somebody would get one. -/
theorem not_queued (h : s.Stuck env) (hlive : Live capacity s) (hsize : 1 ≤ capacity) {t : Task}
    (ht : t ∈ s.tasks) (ticket : Nat) (job : Job) : t.phase ≠ .queued ticket job := by
  intro hphase
  have hclaim : (ticket, 1) ∈ s.stakes.flatMap (·.claims) := by
    apply List.mem_flatMap.mpr
    refine ⟨.claim ticket 1, ?_, List.mem_singleton.mpr rfl⟩
    apply List.mem_flatMap.mpr
    refine ⟨(t.level, t.phase), List.mem_map_of_mem ht, ?_⟩
    rw [hphase]
    exact List.mem_singleton.mpr rfl
  have hticket := hlive.serves.1.tickets.mem_iff.mpr (List.mem_map_of_mem (f := (·.1)) hclaim)
  have hsettled := h.settled_eq_nil hlive
  have hwaiting := hlive.fed.waiting_eq_nil hlive.serves (by rw [hlive.capacity_eq]; exact hsize)
    h.sum_hands_eq_zero hsettled
  unfold Pool.tickets at hticket
  rw [hwaiting, hsettled] at hticket
  cases hticket

/-- The lowest level that is open would make a step. -/
theorem isClosed (h : s.Stuck env) (hlive : Live capacity s) (hsize : 1 ≤ capacity) (k : Nat) :
    ∀ l, s.levels[k]? = some l → l.stage.isClosed = true := by
  -- From the lowest level up: a task that is stuck waits for a level below its own, which has closed.
  induction hrest : s.levels.length - k using Nat.strongRecOn generalizing k with
  | ind rest ih =>
    intro l hl
    have hended : s.allEnded k = true := by
      apply List.all_eq_true.mpr
      intro t ht
      obtain ⟨i, hi⟩ := List.getElem?_of_mem ht
      have hfree := h.not_queued hlive hsize ht
      have hbelow := fun k => hlive.forked.below i _ k (State.posts_of_task hi)
      have hwaits := h.waits ht
      by_cases hlevel : t.level = k
      · generalize t.phase = phase at hwaits hfree hbelow
        cases hwaits with
        | ended result => simp [Phase.isEnded]
        | permit ticket job _ => exact absurd rfl (hfree ticket job)
        | level j info goesOn =>
          obtain ⟨hlt, hknown⟩ := hbelow j ⟨info, rfl⟩
          have hj : j < s.levels.length := by simpa [State.stages] using hknown
          have hclosed := ih (s.levels.length - j) (by dsimp only at hlt; omega) j rfl _
            (List.getElem?_eq_getElem hj)
          unfold State.level at goesOn
          rw [List.getElem?_eq_getElem hj, Option.getD_some, hclosed] at goesOn
          cases goesOn
      · simp [hlevel]
    have hstep : s.levels[k]?.bind (s.stepLevel? k) = none := h (.level k)
    rw [hl, Option.bind_some] at hstep
    unfold State.stepLevel? at hstep
    cases hstage : l.stage with
    | closed result => rfl
    | draining f => simp [hstage, hended] at hstep
    | running =>
      simp only [hstage, hended, if_true] at hstep
      repeat' split at hstep
      all_goals cases hstep

end State.Stuck

/-- A walk in which nobody can make a step has come back. -/
theorem Live.result_of_stuck (h : Live capacity s) (hsize : 1 ≤ capacity) (hstuck : s.Stuck env) :
    s.result?.isSome = true := by
  obtain ⟨top, hstage, _⟩ := Option.map_eq_some_iff.mp h.nested.topmost
  obtain ⟨l, hl, _⟩ := State.level_of_stage hstage
  have hclosed := hstuck.isClosed h hsize 0 l hl
  cases hstage : l.stage with
  | closed result =>
    rw [State.result?_of_level hl hstage]
    rfl
  | _ => simp [hstage, Stage.isClosed] at hclosed

namespace State

/-- Turns of some actors one after the other are steps; if there are none, none of them can make one. -/
theorem steps_foldl (env : Environment σ) (actors : List Actor) :
    ∀ s : State σ, ∃ n, Steps env n s (actors.foldl (stepOr env) s) ∧
      (n = 0 → actors.foldl (stepOr env) s = s ∧ ∀ a ∈ actors, s.step? env a = none) := by
  induction actors with
  | nil => exact fun s => ⟨0, .refl s, fun _ => ⟨rfl, nofun⟩⟩
  | cons a actors ih =>
    intro s
    rw [List.foldl_cons]
    cases hstep : s.step? env a with
    | none =>
      have hsame : s.stepOr env a = s := by
        unfold stepOr
        rw [hstep]
        rfl
      rw [hsame]
      obtain ⟨n, hsteps, hnone⟩ := ih s
      refine ⟨n, hsteps, fun hn => ⟨(hnone hn).1, ?_⟩⟩
      intro b hb
      rcases List.mem_cons.mp hb with rfl | hb
      · exact hstep
      · exact (hnone hn).2 b hb
    | some s' =>
      have hnext : s.stepOr env a = s' := by
        unfold stepOr
        rw [hstep]
        rfl
      rw [hnext]
      obtain ⟨n, hsteps, _⟩ := ih s'
      exact ⟨n + 1, .cons hstep hsteps, nofun⟩

theorem steps_sweep (env : Environment σ) (s : State σ) :
    ∃ n, Steps env n s (s.sweep env) ∧ (n = 0 → s.Stuck env) := by
  obtain ⟨n, htasks, hnone⟩ := steps_foldl env ((List.range s.tasks.length).map .task) s
  generalize hmiddle : ((List.range s.tasks.length).map Actor.task).foldl (stepOr env) s = s' at htasks hnone
  obtain ⟨m, hlevels, hnone'⟩ := steps_foldl env ((List.range s'.levels.length).reverse.map .level) s'
  have hsweep : s.sweep env =
      ((List.range s'.levels.length).reverse.map Actor.level).foldl (stepOr env) s' := by
    unfold sweep
    rw [List.foldl_map] at hmiddle ⊢
    rw [hmiddle]
  rw [hsweep]
  refine ⟨n + m, htasks.trans hlevels, ?_⟩
  intro hzero a
  obtain ⟨hsame, hstill⟩ := hnone (by omega)
  obtain ⟨_, hstill'⟩ := hnone' (by omega)
  rw [hsame] at hstill'
  cases a with
  | task i =>
    by_cases hi : i < s.tasks.length
    · exact hstill _ (List.mem_map_of_mem (List.mem_range.mpr hi))
    · unfold step?
      dsimp only
      rw [List.getElem?_eq_none (by omega)]
      rfl
  | level k =>
    by_cases hk : k < s.levels.length
    · exact hstill' _ (List.mem_map_of_mem (List.mem_reverse.mpr (List.mem_range.mpr hk)))
    · unfold step?
      dsimp only
      rw [List.getElem?_eq_none (by omega)]
      rfl

theorem steps_run (env : Environment σ) (sweeps : Nat) : ∀ s : State σ, ∃ n, Steps env n s (s.run env sweeps) := by
  induction sweeps with
  | zero => exact fun s => ⟨0, .refl s⟩
  | succ sweeps ih =>
    intro s
    unfold State.run
    split
    · exact ⟨0, .refl s⟩
    · obtain ⟨n, hsteps, _⟩ := steps_sweep env s
      obtain ⟨m, hrest⟩ := ih (s.sweep env)
      exact ⟨n + m, hsteps.trans hrest⟩

end State

/-- As many sweeps as there can be steps are enough. -/
theorem Live.run (hsize : 1 ≤ capacity) (sweeps : Nat) : ∀ {s : State σ}, Live capacity s →
    (∀ n s', State.Steps env n s s' → n ≤ sweeps) →
      (s.run env sweeps).result?.isSome = true ∧ ∃ n, State.Steps env n s (s.run env sweeps) := by
  intro s h hbound
  refine ⟨?_, State.steps_run env sweeps s⟩
  induction sweeps generalizing s with
  | zero =>
    have hstuck : s.Stuck env := by
      intro a
      cases hstep : s.step? env a with
      | none => rfl
      | some s' => exact absurd (hbound 1 s' (.cons hstep (.refl s'))) (by omega)
    exact h.result_of_stuck hsize hstuck
  | succ sweeps ih =>
    unfold State.run
    split
    · next hresult => exact hresult
    · next hopen =>
      obtain ⟨n, hsteps, hstuck⟩ := State.steps_sweep env s
      have hpos : n ≠ 0 := fun hzero => hopen (h.result_of_stuck hsize (hstuck hzero))
      refine ih (h.steps hsteps) fun m s' hm => ?_
      have := hbound _ _ (hsteps.trans hm)
      omega

end TreeCensus.Walk
