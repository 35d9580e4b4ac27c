import Mathlib
import TreeCensus.Walk.Run

/-!
# The course of a step

In one step a task does many things in a row. A cursor says what it does next, and `Cursor.move` does
just that: it has one effect on the state, after which the task goes on from another cursor or waits.
The steps of tasks are made of such moves, so what every move keeps is kept by every step.
-/

namespace TreeCensus.Walk

set_option autoImplicit false

variable {σ : Type}

/-- What a task does next in its step. It has a permit from `begin` on, until it gives it back. -/
inductive Cursor
  | conclude (result : Except Fault (Option Tally))
  | log (tally : Tally)
  | accept (tally : Tally)
  | seek (job : Job)
  | follow (o : Outcome)
  | enter (info : FileInfo)
  | onInfo (info : FileInfo)
  | onTarget (info : FileInfo) (target : Text)
  | onEntries (info : FileInfo) (names : List Text)
  | giveBack (next : Cursor)
  | onAnswer (job : Job) (f : Fault) (answer : Except Fault Bool)
  | consult (job : Job) (f : Fault)
  | offer (job : Job) (f : Fault)
  | onReply (info : FileInfo) (tally : Tally) (answer : Except Fault Bool)
  | stop (info : FileInfo) (tally : Tally) (reply : PathReply)
  | report (info : FileInfo) (tally : Tally)
  | begin (job : Job)
  | answer (job : Job)

/-- Where a task goes on when the fault of a job has been taken. -/
def Job.forgone (t : Task) : Job → Cursor
  | .info => .follow (unwind t.visit.verdict none t.visit.outer)
  | .target found | .entries found =>
    .follow (settle t.visit.verdict t.visit.outer found found.tally)
  | .report _ tally => .conclude (.ok (some tally))

namespace Cursor

/-- Whether the task has a permit. -/
def hasPermit : Cursor → Bool
  | conclude _ | log _ | accept _ | seek _ | follow _ | enter _ | onInfo _ | onTarget _ _
  | onEntries _ _ => false
  | _ => true

/-- All that is done from a cursor on. -/
def run (env : Environment σ) (i : Nat) (t : Task) : Cursor → State σ → State σ
  | conclude result, s => s.conclude i t result
  | log tally, s =>
    match env.options.log with
    | none => s.conclude i t (.ok (some tally))
    | some logging =>
      if logging.rule.allows (s.level t.level).depth tally.size then
        let s := s.note (.logged (logLine t.visit.name tally))
        if logging.yields then s.setPhase i (.logging tally)
        else s.conclude i t (env.logged t.visit.name tally)
      else s.conclude i t (.ok (some tally))
  | accept tally, s => s.accept env i t tally
  | seek job, s => s.seek env i t job
  | follow o, s => s.follow env i t o
  | enter info, s =>
    match info.kind with
    | .link =>
      if env.options.walkLinks then s.seek env i t (.target info)
      else s.settle env i t info info.tally
    | .directory => s.seek env i t (.entries info)
    | .file | .other => s.settle env i t info info.tally
  | onInfo info, s => s.onInfo env i t info
  | onTarget info target, s => s.onTarget env i t info target
  | onEntries info names, s => s.onEntries env i t info names
  | giveBack next, s => s.giveBack i t (next.run env i t)
  | onAnswer job f response, s => s.onAnswer i t f (fun s => s.forgo env i t job) response
  | consult job f, s => s.consult env i t f fun s => s.forgo env i t job
  | offer job f, s => s.offer env i t job f fun s => s.forgo env i t job
  | onReply info tally response, s => s.onReply env i t info tally response
  | stop info tally reply, s =>
    let s := match reply.stop with
      | some r => { s with admission := s.admission.cancel callerToken r }
      | none => s
    let response :=
      if reply.check then
        match s.admission.called? (some (s.level t.level).source) with
        | some f => .error f
        | none => reply.answer
      else reply.answer
    s.onReply env i t info tally response
  | report info tally, s => s.report env i t info tally
  | begin job, s => s.begin env i t job
  | answer job, s => s.answer env i t job

end Cursor

/-- What comes of a move: the task goes on in the same step, or the step is over. -/
inductive Course (σ : Type)
  | goOn (t : Task) (c : Cursor) (s : State σ)
  | done (s : State σ)

/-- A bound on the moves that are yet to come. -/
def Job.rank : Job → Nat
  | .report _ _ => 0
  | _ => 10

namespace Cursor

def rank : Cursor → Nat
  | conclude _ => 0
  | log _ => 1
  | accept _ => 2
  | giveBack next => next.rank + 1
  | onAnswer job _ _ => job.rank + 4
  | consult job _ => job.rank + 5
  | offer job _ => job.rank + 6
  | onReply _ _ _ => 7
  | stop _ _ _ => 8
  | report _ _ => 9
  | begin _ => 10
  | seek _ => 11
  | follow _ => 12
  | enter _ => 13
  | onInfo _ => 14
  | onTarget _ _ => 14
  | onEntries _ _ => 14
  | answer _ => 17

/-- Does what comes next. -/
def move (env : Environment σ) (i : Nat) (t : Task) : Cursor → State σ → Course σ
  | conclude result, s => .done (s.conclude i t result)
  | log tally, s =>
    match env.options.log with
    | none => .goOn t (conclude (.ok (some tally))) s
    | some logging =>
      if logging.rule.allows (s.level t.level).depth tally.size then
        let s := s.note (.logged (logLine t.visit.name tally))
        if logging.yields then .done (s.setPhase i (.logging tally))
        else .goOn t (conclude (env.logged t.visit.name tally)) s
      else .goOn t (conclude (.ok (some tally))) s
  | accept tally, s =>
    .goOn t (log tally) (s.updateLevel t.level fun l => { l with total := l.total.add tally })
  | seek job, s =>
    let level := s.level t.level
    match s.admission.ask (job.priority level.priority t.visit.index) 1 (some level.source) with
    | .error f => .goOn t (conclude (.error f)) s
    | .ok (admission, none) => .goOn t (begin job) { s with admission }
    | .ok (admission, some ticket) => .done ({ s with admission }.setPhase i (.queued ticket job))
  | follow (.over result), s => .goOn t (conclude (.ok result)) s
  | follow (.counted info tally), s =>
    match env.options.onPath with
    | none => .goOn t (accept tally) s
    | some _ => .goOn t (seek (.report info tally)) s
  | enter info, s =>
    match info.kind with
    | .link =>
      if env.options.walkLinks then .goOn t (seek (.target info)) s
      else .goOn t (follow (settle t.visit.verdict t.visit.outer info info.tally)) s
    | .directory => .goOn t (seek (.entries info)) s
    | .file | .other => .goOn t (follow (settle t.visit.verdict t.visit.outer info info.tally)) s
  | onInfo info, s =>
    let id := info.identity t.visit.place
    if info.kind = .file ∧ t.visit.verdict ≠ .included then
      .goOn t (follow (unwind t.visit.verdict none t.visit.outer)) s
    else if id ∈ s.visited then .goOn t (follow (unwind t.visit.verdict none t.visit.outer)) s
    else .goOn t (enter info) { s with visited := id :: s.visited }
  | onTarget info target, s =>
    if target = [] then
      .goOn t (follow (settle t.visit.verdict t.visit.outer info info.tally)) s
    else
      let place := Path.resolve env.files.cwd (Path.under (Path.directory t.visit.place) target)
      let visit := { t.visit with place, outer := info :: t.visit.outer }
      .goOn { t with visit } (seek .info) (s.updateTask i fun t => { t with visit })
  | onEntries info names, s =>
    if names = [] then
      .goOn t (follow (settle t.visit.verdict t.visit.outer info info.tally)) s
    else
      let level := s.level t.level
      let k := s.levels.length
      let priority := (Job.report info .zero).priority level.priority t.visit.index
      .done ((s.openLevel env [level.source] (level.depth + 1) priority
        (names.map (Path.under t.visit.name))).setPhase i (.descending k info))
  | giveBack next, s =>
    match s.admission.release 1 with
    | (admission, none) => .goOn t next { s with admission }
    | (admission, some f) => .goOn t (conclude (.error f)) { s with admission }
  | onAnswer _ _ (.error g), s => .goOn t (giveBack (conclude (.error g))) s
  | onAnswer job f (.ok taken), s =>
    if taken || f.isMissing then .goOn t (giveBack (job.forgone t)) s
    else .goOn t (giveBack (conclude (.error f))) s
  | consult job f, s =>
    match env.options.onFault with
    | none => .goOn t (onAnswer job f (.ok false)) s
    | some handler =>
      let (memory, response) := handler.act s.memory f
      .goOn t (onAnswer job f response) { s with memory }
  | offer job f, s =>
    if f = .interrupted then .goOn t (giveBack (conclude (.error f))) s
    else
      match env.options.onFault with
      | none => .goOn t (consult job f) s
      | some handler =>
        let s := s.note (.offered f)
        if handler.yields then .done (s.setPhase i (.consulting job f))
        else .goOn t (consult job f) s
  | onReply _ tally (.ok true), s => .goOn t (giveBack (accept tally)) s
  | onReply _ tally (.ok false), s => .goOn t (giveBack (conclude (.ok (some tally)))) s
  | onReply info tally (.error f), s =>
    if f.isCancellation then .goOn t (giveBack (conclude (.error f))) s
    else .goOn t (offer (.report info tally) f) s
  | stop info tally reply, s =>
    let s := match reply.stop with
      | some r => { s with admission := s.admission.cancel callerToken r }
      | none => s
    let response :=
      if reply.check then
        match s.admission.called? (some (s.level t.level).source) with
        | some f => .error f
        | none => reply.answer
      else reply.answer
    .goOn t (onReply info tally response) s
  | report info tally, s =>
    match env.options.onPath with
    | none => .goOn t (onReply info tally (.ok true)) s
    | some handler =>
      let (memory, reply) := handler.act s.memory (s.pathCall t info tally)
      .goOn t (stop info tally reply) { s with memory }
  | begin .info, s => .done ((s.note (.stated t.visit.place)).setPhase i (.calling .info))
  | begin (.target info), s =>
    .done ((s.note (.linkRead t.visit.place)).setPhase i (.calling (.target info)))
  | begin (.entries info), s =>
    .done ((s.note (.listed t.visit.place)).setPhase i (.calling (.entries info)))
  | begin (.report info tally), s =>
    match env.options.onPath with
    | none => .goOn t (report info tally) s
    | some handler =>
      let s := s.note (.reported (s.pathCall t info tally))
      if handler.yields then .done (s.setPhase i (.calling (.report info tally)))
      else .goOn t (report info tally) s
  | answer .info, s =>
    match env.files.info t.visit.place with
    | .ok info => .goOn t (giveBack (onInfo info)) s
    | .error f => .goOn t (offer .info f) s
  | answer (.target info), s =>
    match env.files.target t.visit.place with
    | .ok target => .goOn t (giveBack (onTarget info target)) s
    | .error f => .goOn t (offer (.target info) f) s
  | answer (.entries info), s =>
    match env.files.entries t.visit.place with
    | .ok names => .goOn t (giveBack (onEntries info names)) s
    | .error f => .goOn t (offer (.entries info) f) s
  | answer (.report info tally), s => .goOn t (report info tally) s

end Cursor

/-- The end of a course, all moves made. -/
def Course.last (env : Environment σ) (i : Nat) : Course σ → State σ
  | goOn t c s => c.run env i t s
  | done s => s

theorem Job.run_forgone (env : Environment σ) (i : Nat) (t : Task) (job : Job) (s : State σ) :
    (job.forgone t).run env i t s = s.forgo env i t job := by
  cases job <;> rfl

/-- A move does the first of all that is done from a cursor on. -/
theorem Cursor.last_move (env : Environment σ) (i : Nat) (t : Task) (c : Cursor) (s : State σ) :
    (c.move env i t s).last env i = c.run env i t s := by
  cases c with
  | conclude => rfl
  | log tally =>
    cases h : env.options.log with
    | none => simp only [move, run, h, Course.last]
    | some logging =>
      by_cases ha : logging.rule.allows (s.level t.level).depth tally.size <;>
        by_cases hy : logging.yields <;>
        simp only [move, run, h, ha, hy, Course.last, if_true, Bool.false_eq_true, if_false]
  | accept tally => rfl
  | seek job =>
    rcases h : s.admission.ask (job.priority (s.level t.level).priority t.visit.index) 1
      (some (s.level t.level).source) with f | ⟨admission, _ | ticket⟩ <;>
      simp only [move, run, State.seek, h, Course.last]
  | follow o =>
    cases o with
    | «over» result => rfl
    | counted info tally =>
      cases h : env.options.onPath <;> simp only [move, run, State.follow, h, Course.last]
  | enter info =>
    cases h : info.kind with
    | link =>
      cases hw : env.options.walkLinks <;>
        simp only [move, run, h, hw, Course.last, State.settle, if_true, Bool.false_eq_true, if_false]
    | _ => simp only [move, run, h, Course.last, State.settle]
  | onInfo info =>
    simp only [move, State.onInfo, run]
    by_cases hkind : info.kind = .file ∧ t.visit.verdict ≠ .included
    · rw [if_pos hkind, if_pos hkind]
      rfl
    · rw [if_neg hkind, if_neg hkind]
      by_cases hid : info.identity t.visit.place ∈ s.visited
      · rw [if_pos hid, if_pos hid]
        rfl
      · rw [if_neg hid, if_neg hid]
        rfl
  | onTarget info target =>
    by_cases h : target = [] <;>
      simp only [move, run, State.onTarget, h, if_true, if_false, Course.last]
    rfl
  | onEntries info names =>
    by_cases h : names = [] <;>
      simp only [move, run, State.onEntries, h, if_true, if_false, Course.last]
    rfl
  | giveBack next =>
    rcases h : s.admission.release 1 with ⟨admission, _ | f⟩ <;>
      simp only [move, run, State.giveBack, h, Course.last]
  | onAnswer job f response =>
    cases response with
    | error g => rfl
    | ok taken =>
      cases h : (taken || f.isMissing) <;>
        simp only [move, run, State.onAnswer, h, Course.last, if_true, Bool.false_eq_true, if_false]
      exact congrArg (s.giveBack i t) (funext (Job.run_forgone env i t job))
  | consult job f =>
    cases h : env.options.onFault <;> simp only [move, run, State.consult, h, Course.last]
  | offer job f =>
    by_cases hf : f = .interrupted
    · simp only [move, run, State.offer, hf, if_true, Course.last]
    · cases h : env.options.onFault with
      | none => simp only [move, run, State.offer, hf, if_false, h, Course.last]
      | some handler =>
        cases hy : handler.yields <;>
          simp only [move, run, State.offer, hf, if_false, h, hy, Course.last, if_true,
            Bool.false_eq_true]
  | onReply info tally response =>
    rcases response with f | _ | _
    · cases h : f.isCancellation <;>
        simp only [move, run, State.onReply, h, Course.last, if_true, Bool.false_eq_true, if_false]
      rfl
    · rfl
    · rfl
  | stop info tally reply => rfl
  | report info tally =>
    cases h : env.options.onPath with
    | none => simp only [move, run, State.report, h, Course.last]
    | some handler =>
      simp only [move, run, State.report, h]
      rfl
  | begin job =>
    cases job with
    | report info tally =>
      cases h : env.options.onPath with
      | none => simp only [move, run, State.begin, h, Course.last]
      | some handler =>
        cases hy : handler.yields <;>
          simp only [move, run, State.begin, h, hy, Course.last, if_true, Bool.false_eq_true,
            if_false]
    | _ => rfl
  | answer job =>
    cases job with
    | info =>
      cases h : env.files.info t.visit.place <;>
        simp only [move, run, State.answer, h, Course.last]
    | target info =>
      cases h : env.files.target t.visit.place <;>
        simp only [move, run, State.answer, h, Course.last]
    | entries info =>
      cases h : env.files.entries t.visit.place <;>
        simp only [move, run, State.answer, h, Course.last]
    | report info tally => rfl

theorem Job.rank_forgone (t : Task) (job : Job) : (job.forgone t).rank ≤ job.rank + 2 := by
  cases job <;> simp [forgone, rank, Cursor.rank]

/-- A step is over after boundedly many moves. -/
theorem Cursor.rank_move {env : Environment σ} {i : Nat} {t u : Task} {c d : Cursor}
    {s s' : State σ} (h : c.move env i t s = .goOn u d s') : d.rank < c.rank := by
  have hforgone := Job.rank_forgone t
  unfold move at h
  split at h <;> (try dsimp only at h) <;> (repeat' split at h) <;> cases h
  all_goals simp only [rank]
  all_goals first
    | omega
    | exact Nat.lt_of_le_of_lt (Nat.add_le_add_right (hforgone _) 1) (by omega)
    | simp only [Job.rank]; omega

/-- What a move leads to: `P` where the task goes on, `Q` where the step is over. -/
def Course.Meets (P : Task → Cursor → State σ → Prop) (Q : State σ → Prop) : Course σ → Prop
  | goOn t c s => P t c s
  | done s => Q s

/-- Where a step of a task begins; none if the task has ended or waits for something that has not come
about. -/
def State.entry? (env : Environment σ) (s : State σ) (t : Task) : Option (Cursor × State σ) :=
  match t.phase with
  | .ended _ => none
  | .fresh => some (if t.interrupted then .conclude (.error .interrupted) else .seek .info, s)
  | .queued ticket job =>
    let token := some (s.level t.level).source
    (s.admission.collect? ticket 1 token t.interrupted).map fun (admission, failure) =>
      let s := { s with admission }
      (match failure with
        | some f => .conclude (.error f)
        | none =>
          match s.admission.called? token with
          | some f => .giveBack (.conclude (.error f))
          | none => .begin job, s)
  | .calling job =>
    some (if t.interrupted then .giveBack (.conclude (.error .interrupted)) else .answer job, s)
  | .consulting job f =>
    some (if t.interrupted then .giveBack (.conclude (.error .interrupted)) else .consult job f, s)
  | .logging tally =>
    some (.conclude (if t.interrupted then .error .interrupted
      else env.logged t.visit.name tally), s)
  | .descending k info =>
    match (s.level k).stage with
    | .closed result =>
      some (if t.interrupted then .conclude (.error .interrupted)
        else
          match result with
          | .error f => .conclude (.error f)
          | .ok total => .follow (Walk.settle t.visit.verdict t.visit.outer info total), s)
    | _ => none

theorem State.stepTask?_eq (env : Environment σ) (s : State σ) (i : Nat) (t : Task) :
    s.stepTask? env i t = Option.map (fun e => e.1.run env i t e.2) ( s.entry? env t) := by
  cases hphase : t.phase with
  | fresh =>
    cases h : t.interrupted <;>
      simp only [stepTask?, entry?, hphase, h, if_true, Bool.false_eq_true, if_false,
        Option.map_some, Cursor.run]
  | queued ticket job =>
    simp only [stepTask?, entry?, hphase, Option.map_map]
    congr 1
    funext e
    obtain ⟨admission, failure⟩ := e
    cases failure with
    | some f => rfl
    | none =>
      dsimp only [Function.comp_apply]
      cases h : admission.called? (some (s.level t.level).source) <;> rfl
  | calling job =>
    cases h : t.interrupted <;>
      simp only [stepTask?, entry?, hphase, h, if_true, Bool.false_eq_true, if_false,
        Option.map_some, Cursor.run]
  | consulting job f =>
    cases h : t.interrupted <;>
      simp only [stepTask?, entry?, hphase, h, if_true, Bool.false_eq_true, if_false,
        Option.map_some, Cursor.run]
  | logging tally =>
    cases h : t.interrupted <;>
      simp only [stepTask?, entry?, hphase, h, if_true, Bool.false_eq_true, if_false,
        Option.map_some, Cursor.run]
  | descending k info =>
    rcases hstage : (s.level k).stage with _ | _ | (f | total) <;> cases h : t.interrupted <;>
      simp only [stepTask?, entry?, hphase, hstage, h, if_true, Bool.false_eq_true, if_false,
        Option.map_some, Option.map_none, Cursor.run, State.settle]
  | ended result => simp only [stepTask?, entry?, hphase, Option.map_none]

/-- A step of a task begins at a cursor and runs from there. -/
theorem State.exists_entry {env : Environment σ} {s s' : State σ} {i : Nat} {t : Task}
    (h : s.stepTask? env i t = some s') :
    ∃ c s₁, s.entry? env t = some (c, s₁) ∧ c.run env i t s₁ = s' := by
  rw [stepTask?_eq] at h
  obtain ⟨⟨c, s₁⟩, hentry, hrun⟩ := Option.map_eq_some_iff.mp h
  exact ⟨c, s₁, hentry, hrun⟩

/-- What every move keeps holds when all moves are made. -/
theorem Cursor.run_of_moves {env : Environment σ} {i : Nat} {P : Task → Cursor → State σ → Prop}
    {Q : State σ → Prop} (hmove : ∀ t c s, P t c s → (c.move env i t s).Meets P Q) :
    ∀ (t : Task) (c : Cursor) (s : State σ), P t c s → Q (c.run env i t s) := by
  intro t c s hP
  rw [← c.last_move]
  have hnext := hmove t c s hP
  rcases hcourse : c.move env i t s with ⟨u, d, s'⟩ | s'
  · rw [hcourse] at hnext
    -- Each move lowers the rank, so the moves of a step come to an end.
    have := rank_move hcourse
    exact run_of_moves hmove u d s' hnext
  · rw [hcourse] at hnext
    exact hnext
termination_by _ c => c.rank

end TreeCensus.Walk
