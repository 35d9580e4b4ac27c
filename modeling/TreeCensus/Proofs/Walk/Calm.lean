import TreeCensus.Proofs.Pool.Fairness
import TreeCensus.Proofs.Walk.Balance

/-!
# Undisturbed walks

A plan guides an environment whose handlers answer as the plan says and take every fault. In such an
environment no level fails and nobody is told to end, and each move of a task does a part of what the
task has left.
-/

namespace TreeCensus.Walk

set_option autoImplicit false

variable {σ : Type}

/-- The environment does what the plan says. -/
structure Plan.Guides (plan : Plan) (env : Environment σ) : Prop where
  files : env.files = plan.files
  links : env.options.walkLinks = false
  verdict : ∀ p, plan.verdict p = (env.options.filter.map fun f => f p).getD .included
  silent : plan.answer = none → env.options.onPath = none
  answers : ∀ answer, plan.answer = some answer → ∃ handler, env.options.onPath = some handler ∧
    ∀ memory call, (handler.act memory call).2.stop = none ∧
      (handler.act memory call).2.answer = answer call
  harmless : ∀ answer call f, plan.answer = some answer → answer call = .error f →
    f.isCancellation = false ∧ f ≠ .interrupted
  swallows : ∃ handler, env.options.onFault = some handler ∧
    ∀ memory f, (handler.act memory f).2 = .ok true
  log : plan.log = env.options.log.map (·.rule)
  takes : ∀ line, env.refusal line = none
  info : ∀ p, plan.files.info p ≠ .error .interrupted
  entries : ∀ p, plan.files.entries p ≠ .error .interrupted

section Position
variable (plan : Plan) (fuel depth : Nat) (v : Visit)

def Job.Fits : Job → Prop
  | .info => (plan.visit? fuel depth v.place v.verdict).isSome = true
  | .target _ => False
  | .entries found => found.kind = .directory ∧ 0 < fuel ∧
    (v.inside? plan fuel depth found).isSome = true
  | .report _ _ => True

def Job.IsCall : Job → Prop
  | .target _ => False
  | _ => True

def Phase.Fits : Phase → Prop
  | fresh => Job.info.Fits plan fuel depth v
  | queued _ job | calling job => job.Fits plan fuel depth v
  | consulting job _ => job.IsCall
  | _ => True

def Harmless (answer : Except Fault Bool) : Prop :=
  ∀ f, answer = .error f → f.isCancellation = false ∧ f ≠ .interrupted

def Cursor.Fits : Cursor → Prop
  | conclude result => ∃ tally, result = .ok tally
  | seek job | begin job | answer job => job.Fits plan fuel depth v
  | enter info => 0 < fuel ∧ (v.inside? plan fuel depth info).isSome = true
  | onInfo info => plan.files.info v.place = .ok info ∧
    (plan.visit? fuel depth v.place v.verdict).isSome = true
  | onTarget _ _ => False
  | onEntries info names => plan.files.entries v.place = .ok names ∧ info.kind = .directory ∧
    0 < fuel ∧ (v.inside? plan fuel depth info).isSome = true
  | giveBack next => next.Fits
  | onAnswer job _ response => job.IsCall ∧ response = .ok true
  | consult job _ => job.IsCall
  | offer job f => job.IsCall ∧ f ≠ .interrupted
  | onReply _ _ response => Harmless response
  | stop _ _ reply => reply.stop = none ∧ Harmless reply.answer
  | _ => True

end Position

def Task.depth (depths : List Nat) (t : Task) : Nat := depths.getD t.level 0

def Task.left (plan : Plan) (fuel : Nat) (depths : List Nat) (sums : List Tally) (t : Task) : Left :=
  t.phase.left plan (fuel - t.depth depths) (t.depth depths) t.visit sums

structure Task.Fits (plan : Plan) (fuel : Nat) (depths : List Nat) (t : Task) : Prop where
  undisturbed : t.interrupted = false
  outer : t.visit.outer = []
  name : t.visit.name = t.visit.place
  phase : t.phase.Fits plan (fuel - t.depth depths) (t.depth depths) t.visit
  below : ∀ k info, t.phase = .descending k info → t.level < k ∧ k < depths.length

structure Level.Calm (l : Level) : Prop where
  failure : l.failure = Option.none
  undisturbed : l.interrupted = false
  stage : l.stage = .running ∨ l.stage = .closed (.ok l.total)

def Event.mark? : Event → Option Mark
  | .reported c => some (.told c)
  | .logged line => some (.written line)
  | _ => none

namespace State

variable (s : State σ)

def totals : List Tally := s.levels.map (·.total)

def depths : List Nat := s.levels.map (·.depth)

def opened : Nat := s.levels.countP (!·.stage.isClosed)

/-- What has been done so far. -/
def marks : List Mark := s.visited.map .met ++ s.trace.filterMap Event.mark?

def lefts (plan : Plan) (fuel : Nat) (sums : List Tally) : List (Nat × Left) :=
  s.tasks.map fun t => (t.level, t.left plan fuel s.depths sums)

def leftsBut (plan : Plan) (fuel : Nat) (sums : List Tally) (i : Nat) : List (Nat × Left) :=
  (s.tasks.eraseIdx i).map fun t => (t.level, t.left plan fuel s.depths sums)

theorem marks_note_of_none {e : Event} (h : e.mark? = none) : (s.note e).marks = s.marks := by
  unfold marks note
  rw [List.filterMap_cons_none h]

theorem perm_marks_note {e : Event} {m : Mark} (h : e.mark? = some m) :
    (s.note e).marks.Perm (m :: s.marks) := by
  unfold marks note
  rw [List.filterMap_cons_some h]
  exact List.perm_middle

theorem totals_updateLevel (k : Nat) {f : Level → Level} {g : Tally → Tally}
    (hf : ∀ l, (f l).total = g l.total) : (s.updateLevel k f).totals = s.totals.modify k g :=
  map_modify hf s.levels k

theorem depths_updateLevel (k : Nat) {f : Level → Level} (hf : ∀ l, (f l).depth = l.depth) :
    (s.updateLevel k f).depths = s.depths := map_modify_of_eq hf s.levels k

theorem opened_eq : s.opened = s.stages.countP (!·.2.isClosed) := by
  unfold opened stages
  rw [List.countP_map]
  rfl

theorem depth_level (k : Nat) : (s.level k).depth = s.depths.getD k 0 := by
  unfold level depths
  rw [List.getD_eq_getElem?_getD, List.getElem?_map]
  cases s.levels[k]? <;> rfl

end State

/-- A walk in which nothing is disturbed, and what it comes to. -/
structure Placid (plan : Plan) (fuel : Nat) (sums : List Tally) (goal : List Mark) (bound : Nat)
    (s : State σ) : Prop where
  tasks : ∀ t ∈ s.tasks, t.Fits plan fuel s.depths
  calm : s.admission.Calm
  levels : ∀ l ∈ s.levels, l.Calm
  balanced : Balanced s.totals s.marks (s.lefts plan fuel sums) s.opened sums goal bound

/-- The same in the midst of a step that the task `u` has begun in `s₀`. -/
structure Midst (plan : Plan) (fuel : Nat) (sums : List Tally) (goal : List Mark) (bound : Nat)
    (s₀ : State σ) (i : Nat) (u t : Task) (c : Cursor) (s : State σ) : Prop where
  same : t = u
  tasks : s.tasks = s₀.tasks
  depths : s.depths = s₀.depths
  calm : s.admission.Calm
  levels : ∀ l ∈ s.levels, l.Calm
  fits : c.Fits plan (fuel - u.depth s₀.depths) (u.depth s₀.depths) u.visit
  balanced : Balanced s.totals s.marks
    ((u.level, c.left plan (fuel - u.depth s₀.depths) (u.depth s₀.depths) u.visit) ::
      s₀.leftsBut plan fuel sums i) s.opened sums goal bound

namespace Midst

variable {plan : Plan} {env : Environment σ} {fuel bound i : Nat} {sums : List Tally} {goal : List Mark}
  {s₀ s s' : State σ} {u t : Task} {c d : Cursor}

theorem next (h : Midst plan fuel sums goal bound s₀ i u t c s)
    (hfits : d.Fits plan (fuel - u.depth s₀.depths) (u.depth s₀.depths) u.visit)
    (hyield : (d.left plan (fuel - u.depth s₀.depths) (u.depth s₀.depths) u.visit).toYield =
      (c.left plan (fuel - u.depth s₀.depths) (u.depth s₀.depths) u.visit).toYield)
    (hwork : (d.left plan (fuel - u.depth s₀.depths) (u.depth s₀.depths) u.visit).work ≤
      (c.left plan (fuel - u.depth s₀.depths) (u.depth s₀.depths) u.visit).work)
    (htasks : s'.tasks = s.tasks) (hlevels : s'.levels = s.levels) (hmarks : s'.marks = s.marks)
    (hcalm : s'.admission.Calm) : Midst plan fuel sums goal bound s₀ i u u d s' := by
  have hbalanced := h.balanced.still hyield hwork
  refine ⟨rfl, htasks.trans h.tasks, ?_, hcalm, ?_, hfits, ?_⟩
  · unfold State.depths
    rw [hlevels]
    exact h.depths
  · rw [hlevels]
    exact h.levels
  · unfold State.totals State.opened
    rw [hlevels, hmarks]
    exact hbalanced

theorem mark (h : Midst plan fuel sums goal bound s₀ i u t c s) {m : Mark}
    (hfits : d.Fits plan (fuel - u.depth s₀.depths) (u.depth s₀.depths) u.visit)
    (hshare : (d.left plan (fuel - u.depth s₀.depths) (u.depth s₀.depths) u.visit).share =
      (c.left plan (fuel - u.depth s₀.depths) (u.depth s₀.depths) u.visit).share)
    (hmarks : (c.left plan (fuel - u.depth s₀.depths) (u.depth s₀.depths) u.visit).marks =
      m :: (d.left plan (fuel - u.depth s₀.depths) (u.depth s₀.depths) u.visit).marks)
    (hwork : (d.left plan (fuel - u.depth s₀.depths) (u.depth s₀.depths) u.visit).work ≤
      (c.left plan (fuel - u.depth s₀.depths) (u.depth s₀.depths) u.visit).work)
    (htasks : s'.tasks = s.tasks) (hlevels : s'.levels = s.levels)
    (hdone : s'.marks.Perm (m :: s.marks)) (hcalm : s'.admission.Calm) :
    Midst plan fuel sums goal bound s₀ i u u d s' := by
  have hbalanced := h.balanced.mark hdone hshare hmarks hwork
  refine ⟨rfl, htasks.trans h.tasks, ?_, hcalm, ?_, hfits, ?_⟩
  · unfold State.depths
    rw [hlevels]
    exact h.depths
  · rw [hlevels]
    exact h.levels
  · unfold State.totals State.opened
    rw [hlevels]
    exact hbalanced

end Midst

/-- Where a step of `u` begins. -/
structure Begins (plan : Plan) (fuel : Nat) (s₀ : State σ) (i : Nat) (u : Task) : Prop where
  task : s₀.tasks[i]? = some u
  tasks : ∀ t ∈ s₀.tasks, t.Fits plan fuel s₀.depths
  placed : ∀ t ∈ s₀.tasks, t.level < s₀.depths.length

/-- The step of the task is over, and the task is in a phase that waits for no level. -/
theorem Midst.rest {plan : Plan} {fuel bound i : Nat} {sums : List Tally} {goal : List Mark}
    {s₀ s s' : State σ} {u t : Task} {c : Cursor} (h : Midst plan fuel sums goal bound s₀ i u t c s)
    (hbegins : Begins plan fuel s₀ i u) {phase : Phase}
    (hphase : phase.Fits plan (fuel - u.depth s₀.depths) (u.depth s₀.depths) u.visit)
    (hstays : ∀ k info, phase ≠ .descending k info)
    (htasks : s'.tasks = s.tasks) (hlevels : s'.levels = s.levels) (hcalm : s'.admission.Calm)
    (hbalanced : Balanced s.totals s'.marks
      ((u.level, phase.left plan (fuel - u.depth s₀.depths) (u.depth s₀.depths) u.visit sums) ::
        s₀.leftsBut plan fuel sums i) s.opened sums goal bound) :
    Placid plan fuel sums goal bound (s'.setPhase i phase) := by
  have hdepths : (s'.setPhase i phase).depths = s₀.depths := by
    change s'.levels.map (·.depth) = _
    rw [hlevels]
    exact h.depths
  have hmodify : (s'.setPhase i phase).tasks = s₀.tasks.modify i fun t => { t with phase } := by
    change s'.tasks.modify i _ = _
    rw [htasks, h.tasks]
  refine ⟨?_, hcalm, ?_, ?_⟩
  · intro v hv
    rw [hdepths]
    rw [hmodify] at hv
    have hperm := (perm_modify hbegins.task fun t => { t with phase }).mem_iff.mp hv
    rcases List.mem_cons.mp hperm with rfl | hother
    · have hu := hbegins.tasks u (List.mem_of_getElem? hbegins.task)
      exact ⟨hu.undisturbed, hu.outer, hu.name, hphase, fun k info heq => absurd heq (hstays k info)⟩
    · exact hbegins.tasks v (List.mem_of_mem_eraseIdx hother)
  · change ∀ l ∈ s'.levels, _
    rw [hlevels]
    exact h.levels
  · have hlefts : (s'.setPhase i phase).lefts plan fuel sums =
        (s₀.tasks.modify i fun t => { t with phase }).map fun t =>
          (t.level, t.left plan fuel s₀.depths sums) := by
      unfold State.lefts
      rw [hdepths, hmodify]
    rw [hlefts]
    have hperm := (perm_modify hbegins.task fun t => { t with phase }).map fun t =>
      (t.level, t.left plan fuel s₀.depths sums)
    refine Balanced.perm ?_ hperm.symm
    change Balanced (s'.levels.map (·.total)) s'.marks _ (s'.levels.countP (!·.stage.isClosed)) _ _ _
    rw [hlevels]
    exact hbalanced

end TreeCensus.Walk
