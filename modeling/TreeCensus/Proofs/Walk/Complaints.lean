import TreeCensus.Proofs.Walk.CallingOff

/-!
# Faults are offered once

A call on the file system or on the path handler begins, and then it comes back, or it is cut off
because its task has been told to end. Of the calls that have come back, each one that failed has been
offered to the fault handler once, and nothing else has been offered.
-/

namespace TreeCensus

set_option autoImplicit false

/-- The fault neither reports a cancellation nor says that a task is to end. -/
def Fault.Genuine (f : Fault) : Prop := f.kind ≠ .interrupted ∧ f.isCancellation = false

namespace Walk

variable {σ : Type}

/-- The handlers answer a question always alike, the fault handler with whether it accepts the fault.
Nobody says that a task is to end, the path handler does not make a cancellation up, and the log takes
every line. -/
structure Environment.Candid (env : Environment σ) (accepts : Fault → Bool)
    (answer : PathCall → Except Fault Bool) : Prop where
  onFault : ∃ handler, env.options.onFault = some handler ∧
    ∀ memory f, (handler.act memory f).2 = .ok (accepts f)
  onPath : ∀ handler, env.options.onPath = some handler →
    ∀ memory call, (handler.act memory call).2 = ⟨none, false, answer call⟩
  files : ∀ f, env.files.Raises f → f.kind ≠ .interrupted
  answers : ∀ call f, answer call = .error f → f.Genuine
  refusal : ∀ line, env.refusal line = none

def failure? {α : Type} : Except Fault α → Option Fault
  | .error f => some f
  | .ok _ => none

/-- The fault with which a call comes back, if it fails. -/
def Environment.failure? (env : Environment σ) (answer : PathCall → Except Fault Bool) :
    Event → Option Fault
  | .stated p => Walk.failure? (env.files.info p)
  | .linkRead p => Walk.failure? (env.files.target p)
  | .listed p => Walk.failure? (env.files.entries p)
  | .reported c => env.options.onPath.bind fun _ => Walk.failure? (answer c)
  | .offered _ | .logged _ => none

/-- The call that is made for a job. -/
def Job.call (depth : Nat) (v : Visit) : Job → Event
  | .info => .stated v.place
  | .target _ => .linkRead v.place
  | .entries _ => .listed v.place
  | .report found tally => .reported ⟨v.name, depth, found, tally⟩

def Task.inProgress? (depths : List Nat) (t : Task) : Option Event :=
  match t.phase with
  | .calling job => some (job.call (t.depth depths) t.visit)
  | _ => none

def Event.offered? : Event → Option Fault
  | .offered f => some f
  | _ => none

namespace State

variable (s : State σ)

/-- The calls that have begun and have neither come back nor been cut off. -/
def inProgress : List Event := s.tasks.filterMap (Task.inProgress? s.depths)

/-- The faults that have been offered to the fault handler, the latest first. -/
def offered : List Fault := s.trace.filterMap Event.offered?

/-- The call that is cut off by a step: that of a task which has been told to end. -/
def cutOff : Actor → List Event
  | .task i => ((s.tasks[i]?.filter (·.interrupted)).bind (Task.inProgress? s.depths)).toList
  | .level _ => []

end State

/-- How a walk goes on, and the calls that are cut off on the way, the latest first. -/
inductive State.Tour (env : Environment σ) (s₀ : State σ) : List Event → State σ → Prop
  | refl : Tour env s₀ [] s₀
  | act {lost : List Event} {s s' : State σ} {a : Actor} (before : Tour env s₀ lost s)
      (step : s.step? env a = some s') : Tour env s₀ (s.cutOff a ++ lost) s'

/-- The faults of the calls that have come back and that are still to be offered. -/
def Cursor.due (fails : Event → Option Fault) (depth : Nat) (v : Visit) : Cursor → List Fault
  | answer job => (fails (job.call depth v)).toList
  | report info tally => (fails ((Job.report info tally).call depth v)).toList
  | stop _ _ reply => (failure? reply.answer).toList
  | onReply _ _ response => (failure? response).toList
  | offer _ f => [f]
  | _ => []

/-- What handlers that answer always alike leave a task to go on with. -/
def Cursor.Candid (accepts : Fault → Bool) (offered : List Fault) : Cursor → Prop
  | stop _ _ reply => reply.stop = none ∧ reply.check = false ∧
    ∀ f, reply.answer = .error f → f.Genuine
  | onReply _ _ response => ∀ f, response = .error f → f.Genuine
  | offer _ f => f.kind ≠ .interrupted
  | consult _ f => f ∈ offered
  | onAnswer _ f response => f ∈ offered ∧ response = .ok (accepts f)
  | giveBack next => next.Candid accepts offered ∧ ∀ fails depth v, next.due fails depth v = []
  | _ => True

/-- Every failure of a call has been offered once, unless the call is in progress or was cut off, and a
fault that the fault handler is asked about has been offered. -/
structure Reckoned (env : Environment σ) (answer : PathCall → Except Fault Bool) (lost : List Event)
    (s : State σ) : Prop where
  once : (s.offered ++ (s.inProgress ++ lost).filterMap (env.failure? answer)).Perm
    (s.starts.filterMap (env.failure? answer))
  asked : ∀ t ∈ s.tasks, ∀ job f, t.phase = .consulting job f → f ∈ s.offered

/-- The same in the midst of a step that the task `i` has begun in `s₀`. -/
structure Reckoning (env : Environment σ) (accepts : Fault → Bool)
    (answer : PathCall → Except Fault Bool) (lost : List Event) (s₀ : State σ) (i : Nat) (u : Task)
    (c : Cursor) (s : State σ) : Prop where
  tasks : s.tasks.eraseIdx i = s₀.tasks.eraseIdx i
  own : s.tasks[i]?.map (fun t => (t.level, t.visit)) = some (u.level, u.visit)
  depths : s.depths = s₀.depths
  candid : c.Candid accepts s.offered
  once : (s.offered ++ (c.due (env.failure? answer) (u.depth s₀.depths) u.visit ++
    ((s₀.tasks.eraseIdx i).filterMap (Task.inProgress? s₀.depths) ++ lost).filterMap
      (env.failure? answer))).Perm (s.starts.filterMap (env.failure? answer))
  asked : ∀ t ∈ s₀.tasks.eraseIdx i, ∀ job f, t.phase = .consulting job f → f ∈ s.offered

theorem State.offered_of_trace {s s' : State σ} (h : s'.trace = s.trace) : s'.offered = s.offered :=
  congrArg (List.filterMap Event.offered?) h

theorem State.starts_of_trace {s s' : State σ} (h : s'.trace = s.trace) : s'.starts = s.starts :=
  congrArg (List.filter Event.isStart) h

theorem State.cutOff_task {s : State σ} {i : Nat} {t : Task} (ht : s.tasks[i]? = some t) :
    s.cutOff (.task i) = if t.interrupted then (t.inProgress? s.depths).toList else [] := by
  unfold cutOff
  dsimp only
  rw [ht]
  cases htold : t.interrupted <;> simp [Option.filter, htold]

section Moves

variable {env : Environment σ} {accepts : Fault → Bool} {answer : PathCall → Except Fault Bool}
  {lost : List Event} {s₀ s s' : State σ} {i : Nat} {u t : Task} {c d : Cursor}

theorem Job.due_forgone (t : Task) (job : Job) (fails : Event → Option Fault) (depth : Nat) (v : Visit) :
    (job.forgone t).due fails depth v = [] := by
  cases job <;> rfl

theorem Job.candid_forgone (t : Task) (job : Job) (accepts : Fault → Bool) (offered : List Fault) :
    (job.forgone t).Candid accepts offered := by
  cases job <;> exact trivial

/-- Tasks and calls stay what they are. -/
theorem Reckoned.same (h : Reckoned env answer lost s) (htasks : s'.tasks = s.tasks)
    (hdepths : s'.depths = s.depths) (hoffered : s'.offered = s.offered) (hstarts : s'.starts = s.starts) :
    Reckoned env answer lost s' := by
  refine ⟨?_, ?_⟩
  · unfold State.inProgress
    rw [htasks, hdepths, hoffered, hstarts]
    exact h.once
  · rw [htasks, hoffered]
    exact h.asked

namespace Reckoning

theorem still (h : Reckoning env accepts answer lost s₀ i u c s) (htasks : s'.tasks = s.tasks)
    (hdepths : s'.depths = s.depths) (hoffered : s'.offered = s.offered) (hstarts : s'.starts = s.starts)
    (hd : d.Candid accepts s.offered)
    (hdue : d.due (env.failure? answer) (u.depth s₀.depths) u.visit =
      c.due (env.failure? answer) (u.depth s₀.depths) u.visit) :
    Reckoning env accepts answer lost s₀ i u d s' := by
  refine ⟨?_, ?_, hdepths.trans h.depths, ?_, ?_, ?_⟩
  · rw [htasks]
    exact h.tasks
  · rw [htasks]
    exact h.own
  · rw [hoffered]
    exact hd
  · rw [hoffered, hstarts, hdue]
    exact h.once
  · rw [hoffered]
    exact h.asked

theorem rest (h : Reckoning env accepts answer lost s₀ i u c s) (s' : State σ)
    (htasks : s'.tasks = s.tasks) (hdepths : s'.depths = s.depths) (phase : Phase)
    (honce : (s'.offered ++ ((Task.inProgress? s₀.depths { u with phase }).toList.filterMap
      (env.failure? answer) ++ ((s₀.tasks.eraseIdx i).filterMap (Task.inProgress? s₀.depths) ++ lost).filterMap
        (env.failure? answer))).Perm (s'.starts.filterMap (env.failure? answer)))
    (hmore : s.offered ⊆ s'.offered) (hasked : ∀ job f, phase = .consulting job f → f ∈ s'.offered) :
    Reckoned env answer lost (s'.setPhase i phase) := by
  obtain ⟨a, ha, hown⟩ := Option.map_eq_some_iff.mp h.own
  obtain ⟨hlevel, hvisit⟩ := Prod.mk.inj hown
  have hdepths' : (s'.setPhase i phase).depths = s₀.depths := hdepths.trans h.depths
  have hperm : (s'.setPhase i phase).tasks.Perm ({ a with phase } :: s₀.tasks.eraseIdx i) := by
    have hmodify := perm_modify ha fun t => { t with phase }
    rw [h.tasks] at hmodify
    change (s'.tasks.modify i _).Perm _
    rwa [htasks]
  refine ⟨?_, ?_⟩
  · refine .trans (.append_left _ ?_) honce
    have hsame : Task.inProgress? s₀.depths { a with phase } = Task.inProgress? s₀.depths { u with phase } := by
      unfold Task.inProgress? Task.depth
      dsimp only
      rw [hlevel, hvisit]
    have hprogress := hperm.filterMap (Task.inProgress? s₀.depths)
    unfold State.inProgress
    rw [hdepths', ← List.filterMap_append, ← List.append_assoc]
    refine (hprogress.append_right lost).filterMap _ |>.trans ?_
    rw [List.filterMap_cons, hsame]
    cases Task.inProgress? s₀.depths { u with phase } <;> exact .refl _
  · intro t ht job f hconsults
    rcases List.mem_cons.mp (hperm.mem_iff.mp ht) with rfl | hother
    · exact hasked job f hconsults
    · exact hmore (h.asked t hother job f hconsults)

theorem call_eq (h : Reckoning env accepts answer lost s₀ i u c s) (info : FileInfo) (tally : Tally) :
    s.pathCall u info tally = ⟨u.visit.name, u.depth s₀.depths, info, tally⟩ := by
  unfold State.pathCall Task.depth
  rw [State.depth_level, h.depths]

/-- The failure of a call that begins is still to be offered. -/
theorem begun {job : Job} (h : Reckoning env accepts answer lost s₀ i u (.begin job) s) :
    (s.offered ++ ((env.failure? answer (job.call (u.depth s₀.depths) u.visit)).toList ++
      ((s₀.tasks.eraseIdx i).filterMap (Task.inProgress? s₀.depths) ++ lost).filterMap
        (env.failure? answer))).Perm
      ((job.call (u.depth s₀.depths) u.visit :: s.starts).filterMap (env.failure? answer)) := by
  have honce := h.once
  generalize job.call (u.depth s₀.depths) u.visit = e
  cases hfails : env.failure? answer e with
  | none =>
    rw [List.filterMap_cons_none hfails]
    exact honce
  | some f =>
    rw [List.filterMap_cons_some hfails]
    exact List.perm_middle.trans (honce.cons f)

theorem descend (h : Reckoning env accepts answer lost s₀ i u c s)
    (hplaced : ∀ t ∈ s₀.tasks, t.level < s₀.depths.length)
    (hdue : c.due (env.failure? answer) (u.depth s₀.depths) u.visit = []) (links : List Nat) (depth : Nat)
    (priority : Priority) (paths : List Path) (k : Nat) (info : FileInfo) :
    Reckoned env answer lost
      ((s.openLevel env links depth priority paths).setPhase i (.descending k info)) := by
  obtain ⟨a, ha, -⟩ := Option.map_eq_some_iff.mp h.own
  generalize hnew : ((State.visits env paths).map fun v => (⟨s.levels.length, v, .fresh, false⟩ : Task)) = new
  have hfresh : ∀ t ∈ new, t.phase = .fresh := by
    rw [← hnew]
    intro t ht
    obtain ⟨v, _, rfl⟩ := List.mem_map.mp ht
    rfl
  have hlt := (List.getElem?_eq_some_iff.mp ha).1
  have hperm : ((s.openLevel env links depth priority paths).setPhase i (.descending k info)).tasks.Perm
      ({ a with phase := .descending k info } :: (s₀.tasks.eraseIdx i ++ new)) := by
    have hmodify := perm_modify (l := s.tasks ++ new) ((List.getElem?_append_left hlt).trans ha)
      fun t => { t with phase := .descending k info }
    rw [List.eraseIdx_append_of_lt_length hlt, h.tasks, ← hnew] at hmodify
    rw [← hnew]
    exact hmodify
  have hdepths : ((s.openLevel env links depth priority paths).setPhase i (.descending k info)).depths =
      s₀.depths ++ [depth] := by
    rw [← h.depths]
    exact List.map_append
  refine ⟨?_, ?_⟩
  · have hsame : (s₀.tasks.eraseIdx i).filterMap (Task.inProgress? (s₀.depths ++ [depth])) =
        (s₀.tasks.eraseIdx i).filterMap (Task.inProgress? s₀.depths) := by
      apply List.filterMap_congr
      intro t ht
      unfold Task.inProgress?
      rw [Task.depth_append (hplaced t (List.mem_of_mem_eraseIdx ht))]
    have hnone : new.filterMap (Task.inProgress? (s₀.depths ++ [depth])) = [] := by
      rw [List.filterMap_eq_nil_iff]
      intro t ht
      unfold Task.inProgress?
      rw [hfresh t ht]
    have hprogress := hperm.filterMap (Task.inProgress? (s₀.depths ++ [depth]))
    rw [List.filterMap_cons_none rfl, List.filterMap_append, hsame, hnone, List.append_nil] at hprogress
    have honce := h.once
    rw [hdue] at honce
    unfold State.inProgress
    rw [hdepths]
    exact (((hprogress.append_right lost).filterMap _).append_left _).trans honce
  · intro t ht job f hconsults
    rcases List.mem_cons.mp (hperm.mem_iff.mp ht) with rfl | hother
    · cases hconsults
    · rcases List.mem_append.mp hother with hother | hother
      · exact h.asked t hother job f hconsults
      · rw [hfresh t hother] at hconsults
        cases hconsults

theorem move (henv : env.Candid accepts answer) (h : Reckoning env accepts answer lost s₀ i u c s)
    (hplaced : ∀ t ∈ s₀.tasks, t.level < s₀.depths.length) :
    (c.move env i u s).Meets (Reckoning env accepts answer lost s₀ i) (Reckoned env answer lost) := by
  cases c with
  | conclude result =>
    have hrest := h.rest s rfl rfl (.ended result) h.once (List.Subset.refl _) (by simp)
    cases result with
    | ok tally => exact hrest
    | error f =>
      have hdepths := State.depths_updateLevel (s.setPhase i (.ended (.error f))) u.level
        (f := fun l => { l with failure := l.failure.or (some f) }) fun _ => rfl
      exact hrest.same rfl hdepths rfl rfl
  | log tally =>
    simp only [Cursor.move]
    split
    · exact h.still rfl rfl rfl rfl trivial rfl
    · split
      · split
        · exact h.rest (s.note _) rfl rfl (.logging tally) h.once (List.Subset.refl _) (by simp)
        · exact h.still rfl rfl rfl rfl trivial rfl
      · exact h.still rfl rfl rfl rfl trivial rfl
  | accept tally => exact h.still rfl (s.depths_updateLevel u.level fun _ => rfl) rfl rfl trivial rfl
  | seek job =>
    simp only [Cursor.move]
    split
    · exact h.still rfl rfl rfl rfl trivial rfl
    · exact h.still rfl rfl rfl rfl trivial rfl
    · next b ticket _ =>
      exact h.rest { s with admission := b } rfl rfl (.queued ticket job) h.once (List.Subset.refl _) (by simp)
  | follow o =>
    cases o <;> simp only [Cursor.move] <;> (repeat' split) <;> exact h.still rfl rfl rfl rfl trivial rfl
  | enter info | onInfo info =>
    simp only [Cursor.move]
    (repeat' split) <;> exact h.still rfl rfl rfl rfl trivial rfl
  | onTarget info target =>
    simp only [Cursor.move]
    split
    · exact h.still rfl rfl rfl rfl trivial rfl
    · refine ⟨?_, ?_, h.depths, trivial, h.once, h.asked⟩
      · rw [← h.tasks]
        exact List.eraseIdx_modify_of_eq ..
      · obtain ⟨a, ha, hown⟩ := Option.map_eq_some_iff.mp h.own
        obtain ⟨hlevel, -⟩ := Prod.mk.inj hown
        change (s.tasks.modify i _)[i]?.map _ = _
        rw [List.getElem?_modify_eq, ha, ← hlevel]
        rfl
  | onEntries info names =>
    simp only [Cursor.move]
    split
    · exact h.still rfl rfl rfl rfl trivial rfl
    · exact h.descend hplaced rfl ..
  | giveBack next =>
    obtain ⟨hcandid, hdue⟩ := h.candid
    simp only [Cursor.move]
    split
    · exact h.still rfl rfl rfl rfl hcandid (hdue _ _ _)
    · exact h.still rfl rfl rfl rfl trivial rfl
  | onAnswer job f response =>
    obtain ⟨hoffered, rfl⟩ := h.candid
    simp only [Cursor.move]
    split
    · exact h.still rfl rfl rfl rfl ⟨job.candid_forgone u accepts _, job.due_forgone u⟩ rfl
    · exact h.still rfl rfl rfl rfl ⟨trivial, fun _ _ _ => rfl⟩ rfl
  | consult job f =>
    obtain ⟨handler, hhandler, hanswer⟩ := henv.onFault
    simp only [Cursor.move, hhandler]
    exact h.still rfl rfl rfl rfl ⟨h.candid, hanswer _ _⟩ rfl
  | offer job f =>
    obtain ⟨handler, hhandler, -⟩ := henv.onFault
    have hkind : f.kind ≠ .interrupted := h.candid
    simp only [Cursor.move, hhandler]
    rw [if_neg (by rintro rfl; exact hkind rfl)]
    split
    · refine h.rest (s.note (.offered f)) rfl rfl (.consulting job f) ?_ (List.subset_cons_self _ _) ?_
      · exact List.perm_middle.symm.trans h.once
      · intro job' g heq
        obtain ⟨-, rfl⟩ := Phase.consulting.inj heq
        exact List.mem_cons_self
    · refine ⟨h.tasks, h.own, h.depths, List.mem_cons_self, List.perm_middle.symm.trans h.once, ?_⟩
      exact fun t ht job' g hconsults => List.mem_cons_of_mem _ (h.asked t ht job' g hconsults)
  | onReply info tally response =>
    rcases response with f | _ | _
    · have hgenuine := h.candid f rfl
      simp only [Cursor.move]
      rw [if_neg (by simp [hgenuine.2])]
      exact h.still rfl rfl rfl rfl hgenuine.1 rfl
    · exact h.still rfl rfl rfl rfl ⟨trivial, fun _ _ _ => rfl⟩ rfl
    · exact h.still rfl rfl rfl rfl ⟨trivial, fun _ _ _ => rfl⟩ rfl
  | stop info tally reply =>
    obtain ⟨hstop, hcheck, hgenuine⟩ := h.candid
    simp only [Cursor.move, hstop, hcheck]
    exact h.still rfl rfl rfl rfl hgenuine rfl
  | report info tally =>
    simp only [Cursor.move]
    cases hhandler : env.options.onPath with
    | none =>
      refine h.still rfl rfl rfl rfl (by simp [Cursor.Candid]) ?_
      simp [Cursor.due, Environment.failure?, hhandler, Job.call, Walk.failure?]
    | some handler =>
      have hreply := henv.onPath handler hhandler s.memory (s.pathCall u info tally)
      rw [h.call_eq] at hreply ⊢
      dsimp only
      rw [hreply]
      refine h.still rfl rfl rfl rfl ⟨rfl, rfl, henv.answers _⟩ ?_
      simp [Cursor.due, Environment.failure?, hhandler, Job.call]
  | begin job =>
    have hbegun := h.begun
    cases job with
    | report info tally =>
      simp only [Cursor.move]
      split
      · next hhandler =>
        refine h.still rfl rfl rfl rfl trivial ?_
        simp [Cursor.due, Environment.failure?, hhandler, Job.call]
      · rw [h.call_eq]
        split
        · exact h.rest (s.note _) rfl rfl _ hbegun (List.Subset.refl _) (by simp)
        · exact ⟨h.tasks, h.own, h.depths, trivial, hbegun, h.asked⟩
    | _ => exact h.rest (s.note _) rfl rfl _ hbegun (List.Subset.refl _) (by simp)
  | answer job =>
    cases job with
    | report info tally => exact h.still rfl rfl rfl rfl trivial rfl
    | _ =>
      simp only [Cursor.move]
      split
      · next hok =>
        refine h.still rfl rfl rfl rfl ⟨trivial, fun _ _ _ => rfl⟩ ?_
        simp [Cursor.due, Environment.failure?, Job.call, hok, Walk.failure?]
      · next f hfails =>
        refine h.still rfl rfl rfl rfl (henv.files f ⟨u.visit.place, by tauto⟩) ?_
        simp [Cursor.due, Environment.failure?, Job.call, hfails, Walk.failure?]

/-- A call comes back when its task makes its step, or it is cut off. -/
theorem enter (h : Reckoned env answer lost s₀) (ht : s₀.tasks[i]? = some t)
    (henters : s₀.Enters env t c s) :
    Reckoning env accepts answer (s₀.cutOff (.task i) ++ lost) s₀ i t c s := by
  have hsame : s.tasks = s₀.tasks ∧ s.depths = s₀.depths ∧ s.trace = s₀.trace := by
    cases henters <;> exact ⟨rfl, rfl, rfl⟩
  obtain ⟨htasks, hdepths, htrace⟩ := hsame
  have hoffered := State.offered_of_trace htrace
  have hstarts := State.starts_of_trace htrace
  have hcall : (t.inProgress? s₀.depths).toList.filterMap (env.failure? answer) =
      c.due (env.failure? answer) (t.depth s₀.depths) t.visit ++
        (s₀.cutOff (.task i)).filterMap (env.failure? answer) := by
    rw [State.cutOff_task ht]
    unfold Task.inProgress?
    cases henters with
    | ends told idle =>
      cases hphase : t.phase with
      | calling job =>
        rw [hphase] at idle
        cases idle
      | _ => simp [Cursor.due]
    | drops told => simp [told, Cursor.due]
    | @answers job phase free =>
      simp only [phase, free, Cursor.due]
      cases hfails : env.failure? answer (job.call (t.depth s₀.depths) t.visit) <;> simp [hfails]
    | starts phase | refused phase | called phase | admitted phase | consults phase | logged phase
    | failed phase | resumes phase => simp [phase, Cursor.due]
  refine ⟨by rw [htasks], by rw [htasks, ht]; rfl, hdepths, ?_, ?_, ?_⟩
  · rw [hoffered]
    cases henters with
    | consults phase _ => exact h.asked t (List.mem_of_getElem? ht) _ _ phase
    | drops | called => exact ⟨trivial, fun _ _ _ => rfl⟩
    | _ => trivial
  · have hprogress : s₀.inProgress.Perm ((t.inProgress? s₀.depths).toList ++
        (s₀.tasks.eraseIdx i).filterMap (Task.inProgress? s₀.depths)) := by
      refine ((perm_eraseIdx ht).filterMap _).trans ?_
      rw [List.filterMap_cons]
      cases t.inProgress? s₀.depths <;> exact .refl _
    rw [hoffered, hstarts]
    refine .trans (.append_left _ ?_) h.once
    refine .trans ?_ ((hprogress.append_right lost).filterMap _).symm
    simp only [List.filterMap_append, hcall, List.append_assoc]
    exact .append_left _ (List.perm_append_comm_assoc ..)
  · rw [hoffered]
    exact fun u hu => h.asked u (List.mem_of_mem_eraseIdx hu)

end Reckoning

theorem State.depths_interrupt (s : State σ) (k : Nat) : (s.interrupt k).depths = s.depths := by
  unfold interrupt depths
  apply List.ext_getElem?
  intro j
  dsimp only
  rw [List.getElem?_map, List.getElem?_map, List.getElem?_mapIdx]
  cases s.levels[j]? with
  | none => rfl
  | some l =>
    simp only [Option.map_some]
    split <;> rfl

/-- That tasks are told to end does not end their calls. -/
theorem State.filterMap_interrupt {α : Type} (s : State σ) (k : Nat) {f : Task → Option α}
    (hf : ∀ t told, f { t with interrupted := told } = f t) :
    (s.interrupt k).tasks.filterMap f = s.tasks.filterMap f := by
  unfold interrupt
  dsimp only
  rw [List.filterMap_map]
  apply List.filterMap_congr
  intro t _
  dsimp only [Function.comp_apply]
  split
  · exact hf t true
  · rfl

theorem Reckoned.fate {k : Nat} {l : Level} (h : Reckoned env answer lost s) (hfate : s.Fate k l s') :
    Reckoned env answer lost s' := by
  cases hfate with
  | @fails f _ _ =>
    generalize hbefore : ({ s with admission := s.admission.cancel l.source (.fault f) } : State σ) = s₁
    have hsame : s₁.tasks = s.tasks ∧ s₁.depths = s.depths ∧ s₁.trace = s.trace := by
      rw [← hbefore]
      exact ⟨rfl, rfl, rfl⟩
    obtain ⟨htasks, hdepths, htrace⟩ := hsame
    have hreckoned : Reckoned env answer lost s₁ :=
      h.same htasks hdepths (State.offered_of_trace htrace) (State.starts_of_trace htrace)
    have hinterrupt : Reckoned env answer lost (s₁.interrupt k) := by
      refine ⟨?_, ?_⟩
      · unfold State.inProgress
        rw [s₁.depths_interrupt, s₁.filterMap_interrupt k fun _ _ => rfl]
        exact hreckoned.once
      · intro t ht job g hconsults
        have hpost := List.mem_map_of_mem (f := fun t : Task => (t.level, t.phase)) ht
        change _ ∈ (s₁.interrupt k).posts at hpost
        rw [s₁.posts_interrupt] at hpost
        obtain ⟨u, hu, heq⟩ := List.mem_map.mp hpost
        obtain ⟨-, hphase⟩ := Prod.mk.inj heq
        exact hreckoned.asked u hu job g (hphase.trans hconsults)
    exact hinterrupt.same rfl (State.depths_updateLevel _ k fun _ => rfl) rfl rfl
  | @closes result _ _ _ => exact h.same rfl (State.depths_updateLevel _ k fun _ => rfl) rfl rfl

end Moves

section Tours

variable {env : Environment σ} {accepts : Fault → Bool} {answer : PathCall → Except Fault Bool}
  {lost : List Event} {s₀ s s' : State σ} {i : Nat} {t : Task} {capacity : Int} {others : List Pool.Stake}

theorem Reckoned.task (h : Reckoned env answer lost s) (henv : env.Candid accepts answer)
    (hshared : Shared capacity others s) (ht : s.tasks[i]? = some t) :
    (∀ u c s₁, s.Amid env i u c s₁ →
      Reckoning env accepts answer (s.cutOff (.task i) ++ lost) s i u c s₁) ∧
    ∀ s', s.stepTask? env i t = some s' → Reckoned env answer (s.cutOff (.task i) ++ lost) s' := by
  have hplaced : ∀ u ∈ s.tasks, u.level < s.depths.length := by
    intro u hu
    obtain ⟨j, hj⟩ := List.getElem?_of_mem hu
    unfold State.depths
    rw [List.length_map]
    exact hshared.placed hj
  exact State.along_step ht (fun c s₁ => Reckoning.enter h ht) fun u c s₁ _ hnow => hnow.move henv hplaced

/-- Every failure is offered once by the step in which its call comes back. -/
theorem Reckoned.step (h : Reckoned env answer lost s) (henv : env.Candid accepts answer)
    (hshared : Shared capacity others s) {a : Actor} (hstep : s.step? env a = some s') :
    Reckoned env answer (s.cutOff a ++ lost) s' := by
  cases a with
  | task i =>
    obtain ⟨t, ht, hstep⟩ := Option.bind_eq_some_iff.mp hstep
    exact (h.task henv hshared ht).2 s' hstep
  | level k =>
    obtain ⟨l, _, hstep⟩ := Option.bind_eq_some_iff.mp hstep
    exact h.fate (State.fate hstep)

theorem Reckoned.start (env : Environment σ) (answer : PathCall → Except Fault Bool) (caller : Caller σ)
    (paths : List Path) : Reckoned env answer [] (State.start env caller paths) := by
  have hfresh : ∀ t ∈ (State.start env caller paths).tasks, t.phase = .fresh := by
    intro t ht
    obtain ⟨v, _, rfl⟩ := List.mem_map.mp ht
    rfl
  refine ⟨?_, ?_⟩
  · have hnone : (State.start env caller paths).inProgress = [] := by
      unfold State.inProgress
      rw [List.filterMap_eq_nil_iff]
      intro t ht
      unfold Task.inProgress?
      rw [hfresh t ht]
    rw [hnone]
    exact .refl _
  · intro t ht job f hconsults
    rw [hfresh t ht] at hconsults
    cases hconsults

theorem State.Tour.steps (h : s₀.Tour env lost s) : ∃ n, Steps env n s₀ s := by
  induction h with
  | refl => exact ⟨0, .refl s₀⟩
  | act _ step ih =>
    obtain ⟨n, hsteps⟩ := ih
    exact ⟨n + 1, hsteps.trans (.cons step (.refl _))⟩

theorem State.Tour.of_steps {n : Nat} (h : Steps env n s s') (before : s₀.Tour env lost s) :
    ∃ more, s₀.Tour env (more ++ lost) s' := by
  induction h generalizing lost with
  | refl => exact ⟨[], before⟩
  | @cons _ a s _ _ step _ ih =>
    obtain ⟨more, hlater⟩ := ih (.act before step)
    refine ⟨more ++ s.cutOff a, ?_⟩
    rwa [List.append_assoc]

/-- What the steps keep that can follow on one another is kept on the way. -/
theorem State.Tour.induct {P : List Event → State σ → Prop} (h : s₀.Tour env lost s) (hs : P [] s₀)
    (hstep : ∀ a lost s s', s.step? env a = some s' → P lost s → P (s.cutOff a ++ lost) s') : P lost s := by
  induction h with
  | refl => exact hs
  | act _ step ih => exact hstep _ _ _ _ step ih

end Tours

end Walk

end TreeCensus
