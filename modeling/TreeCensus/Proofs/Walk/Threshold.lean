import TreeCensus.Policy
import TreeCensus.Proofs.Walk.Itinerary

/-!
# A limit on failures

A policy that tolerates a number of failures counts them as they come up, and that depends on how the tasks take
turns. But until the limit is passed a walk makes the same steps as one that tolerates everything, and that one
meets all failures of a full traversal. So whether a walk comes back does not depend on the turns.
-/

namespace TreeCensus

set_option autoImplicit false

/-- The policy as the fault handler of a walk, which keeps what it was offered. -/
def Policy.handler (p : Policy) (yields : Bool) : Walk.Handler (List Fault) Fault (Except Fault Bool) :=
  ⟨yields, fun seen f => ((p.offer seen f).1, (p.offer seen f).2.answer)⟩

namespace Walk

/-- A walk without a path handler that tolerates a number of failures and does not follow links. -/
structure Environment.Limited (env : Environment (List Fault)) (limit : Nat) : Prop where
  onFault : ∃ verbose yields, env.options.onFault = some ((Policy.tolerate limit verbose).handler yields)
  onPath : env.options.onPath = none
  links : env.options.walkLinks = false
  files : ∀ f, env.files.Raises f → f.kind ≠ .interrupted
  refusal : ∀ line, env.refusal line = none

/-- The fault handler keeps what it is asked about, and nothing else is kept. -/
structure Environment.Keeps (env : Environment (List Fault)) : Prop where
  onFault : ∃ handler, env.options.onFault = some handler ∧ ∀ seen f, (handler.act seen f).1 = seen ++ [f]
  onPath : env.options.onPath = none

/-- The fault that a task is about to ask the fault handler about. -/
def Cursor.consults? : Cursor → Option Fault
  | consult _ f => some f
  | giveBack next => next.consults?
  | _ => none

def Phase.consults? : Phase → Option Fault
  | consulting _ f => some f
  | _ => none

theorem Job.consults?_forgone (t : Task) (job : Job) : (job.forgone t).consults? = none := by
  cases job <;> rfl

section Memory

variable {env : Environment (List Fault)} {limit : Nat} {i n : Nat} {u : Task} {c : Cursor}
  {s s' : State (List Fault)} {a : Actor}

theorem Environment.Limited.keeps (h : env.Limited limit) : env.Keeps := by
  obtain ⟨verbose, yields, hhandler⟩ := h.onFault
  exact ⟨⟨_, hhandler, fun _ _ => rfl⟩, h.onPath⟩

theorem Environment.Keeps.lenient (h : env.Keeps) : env.lenient.Keeps := by
  obtain ⟨handler, hhandler, hkeeps⟩ := h.onFault
  exact ⟨⟨_, lenient_onFault hhandler, hkeeps⟩, h.onPath⟩

/-- Nothing else is kept than what the fault handler is asked about. -/
theorem Cursor.memory_move (henv : env.Keeps) (hc : ∀ job f, c ≠ .consult job f) (i : Nat) (u : Task)
    (s : State (List Fault)) :
    (c.move env i u s).Meets (fun _ _ s' => s'.memory = s.memory) fun s' => s'.memory = s.memory := by
  have hsilent := henv.onPath
  cases c with
  | consult job f => exact absurd rfl (hc job f)
  | conclude result => cases result <;> rfl
  | stop info tally reply =>
    simp only [move]
    cases reply.stop <;> rfl
  | follow o => cases o <;> simp only [move, hsilent] <;> rfl
  | onAnswer job f response => cases response <;> simp only [move] <;> (repeat' split) <;> rfl
  | onReply info tally response => rcases response with f | _ | _ <;> simp only [move] <;> (repeat' split) <;> rfl
  | begin job | answer job => cases job <;> simp only [move, hsilent] <;> (repeat' split) <;> rfl
  | _ =>
    simp only [move, hsilent]
    (repeat' split) <;> rfl

/-- The memory never shrinks. -/
theorem Cursor.memory_move_le (henv : env.Keeps) (i : Nat) (u : Task) (c : Cursor) (s : State (List Fault)) :
    (c.move env i u s).Meets (fun _ _ s' => s.memory.length ≤ s'.memory.length)
      fun s' => s.memory.length ≤ s'.memory.length := by
  by_cases hconsults : ∃ job f, c = .consult job f
  · obtain ⟨job, f, rfl⟩ := hconsults
    obtain ⟨handler, hhandler, hkeeps⟩ := henv.onFault
    simp only [move, hhandler]
    change _ ≤ (handler.act s.memory f).1.length
    rw [hkeeps, List.length_append]
    exact Nat.le_add_right _ _
  · have hsame := c.memory_move henv (fun job f heq => hconsults ⟨job, f, heq⟩) i u s
    cases hcourse : c.move env i u s with
    | goOn w e s₂ | done s₂ =>
      rw [hcourse] at hsame
      exact Nat.le_of_eq (congrArg List.length hsame).symm

theorem Cursor.memory_run (henv : env.Keeps) (i : Nat) (u : Task) (c : Cursor) (s : State (List Fault)) :
    s.memory.length ≤ (c.run env i u s).memory.length := by
  refine Cursor.run_of_moves (P := fun _ _ s₁ => s.memory.length ≤ s₁.memory.length)
    (Q := fun s' => s.memory.length ≤ s'.memory.length) ?_ u c s (Nat.le_refl _)
  intro v d s₁ hmore
  have hnext := d.memory_move_le henv i v s₁
  cases hcourse : d.move env i v s₁ with
  | goOn w e s₂ | done s₂ =>
    rw [hcourse] at hnext
    exact Nat.le_trans hmore hnext

theorem State.Fate.memory {σ : Type} {s s' : State σ} {k : Nat} {l : Level} (h : s.Fate k l s') :
    s'.memory = s.memory := by
  cases h <;> rfl

theorem State.memory_step (henv : env.Keeps) (hstep : s.step? env a = some s') :
    s.memory.length ≤ s'.memory.length := by
  cases a with
  | task i =>
    obtain ⟨t, -, hstep⟩ := Option.bind_eq_some_iff.mp hstep
    obtain ⟨c, s₁, hentry, rfl⟩ := exists_entry hstep
    have hsame : s₁.memory = s.memory := by cases State.enters hentry <;> rfl
    exact hsame ▸ c.memory_run henv i t s₁
  | level k =>
    obtain ⟨l, -, hstep⟩ := Option.bind_eq_some_iff.mp hstep
    exact Nat.le_of_eq (congrArg List.length (State.fate hstep).memory).symm

theorem State.Steps.memory (hsteps : State.Steps env n s s') (henv : env.Keeps) :
    s.memory.length ≤ s'.memory.length :=
  hsteps.induct (P := fun s' => s.memory.length ≤ s'.memory.length)
    (fun _ _ _ hstep hmore => Nat.le_trans hmore (State.memory_step henv hstep)) (Nat.le_refl _)

end Memory

/-- The faults that tasks wait to ask the fault handler about. -/
def State.waiting {σ : Type} (s : State σ) : List Fault := s.tasks.filterMap (·.phase.consults?)

/-- What has been offered is in the memory, unless the fault handler is yet to be asked about it. -/
def State.Noticed (s : State (List Fault)) : Prop := s.offered.Perm (s.memory ++ s.waiting)

/-- The same in the midst of a step. -/
structure Noticing (i : Nat) (c : Cursor) (s : State (List Fault)) : Prop where
  own : s.tasks[i]?.isSome = true
  offered : s.offered.Perm (s.memory ++ (c.consults?.toList ++
    (s.tasks.eraseIdx i).filterMap (·.phase.consults?)))

namespace Noticing

variable {env : Environment (List Fault)} {i : Nat} {t u : Task} {c d : Cursor} {s s' : State (List Fault)}

theorem still (h : Noticing i c s) (htasks : s'.tasks = s.tasks) (hoffered : s'.offered = s.offered)
    (hmemory : s'.memory = s.memory) (hc : d.consults? = c.consults?) : Noticing i d s' := by
  refine ⟨?_, ?_⟩
  · rw [htasks]
    exact h.own
  · rw [htasks, hoffered, hmemory, hc]
    exact h.offered

theorem rest (h : Noticing i c s) (s' : State (List Fault)) {phase : Phase} (new : List Task) (htasks : s'.tasks = s.tasks ++ new)
    (hfresh : ∀ t ∈ new, t.phase.consults? = none)
    (hoffered : s'.offered.Perm (s'.memory ++ (phase.consults?.toList ++
      (s.tasks.eraseIdx i).filterMap (·.phase.consults?)))) : (s'.setPhase i phase).Noticed := by
  obtain ⟨a, ha⟩ := Option.isSome_iff_exists.mp h.own
  have hlt := (List.getElem?_eq_some_iff.mp ha).1
  have hperm := (perm_modify (getElem?_append_of_some ha new) fun t : Task => { t with phase }).filterMap
    (·.phase.consults?)
  rw [List.eraseIdx_append_of_lt_length hlt, List.filterMap_cons, List.filterMap_append,
    List.filterMap_eq_nil_iff.mpr hfresh, List.append_nil] at hperm
  refine hoffered.trans (List.Perm.append_left _ ?_)
  unfold State.waiting
  change List.Perm _ ((s'.tasks.modify i fun t => { t with phase }).filterMap _)
  rw [htasks]
  refine .trans (.of_eq ?_) hperm.symm
  cases phase.consults? <;> rfl

theorem wait (h : Noticing i c s) (s' : State (List Fault)) {phase : Phase} (htasks : s'.tasks = s.tasks)
    (hoffered : s'.offered = s.offered)
    (hmemory : s'.memory = s.memory) (hc : phase.consults? = c.consults?) : (s'.setPhase i phase).Noticed := by
  refine h.rest s' [] (htasks.trans (List.append_nil _).symm) (List.forall_mem_nil _) ?_
  rw [hoffered, hmemory, hc]
  exact h.offered

theorem consult {job job' : Job} {f : Fault} {response : Except Fault Bool} (h : Noticing i (.consult job f) s)
    (hmemory : s'.memory = s.memory ++ [f]) (htasks : s'.tasks = s.tasks) (hoffered : s'.offered = s.offered) :
    Noticing i (.onAnswer job' f response) s' := by
  refine ⟨by rw [htasks]; exact h.own, ?_⟩
  rw [htasks, hoffered, hmemory, List.append_assoc]
  exact h.offered

theorem offer {job : Job} {f : Fault} (h : Noticing i (.offer job f) s) :
    (s.note (.offered f)).offered.Perm (s.memory ++ ([f] ++ (s.tasks.eraseIdx i).filterMap (·.phase.consults?))) :=
  (h.offered.cons f).trans List.perm_middle.symm

theorem move (henv : env.Keeps) (h : Noticing i c s) (u : Task) :
    (c.move env i u s).Meets (fun _ d s' => ¬ d.Sinks → Noticing i d s') State.Noticed := by
  obtain ⟨handler, hhandler, hkeeps⟩ := henv.onFault
  have hsilent := henv.onPath
  cases c with
  | conclude result =>
    have hrest : (s.setPhase i (.ended result)).Noticed := h.wait s rfl rfl rfl rfl
    cases result <;> exact hrest
  | log tally =>
    simp only [Cursor.move]
    split
    · exact fun _ => h.still rfl rfl rfl rfl
    · split
      · split
        · exact h.wait (s.note _) rfl rfl rfl rfl
        · exact fun _ => h.still rfl rfl rfl rfl
      · exact fun _ => h.still rfl rfl rfl rfl
  | accept tally => exact fun _ => h.still rfl rfl rfl rfl
  | seek job =>
    simp only [Cursor.move]
    split
    · exact fun _ => h.still rfl rfl rfl rfl
    · exact fun _ => h.still rfl rfl rfl rfl
    · next admission ticket _ => exact h.wait { s with admission } rfl rfl rfl rfl
  | follow o => cases o <;> simp only [Cursor.move, hsilent] <;> exact fun _ => h.still rfl rfl rfl rfl
  | enter found | onInfo found =>
    simp only [Cursor.move]
    (repeat' split) <;> exact fun _ => h.still rfl rfl rfl rfl
  | onTarget found target =>
    simp only [Cursor.move]
    split
    · exact fun _ => h.still rfl rfl rfl rfl
    · refine fun _ => ⟨?_, ?_⟩
      · obtain ⟨a, ha⟩ := Option.isSome_iff_exists.mp h.own
        change (s.tasks.modify i _)[i]?.isSome = true
        rw [List.getElem?_modify_eq, ha]
        rfl
      · change s.offered.Perm (s.memory ++ ([] ++ ((s.tasks.modify i _).eraseIdx i).filterMap _))
        rw [List.eraseIdx_modify_of_eq]
        exact h.offered
  | onEntries found names =>
    simp only [Cursor.move]
    split
    · exact fun _ => h.still rfl rfl rfl rfl
    · refine h.rest (s.openLevel _ _ _ _ _) _ rfl ?_ h.offered
      intro t ht
      obtain ⟨v, -, rfl⟩ := List.mem_map.mp ht
      rfl
  | giveBack next =>
    simp only [Cursor.move]
    split
    · exact fun _ => h.still rfl rfl rfl rfl
    · exact fun hsinks => absurd trivial hsinks
  | onAnswer job f response =>
    cases response with
    | error g => exact fun _ => h.still rfl rfl rfl rfl
    | ok taken =>
      simp only [Cursor.move]
      split
      · exact fun _ => h.still rfl rfl rfl (job.consults?_forgone u)
      · exact fun _ => h.still rfl rfl rfl rfl
  | consult job f =>
    simp only [Cursor.move, hhandler]
    exact fun _ => h.consult (hkeeps _ f) rfl rfl
  | offer job f =>
    simp only [Cursor.move, hhandler]
    split
    · exact fun _ => h.still rfl rfl rfl rfl
    · split
      · exact h.rest (s.note (.offered f)) [] (List.append_nil _).symm (List.forall_mem_nil _) h.offer
      · exact fun _ => ⟨h.own, h.offer⟩
  | onReply info tally response =>
    rcases response with f | _ | _ <;> simp only [Cursor.move] <;> (repeat' split) <;> exact fun _ => h.still rfl rfl rfl rfl
  | stop info tally reply =>
    simp only [Cursor.move]
    cases reply.stop <;> exact fun _ => h.still rfl rfl rfl rfl
  | report info tally =>
    simp only [Cursor.move, hsilent]
    exact fun _ => h.still rfl rfl rfl rfl
  | begin job =>
    cases job with
    | info => exact h.wait (s.note (.stated u.visit.place)) rfl rfl rfl rfl
    | target => exact h.wait (s.note (.linkRead u.visit.place)) rfl rfl rfl rfl
    | entries => exact h.wait (s.note (.listed u.visit.place)) rfl rfl rfl rfl
    | report info tally =>
      simp only [Cursor.move, hsilent]
      exact fun _ => h.still rfl rfl rfl rfl
  | answer job => cases job <;> simp only [Cursor.move] <;> (repeat' split) <;> exact fun _ => h.still rfl rfl rfl rfl

end Noticing

section Notice

variable {env : Environment (List Fault)} {capacity : Int} {others : List Pool.Stake} {i : Nat} {t : Task}
  {c : Cursor} {s s' s₁ : State (List Fault)}

/-- Where a step begins that is not bound to fail, the fault handler is asked what the task waited for. -/
theorem State.Noticed.enter (h : s.Noticed) (ht : s.tasks[i]? = some t) (henters : s.Enters env t c s₁)
    (hfine : ¬ c.Sinks) : Noticing i c s₁ := by
  have hperm := (perm_eraseIdx ht).filterMap (·.phase.consults?)
  rw [List.filterMap_cons] at hperm
  have hnow : ∀ {d : Cursor} {s₂ : State (List Fault)}, s₂.tasks = s.tasks → s₂.offered = s.offered →
      s₂.memory = s.memory → d.consults? = t.phase.consults? → Noticing i d s₂ := by
    intro d s₂ htasks hoffered hmemory hconsults
    refine ⟨by rw [htasks, ht]; rfl, ?_⟩
    rw [htasks, hoffered, hmemory, hconsults]
    refine h.trans (List.Perm.append_left _ (hperm.trans (.of_eq ?_)))
    cases t.phase.consults? <;> rfl
  cases henters with
  | ends | drops | refused | called | failed => exact absurd trivial hfine
  | starts phase | admitted phase _ _ | answers phase _ | consults phase _ | logged phase _ | resumes phase _ =>
    exact hnow rfl rfl rfl (by rw [phase]; rfl)

theorem Shared.noticed_step (h : Shared capacity others s) (henv : env.Keeps) {a : Actor}
    (hstep : s.step? env a = some s') (hfine : ¬ s'.Doomed) (hnoticed : s.Noticed) : s'.Noticed := by
  cases a with
  | task i =>
    obtain ⟨t, ht, hstep⟩ := Option.bind_eq_some_iff.mp hstep
    refine (h.along_fine (P := fun _ => Noticing i) (Q := State.Noticed) ht hstep hfine ?_ ?_).2
    · exact fun c s₁ hentry => hnoticed.enter ht (State.enters hentry)
    · exact fun u c s₁ _ _ hnow => hnow.move henv u
  | level k =>
    obtain ⟨l, hl, hstep⟩ := Option.bind_eq_some_iff.mp hstep
    obtain ⟨rfl, -, -⟩ := h.closes hl hstep hfine
    exact hnoticed

theorem State.noticed_start {caller : Caller (List Fault)} (hmemory : caller.memory = []) (paths : List Path) :
    (State.start env caller paths).Noticed := by
  have hwaiting : (State.start env caller paths).waiting = [] := by
    unfold waiting
    rw [List.filterMap_eq_nil_iff]
    intro t ht
    obtain ⟨v, -, rfl⟩ := List.mem_map.mp (show t ∈ (visits env paths).map _ from ht)
    rfl
  unfold Noticed
  rw [hwaiting, show (State.start env caller paths).memory = [] from hmemory]
  exact .refl _

/-- When all tasks have ended, all that was offered is in the memory. -/
theorem State.Noticed.memory (h : s.Noticed) (hended : ∀ t ∈ s.tasks, t.phase.isEnded = true) :
    s.offered.Perm s.memory := by
  have hwaiting : s.waiting = [] := by
    unfold waiting
    rw [List.filterMap_eq_nil_iff]
    intro t ht
    have hover := hended t ht
    cases hphase : t.phase with
    | consulting => simp [hphase, Phase.isEnded] at hover
    | _ => rfl
  unfold Noticed at h
  rwa [hwaiting, List.append_nil] at h

end Notice

section Limit

variable {env : Environment (List Fault)} {limit : Nat} {capacity : Int} {others : List Pool.Stake} {i n : Nat}
  {t u : Task} {c : Cursor} {s₀ s s' s₁ : State (List Fault)}

theorem Environment.Limited.candid (h : env.Limited limit) :
    env.lenient.Candid (fun _ => true) fun _ => .ok true := by
  obtain ⟨verbose, yields, hhandler⟩ := h.onFault
  refine ⟨⟨_, lenient_onFault hhandler, fun _ _ => rfl⟩, ?_, h.files, fun _ _ hfails => (nomatch hfails), h.refusal⟩
  intro handler hpath
  cases h.onPath.symm.trans hpath

theorem Environment.lenient_lenient {σ : Type} (env : Environment σ) : env.lenient.lenient = env.lenient := by
  unfold lenient
  rw [Option.map_map]
  rfl

/-- The other moves are the same if the fault handler takes everything. -/
theorem Cursor.move_lenient {σ : Type} {env : Environment σ} (hc : ∀ job f, c ≠ .consult job f) (s : State σ) :
    c.move env.lenient i u s = c.move env i u s := by
  cases c with
  | consult job f => exact absurd rfl (hc job f)
  | offer job f =>
    simp only [move, Environment.lenient]
    cases env.options.onFault <;> rfl
  | follow o => cases o <;> rfl
  | onAnswer job f response => cases response <;> rfl
  | onReply info tally response => rcases response with f | _ | _ <;> rfl
  | begin job | answer job => cases job <;> rfl
  | _ => rfl

/-- The policy takes a fault as long as there have been fewer than the limit. -/
theorem Environment.Limited.consult (henv : env.Limited limit) (job : Job) (f : Fault) (s : State (List Fault)) :
    ∃ response, (Cursor.consult job f).move env i u s =
        .goOn u (.onAnswer job f response) { s with memory := s.memory ++ [f] } ∧
      (Cursor.consult job f).move env.lenient i u s =
        .goOn u (.onAnswer job f (.ok true)) { s with memory := s.memory ++ [f] } ∧
      (s.memory.length < limit ∧ response = .ok true ∨
        limit ≤ s.memory.length ∧ response = .error (.tooManyErrors limit f)) := by
  obtain ⟨verbose, yields, hhandler⟩ := henv.onFault
  have hlenient := lenient_onFault hhandler
  simp only [Cursor.move, hhandler, hlenient]
  refine ⟨_, rfl, rfl, ?_⟩
  change _ ∧ (Policy.respond (.tolerate limit verbose) (s.memory.length + 1) f).answer = _ ∨
    _ ∧ (Policy.respond (.tolerate limit verbose) (s.memory.length + 1) f).answer = _
  unfold Policy.respond
  dsimp only
  split
  · exact .inr ⟨by omega, rfl⟩
  · exact .inl ⟨by omega, rfl⟩

/-- The task is about to end with a fault, or something else is wrong. -/
def State.Failing (s₀ : State (List Fault)) (i : Nat) (c : Cursor) (s : State (List Fault)) : Prop :=
  (Walk.Doomed (· ≠ i) s₀.posts s₀.ranks s.admission ∨ c.Sinks) ∨ ∃ job f g, c = .onAnswer job f (.error g)

theorem Shared.failing_move (h : Shared capacity others s) (ht : s.tasks[i]? = some t)
    (hamid : s.Amid env i u c s₁) (hfails : s.Failing i c s₁) :
    (c.move env i u s₁).Meets (fun _ => s.Failing i) State.Doomed := by
  rcases hfails with hdoomed | ⟨job, f, g, rfl⟩
  · have hnext := h.doomed_move ht hamid hdoomed
    cases hcourse : c.move env i u s₁ with
    | goOn v d s₂ =>
      rw [hcourse] at hnext
      exact .inl hnext
    | done s₂ =>
      rw [hcourse] at hnext
      exact hnext
  · exact .inl (.inr trivial)

/-- A walk that stays within the limit makes the same step as one that tolerates everything. One that passes the
limit is bound to fail, and the other one has come to as many failures. -/
theorem Shared.limited_task (h : Shared capacity others s) (henv : env.Limited limit)
    (hwithin : s.memory.length ≤ limit) (ht : s.tasks[i]? = some t) (hstep : s.stepTask? env i t = some s') :
    ∃ s'', s.stepTask? env.lenient i t = some s'' ∧
      (s' = s'' ∧ s'.memory.length ≤ limit ∨
        s'.Doomed ∧ limit < s'.memory.length ∧ limit < s''.memory.length) := by
  obtain ⟨c, s₁, hentry, rfl⟩ := State.exists_entry hstep
  refine ⟨c.run env.lenient i t s₁, ?_, ?_⟩
  · rw [State.stepTask?_eq, State.entry?_lenient, hentry]
    rfl
  generalize hend : c.run env.lenient i t s₁ = s''
  have hsame : s₁.memory = s.memory := by cases State.enters hentry <;> rfl
  refine Cursor.run_of_moves (P := fun u d s₂ => s.Amid env i u d s₂ ∧
    (d.run env.lenient i u s₂ = s'' ∧ s₂.memory.length ≤ limit ∨
      s.Failing i d s₂ ∧ limit < s₂.memory.length ∧ limit < s''.memory.length))
    (Q := fun s' => s' = s'' ∧ s'.memory.length ≤ limit ∨
      s'.Doomed ∧ limit < s'.memory.length ∧ limit < s''.memory.length) ?_ t c s₁
    ⟨.enter ht hentry, .inl ⟨hend, hsame ▸ hwithin⟩⟩
  rintro u d s₂ ⟨hamid, ⟨hlenient, hmemory⟩ | ⟨hfails, hmemory, hpassed⟩⟩
  · by_cases hconsults : ∃ job f, d = .consult job f
    · obtain ⟨job, f, rfl⟩ := hconsults
      obtain ⟨response, hmove, hlenient', hresponse⟩ := henv.consult (i := i) (u := u) job f s₂
      rw [← Cursor.last_move, hlenient'] at hlenient
      rw [hmove]
      refine ⟨.next hamid hmove, ?_⟩
      have hlength : (s₂.memory ++ [f]).length = s₂.memory.length + 1 := List.length_append
      rcases hresponse with ⟨hless, rfl⟩ | ⟨hfull, rfl⟩
      · exact .inl ⟨hlenient, hlength.trans_le hless⟩
      · have hpassed : limit < (s₂.memory ++ [f]).length := by omega
        refine .inr ⟨.inr ⟨job, f, _, rfl⟩, hpassed, ?_⟩
        rw [← hlenient]
        exact Nat.lt_of_lt_of_le hpassed (Cursor.memory_run henv.keeps.lenient i u (.onAnswer job f (.ok true))
          { s₂ with memory := s₂.memory ++ [f] })
    · have hother : ∀ job f, d ≠ .consult job f := fun job f heq => hconsults ⟨job, f, heq⟩
      have hkept := d.memory_move henv.keeps hother i u s₂
      rw [← Cursor.last_move, Cursor.move_lenient hother] at hlenient
      cases hcourse : d.move env i u s₂ with
      | goOn v e s₃ =>
        rw [hcourse] at hkept hlenient
        exact ⟨.next hamid hcourse, .inl ⟨hlenient, (congrArg List.length hkept).trans_le hmemory⟩⟩
      | done s₃ =>
        rw [hcourse] at hkept hlenient
        exact .inl ⟨hlenient, (congrArg List.length hkept).trans_le hmemory⟩
  · have hnext := h.failing_move ht hamid hfails
    have hmore := d.memory_move_le henv.keeps i u s₂
    cases hcourse : d.move env i u s₂ with
    | goOn v e s₃ =>
      rw [hcourse] at hnext hmore
      exact ⟨.next hamid hcourse, .inr ⟨hnext, Nat.lt_of_lt_of_le hmemory hmore, hpassed⟩⟩
    | done s₃ =>
      rw [hcourse] at hnext hmore
      exact .inr ⟨hnext, Nat.lt_of_lt_of_le hmemory hmore, hpassed⟩

/-- The walk has stayed within the limit so far, and one that tolerates everything can have come as far. -/
structure State.Within (env : Environment (List Fault)) (limit : Nat) (s₀ s : State (List Fault)) : Prop where
  memory : s.memory.length ≤ limit
  steps : ∃ n, State.Steps env.lenient n s₀ s

/-- The walk is bound to fail, and one that tolerates everything can have come to as many failures. -/
structure State.Exceeds (env : Environment (List Fault)) (limit : Nat) (s₀ s : State (List Fault)) : Prop where
  doomed : s.Doomed
  memory : limit < s.memory.length
  meets : ∃ n s', State.Steps env.lenient n s₀ s' ∧ limit < s'.memory.length

theorem Shared.limited_step (h : Shared capacity others s) (henv : env.Limited limit)
    (hcourse : s₀.Within env limit s ∨ s₀.Exceeds env limit s) {a : Actor} (hstep : s.step? env a = some s') :
    s₀.Within env limit s' ∨ s₀.Exceeds env limit s' := by
  rcases hcourse with ⟨hmemory, n, hsteps⟩ | ⟨hdoomed, hmemory, hmeets⟩
  · cases a with
    | task i =>
      obtain ⟨t, ht, hstep⟩ := Option.bind_eq_some_iff.mp hstep
      obtain ⟨s'', hlenient, hafter⟩ := h.limited_task henv hmemory ht hstep
      have hsteps' : State.Steps env.lenient (n + 1) s₀ s'' :=
        hsteps.concat (a := .task i) (Option.bind_eq_some_iff.mpr ⟨t, ht, hlenient⟩)
      rcases hafter with ⟨rfl, hwithin⟩ | ⟨hdoomed, hpassed, hmeets⟩
      · exact .inl ⟨hwithin, _, hsteps'⟩
      · exact .inr ⟨hdoomed, hpassed, _, s'', hsteps', hmeets⟩
    | level k =>
      have hsteps' : State.Steps env.lenient (n + 1) s₀ s' := hsteps.concat (a := .level k) hstep
      obtain ⟨l, -, hstep⟩ := Option.bind_eq_some_iff.mp hstep
      exact .inl ⟨(State.fate hstep).memory ▸ hmemory, _, hsteps'⟩
  · exact .inr ⟨h.doomed_step hstep hdoomed, Nat.lt_of_lt_of_le hmemory (State.memory_step henv.keeps hstep), hmeets⟩

/-- Until the limit is passed, it makes no difference that there is one. -/
theorem State.Steps.limited (hsteps : State.Steps env n s₀ s) (hshared : Shared capacity others s₀)
    (henv : env.Limited limit) (hmemory : s₀.memory.length ≤ limit) :
    s₀.Within env limit s ∨ s₀.Exceeds env limit s :=
  (hsteps.induct_shared (P := fun s => s₀.Within env limit s ∨ s₀.Exceeds env limit s) hshared
    (fun _ _ _ hshared hstep hcourse => hshared.limited_step henv hcourse hstep) (.inl ⟨hmemory, 0, .refl _⟩)).2

end Limit

/-- The fault with which the policy refuses to go on. -/
def OverLimit (limit : Nat) (f : Fault) : Prop := ∃ last, f = .tooManyErrors limit last

/-- No fault comes up by itself here but that the limit has been passed. -/
def Cursor.Limited (limit : Nat) : Cursor → Prop
  | onAnswer _ _ response => response = .ok true ∨ ∃ f, response = .error f ∧ OverLimit limit f
  | offer _ f => f ≠ .interrupted
  | onReply _ _ response => response = .ok true
  | stop _ _ _ => False
  | giveBack next => next.Limited limit
  | _ => True

section Blame

variable {env : Environment (List Fault)} {limit : Nat} {capacity : Int} {others : List Pool.Stake} {i n : Nat}
  {t u : Task} {c : Cursor} {s s' s₁ : State (List Fault)}

theorem Job.limited_forgone (t : Task) (job : Job) : (job.forgone t).Limited limit := by
  cases job <;> trivial

theorem Cursor.Limited.move (hc : c.Limited limit) (henv : env.Limited limit) (i : Nat) (u : Task)
    (s : State (List Fault)) : (c.move env i u s).Meets (fun _ d _ => d.Limited limit) fun _ => True := by
  have hsilent := henv.onPath
  have hgenuine : ∀ {f : Fault}, env.files.Raises f → f ≠ .interrupted := by
    rintro f hraises rfl
    exact henv.files _ hraises rfl
  cases c with
  | giveBack next =>
    simp only [Cursor.move]
    split
    · exact hc
    · trivial
  | onAnswer job f response =>
    cases response with
    | error g => trivial
    | ok taken =>
      simp only [Cursor.move]
      split
      · exact job.limited_forgone u
      · trivial
  | consult job f =>
    obtain ⟨response, hmove, -, hresponse⟩ := henv.consult (i := i) (u := u) job f s
    rw [hmove]
    exact hresponse.imp (·.2) fun hfull => ⟨_, hfull.2, f, rfl⟩
  | onReply info tally response =>
    obtain rfl : response = .ok true := hc
    trivial
  | stop info tally reply => exact hc.elim
  | report info tally =>
    simp only [Cursor.move, hsilent]
    rfl
  | follow o => cases o <;> simp only [Cursor.move, hsilent] <;> trivial
  | begin job => cases job <;> simp only [Cursor.move, hsilent] <;> trivial
  | answer job =>
    cases job with
    | report => trivial
    | info =>
      simp only [Cursor.move]
      split
      · trivial
      · next f hfails => exact hgenuine ⟨_, .inl hfails⟩
    | target =>
      simp only [Cursor.move]
      split
      · trivial
      · next f hfails => exact hgenuine ⟨_, .inr (.inl hfails)⟩
    | entries =>
      simp only [Cursor.move]
      split
      · trivial
      · next f hfails => exact hgenuine ⟨_, .inr (.inr hfails)⟩
  | _ =>
    simp only [Cursor.move]
    (repeat' split) <;> trivial

theorem Cursor.Limited.proper (hc : c.Limited limit) (s : State (List Fault)) :
    c.Proper (OverLimit limit) s := by
  cases c with
  | onAnswer job f response =>
    rcases hc with rfl | ⟨g, rfl, hover⟩
    · nofun
    · exact hover
  | offer job f => exact fun heq => absurd heq hc
  | onReply info tally response =>
    obtain rfl : response = .ok true := hc
    trivial
  | stop info tally reply => exact hc.elim
  | _ => trivial

/-- Whatever fails by itself fails because the limit has been passed. -/
theorem State.Steps.honest (hsteps : State.Steps env n s s') (henv : env.Limited limit) (hsize : 1 ≤ capacity)
    (hplugged : Plugged capacity others s)
    (hhonest : Honest (OverLimit limit) s.standings s.ranks s.admission) :
    Honest (OverLimit limit) s'.standings s'.ranks s'.admission := by
  refine (hsteps.induct (P := fun s => Plugged capacity others s ∧
    Honest (OverLimit limit) s.standings s.ranks s.admission) ?_ ⟨hplugged, hhonest⟩).2
  rintro a s s' hstep ⟨hplugged, hhonest⟩
  refine ⟨hplugged.step hstep, hhonest.step hplugged hsize ?_ ?_ hstep⟩
  · intro line f hrefusal
    cases (henv.refusal line).symm.trans hrefusal
  · intro i u c s₁ _ hamid
    obtain ⟨t, ht⟩ := hamid.task
    have hlimited := (State.along_step (P := fun _ c _ => c.Limited limit) (Q := fun _ => True) ht
      (fun c s₁ henters => by cases henters <;> trivial)
      fun u c s₁ _ hc => hc.move henv i u s₁).1 u c s₁ hamid
    exact hlimited.proper s₁

end Blame

/-- The faults of the calls that fail in a full traversal that lists these directories. -/
def Environment.failures {σ : Type} (env : Environment σ) (paths dirs : List Path) : List Fault :=
  ((env.plan fun _ => .ok true).traversal paths dirs).filterMap (env.failure? fun _ => .ok true)

/-- The calls of a full traversal do not depend on the order of the directories. -/
theorem Plan.Traverses.traversal_perm {plan : Plan} {paths dirs dirs' : List Path}
    (h : plan.Traverses paths dirs) (h' : plan.Traverses paths dirs') :
    (plan.traversal paths dirs).Perm (plan.traversal paths dirs') := by
  have hdirs : dirs.Perm dirs' := (List.perm_ext_iff_of_nodup h.nodup h'.nodup).mpr fun place =>
    (h.mem_iff place).trans (h'.mem_iff place).symm
  exact (((hdirs.flatMap_right _).append_left _).map _).append (hdirs.map _)

section Ends

variable {env : Environment (List Fault)} {limit n : Nat} {caller : Caller (List Fault)} {paths : List Path}
  {ids : Finset Text} {width : Nat} {s : State (List Fault)} {result : Except Fault Tally}

/-- A walk that tolerates everything does not fail. -/
theorem Environment.Limited.total_of_lenient (henv : env.Limited limit) (hpool : Pool.Serves caller.pool [])
    (hsize : 1 ≤ caller.pool.capacity) (hsteps : State.Steps env.lenient n (State.start env caller paths) s)
    (hresult : s.result? = some result) : ∃ total, result = .ok total := by
  cases result with
  | ok total => exact ⟨total, rfl⟩
  | error f =>
    obtain ⟨lost, htour⟩ := State.Tour.of_steps hsteps .refl
    have htolerant := (Tolerant.start env.lenient (fun _ => true) (fun _ => .ok true) paths hpool).of_tour
      henv.candid hsize htour
    exact absurd rfl (htolerant.parted hresult).1.2

/-- A walk that tolerates everything is never bound to fail. -/
theorem Environment.Limited.not_doomed (henv : env.Limited limit) (hbounded : env.files.Bounded ids width)
    (hpool : Pool.Serves caller.pool []) (hsize : 1 ≤ caller.pool.capacity)
    (hsteps : State.Steps env.lenient n (State.start env caller paths) s) : ¬ s.Doomed := by
  intro hdoomed
  have hfiles : env.lenient.files.Bounded ids width := hbounded
  have hlive := Live.start env.lenient paths hpool
  obtain ⟨m, s', hend, hresult⟩ :=
    hlive.exists_end hsize (terminates_of_bounded hfiles hpool hsize paths).bounded hsteps
  obtain ⟨result, hresult⟩ := Option.isSome_iff_exists.mp hresult
  obtain ⟨total, rfl⟩ := henv.total_of_lenient hpool hsize (hsteps.trans hend) hresult
  have hshared := (hlive.steps hsteps).toShared
  exact (hlive.steps (hsteps.trans hend)).toShared.not_doomed hresult (hend.doomed hshared hdoomed)

/-- A walk that tolerates everything meets the failures of a full traversal. -/
theorem Environment.Limited.meets (henv : env.Limited limit) (hbounded : env.files.Bounded ids width)
    (hdistinct : (env.plan fun _ => .ok true).Distinct paths) (hpool : Pool.Serves caller.pool [])
    (hsize : 1 ≤ caller.pool.capacity) (hmemory : caller.memory = [])
    (hsteps : State.Steps env.lenient n (State.start env caller paths) s) (hresult : s.result?.isSome = true) :
    ∃ dirs, (env.plan fun _ => .ok true).Traverses paths dirs ∧ s.memory.Perm (env.failures paths dirs) := by
  have hguides : (env.plan fun _ => .ok true).Guides env.lenient := by
    have hlenient := henv.candid.guides henv.links
    rwa [Environment.lenient_lenient] at hlenient
  have hshared := Shared.start env.lenient paths hpool
  have hfine := henv.not_doomed hbounded hpool hsize hsteps
  have hended : ∀ t ∈ s.tasks, t.phase.isEnded = true := fun t ht =>
    State.ended_of_result ((Live.start env.lenient paths hpool).steps hsteps).nested hresult
      (p := (t.level, t.phase)) (List.mem_map_of_mem ht)
  have htour := hsteps.onTour hshared hguides henv.onPath hdistinct (State.onTour_start hguides caller) hfine
  have hnoticed := hsteps.induct_fine hshared
    (fun _ _ _ hshared hstep hfine => hshared.noticed_step henv.keeps.lenient hstep hfine)
    (State.noticed_start hmemory paths) hfine
  have hsame : State.Steps env.lenient.lenient n (State.start env.lenient caller paths) s := by
    rw [Environment.lenient_lenient]
    exact hsteps
  have hoffered := offered_of_lenient henv.candid hpool hsize hsame hresult
  obtain ⟨dirs, htraverses, hstarts⟩ := htour.traverses hended
  exact ⟨dirs, htraverses, (hnoticed.memory hended).symm.trans (hoffered.trans (hstarts.filterMap _))⟩

end Ends

/-- How a walk from `s₀` comes back that tolerates a limited number of failures, however its steps follow one
another, if a full traversal comes to these failures. -/
structure State.Curbed (env : Environment (List Fault)) (limit : Nat) (failures : List Fault)
    (s₀ : State (List Fault)) : Prop where
  /-- The walk comes back. -/
  bounded : ∃ bound, ∀ n s, Steps env n s₀ s → n ≤ bound
  returns : ∀ n s, Steps env n s₀ s → s.Stuck env → s.result?.isSome = true
  total_iff : ∀ n s result, Steps env n s₀ s → s.result? = some result →
    ((∃ total, result = .ok total) ↔ failures.length ≤ limit)
  /-- With a total, the policy has recorded each failure. -/
  recorded : ∀ n s total, Steps env n s₀ s → s.result? = some (.ok total) →
    s.memory.Perm failures
  /-- Otherwise it has recorded more than it tolerates, and it is its fault that comes out. -/
  fault : ∀ n s f, Steps env n s₀ s → s.result? = some (.error f) →
    limit < s.memory.length ∧ OverLimit limit f

/-- A walk with a policy that tolerates `limit` failures comes back with a total if and only if a full traversal
meets no more than these, whatever the tasks' turns and the size of the pool. A file system without end need not
be walked to an end, hence the bound on it. -/
theorem Environment.Limited.curbed {env : Environment (List Fault)} {limit : Nat} {caller : Caller (List Fault)}
    {paths : List Path} {ids : Finset Text} {width : Nat} (henv : env.Limited limit)
    (hbounded : env.files.Bounded ids width) (hdistinct : (env.plan fun _ => .ok true).Distinct paths)
    (hpool : Pool.Serves caller.pool []) (hsize : 1 ≤ caller.pool.capacity) (hmemory : caller.memory = []) :
    ∃ dirs, (env.plan fun _ => .ok true).Traverses paths dirs ∧
      (State.start env caller paths).Curbed env limit (env.failures paths dirs) := by
  have hterminates := terminates_of_bounded hbounded hpool hsize paths
  have hfiles : env.lenient.files.Bounded ids width := hbounded
  have hlive := Live.start env.lenient paths hpool
  have hlenient := (terminates_of_bounded hfiles hpool hsize paths).bounded
  have hmeets := fun {n : Nat} {s : State (List Fault)}
      (hsteps : State.Steps env.lenient n (State.start env caller paths) s) (hresult : s.result?.isSome = true) =>
    henv.meets hbounded hdistinct hpool hsize hmemory hsteps hresult
  obtain ⟨m, s₁, hend, hresult₁⟩ := hlive.exists_end hsize hlenient (.refl _)
  obtain ⟨dirs, htraverses, -⟩ := hmeets hend hresult₁
  -- however the steps of such a walk follow one another, it comes to the same failures
  have hall : ∀ {n s}, State.Steps env.lenient n (State.start env caller paths) s → s.result?.isSome = true →
      s.memory.Perm (env.failures paths dirs) := by
    intro n s hsteps hresult
    obtain ⟨dirs', htraverses', hperm⟩ := hmeets hsteps hresult
    exact hperm.trans ((htraverses'.traversal_perm htraverses).filterMap _)
  have hlimited := fun {n : Nat} {s : State (List Fault)} (hsteps : State.Steps env n (State.start env caller paths) s) =>
    hsteps.limited (Shared.start env paths hpool) henv (by
      rw [show (State.start env caller paths).memory = [] from hmemory]
      exact Nat.zero_le _)
  have htotal : ∀ {n s total}, State.Steps env n (State.start env caller paths) s →
      s.result? = some (.ok total) → s.memory.length ≤ limit ∧ s.memory.Perm (env.failures paths dirs) := by
    intro n s total hsteps hresult
    rcases hlimited hsteps with ⟨hmemory, m, hsame⟩ | hexceeds
    · exact ⟨hmemory, hall hsame (by rw [hresult]; rfl)⟩
    · exact absurd hexceeds.doomed (((Live.start env paths hpool).steps hsteps).toShared.not_doomed hresult)
  have hfault : ∀ {n s f}, State.Steps env n (State.start env caller paths) s →
      s.result? = some (.error f) → limit < s.memory.length ∧ limit < (env.failures paths dirs).length := by
    intro n s f hsteps hresult
    rcases hlimited hsteps with ⟨_, m, hsame⟩ | ⟨_, hmemory, m, s', hsame, hmore⟩
    · obtain ⟨total, htotal⟩ := henv.total_of_lenient hpool hsize hsame hresult
      cases htotal
    · obtain ⟨m', s'', hend, hresult'⟩ := hlive.exists_end hsize hlenient hsame
      have hgrows := hend.memory henv.keeps.lenient
      rw [(hall (hsame.trans hend) hresult').length_eq] at hgrows
      exact ⟨hmemory, Nat.lt_of_lt_of_le hmore hgrows⟩
  refine ⟨dirs, htraverses, ⟨_, hterminates.bounded⟩, hterminates.returns, ?_, ?_, ?_⟩
  · intro n s result hsteps hresult
    cases result with
    | ok total =>
      obtain ⟨hmemory, hperm⟩ := htotal hsteps hresult
      exact iff_of_true ⟨total, rfl⟩ (hperm.length_eq ▸ hmemory)
    | error f => exact iff_of_false nofun (Nat.not_le.mpr (hfault hsteps hresult).2)
  · exact fun n s total hsteps hresult => (htotal hsteps hresult).2
  · intro n s f hsteps hresult
    refine ⟨(hfault hsteps hresult).1, ?_⟩
    exact (hsteps.honest henv hsize (.start env paths hpool) (.start _ env caller paths)).result hresult

/-- A walk of the directory `/a`, which holds the file `b` and a name `x` at which there is nothing any more, and of
`/a/x` itself: the same question fails twice, so a single failure is too few to tolerate. -/
theorem Environment.Limited.curbed_of_overlapping : ∃ (env : Nat → Environment (List Fault))
    (caller : Caller (List Fault)) (paths : List Path) (ids : Finset Text) (width : Nat),
    (∀ limit, (env limit).Limited limit ∧ (env limit).files.Bounded ids width ∧
      ((env limit).plan fun _ => .ok true).Distinct paths) ∧
    Pool.Serves caller.pool [] ∧ 1 ≤ caller.pool.capacity ∧ caller.memory = [] ∧
    ((State.start (env 1) caller paths).run (env 1) 12).result? =
      some (.error (.tooManyErrors 1 (.system .noEntry none))) ∧
    ((State.start (env 2) caller paths).run (env 2) 12).result? = some (.ok ⟨5, 1, 1, 0, 7⟩) ∧
    ∀ limit, ∃ dirs, ((env limit).plan fun _ => .ok true).Traverses paths dirs ∧
      (State.start (env limit) caller paths).Curbed (env limit) limit ((env limit).failures paths dirs) := by
  let paths : List Path := [['/', 'a'], ['/', 'a', '/', 'x']]
  let env (limit : Nat) : Environment (List Fault) := ⟨twoFiles [['b'], ['x']],
    ⟨.several paths, false, none, none, some ((Policy.tolerate limit false).handler true), none, defaultPriority⟩,
    fun _ => none⟩
  let caller : Caller (List Fault) := ⟨⟨2, 0, [], [], 0⟩, true, none, []⟩
  have hserves : Pool.Serves caller.pool [] := Pool.serves_create (show Pool.create 2 = .ok caller.pool from rfl)
  have henv : ∀ limit, (env limit).Limited limit := by
    intro limit
    refine ⟨⟨false, true, rfl⟩, rfl, rfl, ?_, fun _ => rfl⟩
    rintro f ⟨p, hf | hf | hf⟩
    · change (twoFiles [['b'], ['x']]).info p = .error f at hf
      unfold twoFiles at hf
      dsimp only at hf
      (repeat' split at hf) <;> cases hf
      decide
    · cases hf
    · cases hf
  have hbounded : (twoFiles [['b'], ['x']]).Bounded {"1|1".toList, "1|2".toList, "1|3".toList} 2 := by
    refine ⟨?_, ?_⟩
    · intro p info hinfo
      rcases info_twoFiles hinfo with ⟨hp, rfl⟩ | ⟨hp, rfl⟩ | ⟨hp, rfl⟩ <;> rw [hp] <;> decide
    · intro p names hnames
      obtain rfl := Except.ok.inj hnames
      decide
  have hdistinct : ∀ limit, ((env limit).plan fun _ => .ok true).Distinct paths :=
    fun limit p q f g _ _ hp hq heq => identity_twoFiles hp hq heq
  refine ⟨env, caller, paths, _, 2, fun limit => ⟨henv limit, hbounded, hdistinct limit⟩, hserves, by decide, rfl,
    by cbv, by cbv, fun limit => ?_⟩
  exact Environment.Limited.curbed (henv limit) hbounded (hdistinct limit) hserves (by decide) rfl

end Walk

end TreeCensus
