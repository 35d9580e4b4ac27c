import TreeCensus.Proofs.Walk.Blame
import TreeCensus.Proofs.Walk.Equivalence
import TreeCensus.Proofs.Walk.Measure
import TreeCensus.Proofs.Walk.Silence
import TreeCensus.Proofs.Walk.Twin

/-!
# Walks that are called off

The caller of a walk may cancel its source between any two steps, and so may the path handler when it
acts. If nothing else goes wrong, no call begins from then on, the fault handler is not offered the
cancellation, and the walk comes back with the fault that reports the cancellation, or with the total
that it would have come to without it.
-/

namespace TreeCensus

set_option autoImplicit false

/-- Some call on the file system fails with the fault. -/
def FileSystem.Raises (files : FileSystem) (f : Fault) : Prop :=
  ∃ p, files.info p = .error f ∨ files.target p = .error f ∨ files.entries p = .error f

namespace Walk

open Cancellation (Network)

variable {σ : Type}

/-- What happens to a walk at a time. -/
inductive Incident
  | act (a : Actor)
  /-- The caller cancels its source. -/
  | cancel (r : Reason)
  /-- The other users of the pool make `q` of it, and then have the stakes `others` in it. -/
  | share (q : Pool) (others : List Pool.Stake)

namespace Incident

def isAct : Incident → Bool
  | act _ => true
  | _ => false

def isCancel : Incident → Bool
  | cancel _ => true
  | _ => false

end Incident

/-- How a walk goes on from a state and the stakes of others, the latest incident first. Whatever a task
does in its steps is allowed. -/
inductive State.Passes (env : Environment σ) (allowed : Cursor → Prop) (s₀ : State σ)
    (others₀ : List Pool.Stake) : List Incident → State σ → List Pool.Stake → Prop
  | refl : Passes env allowed s₀ others₀ [] s₀ others₀
  | act {incidents : List Incident} {s s' : State σ} {others : List Pool.Stake} {a : Actor}
      (before : Passes env allowed s₀ others₀ incidents s others) (step : s.step? env a = some s')
      (fine : ∀ i u c s₁, a = .task i → s.Amid env i u c s₁ → allowed c) :
      Passes env allowed s₀ others₀ (.act a :: incidents) s' others
  | cancel {incidents : List Incident} {s : State σ} {others : List Pool.Stake}
      (before : Passes env allowed s₀ others₀ incidents s others) (r : Reason) :
      Passes env allowed s₀ others₀ (.cancel r :: incidents)
        { s with admission := s.admission.cancel callerToken r } others
  | share {incidents : List Incident} {s : State σ} {others others' : List Pool.Stake} {q : Pool}
      (before : Passes env allowed s₀ others₀ incidents s others)
      (sharing : Pool.Sharing s.admission.pool others q others') :
      Passes env allowed s₀ others₀ (.share q others' :: incidents)
        { s with admission := { s.admission with pool := q } } others'

/-- No fault of the file system or of a handler comes up here that is not taken in the end. -/
def Cursor.Swallowed : Cursor → Prop
  | onAnswer _ _ (.error _) => False
  | onAnswer _ f (.ok taken) => (taken || f.isMissing) = true
  | offer _ f => f ≠ .interrupted
  | onReply _ _ (.error f) => f.isCancellation = false
  | _ => True

section Moments

variable {env : Environment σ} {allowed : Cursor → Prop} {s₀ s s' s₁ : State σ}
  {others₀ others others' : List Pool.Stake} {incidents : List Incident} {capacity : Int} {i : Nat}
  {t u : Task} {c : Cursor}

/-- The fault reports the cancellation by the caller. -/
def State.Reports (s : State σ) (f : Fault) : Prop :=
  ∃ r, s.admission.network.reason? callerToken = some r ∧ f = .ofReason r

theorem Wired.callerToken_known {posts : List (Nat × Phase)} {sources : List Nat} {a : Admission}
    (h : Wired posts sources others a) : callerToken < a.network.tokens.length :=
  Nat.lt_of_succ_lt (h.known _ (List.mem_of_getElem? h.topmost)).2

/-- Whoever ends a step with a fault that is not taken ends it with the cancellation by the caller. -/
theorem Plugged.proper (h : Plugged capacity others s) (ht : s.tasks[i]? = some t)
    (hstep : s.stepTask? env i t = some s') (hamid : s.Amid env i u c s₁) (hfine : c.Swallowed) :
    c.Proper s'.Reports s₁ := by
  cases c with
  | onAnswer job f answer =>
    cases answer with
    | error g => exact hfine.elim
    | ok taken =>
      intro hleft
      rw [show (taken || f.isMissing) = true from hfine] at hleft
      cases hleft
  | offer job f => exact fun htold => absurd htold hfine
  | onReply info tally answer =>
    cases answer with
    | error f =>
      intro hoff
      rw [show f.isCancellation = false from hfine] at hoff
      cases hoff
    | ok counts => trivial
  | stop info tally reply =>
    intro r hstop hquiet
    have hknown := (h.wired_amid hamid).callerToken_known
    refine ⟨r, ?_, rfl⟩
    rw [← hamid.run_eq ht hstep, ← Cursor.last_move]
    simp only [Cursor.move, hstop]
    exact Cursor.reason?_run _ u (Network.reason?_cancel_first hknown hquiet r)
  | _ => trivial

/-- The fault handler has been offered faults of the file system and of the path handler alone. -/
def State.Offers (env : Environment σ) (s : State σ) : Prop :=
  ∀ f, .offered f ∈ s.trace → f.isCancellation = false ∨ env.files.Raises f

theorem Cursor.raises_move {f : Fault} {job : Job} (hc : c.Balanced) {s : State σ} {u : Task} (h : c.move env i t s = .goOn u (.offer job f) s') :
    f.isCancellation = false ∨ env.files.Raises f := by
  cases c with
  | giveBack next =>
    simp only [move] at h
    split at h
    · obtain ⟨-, rfl, -⟩ := Course.goOn.inj h
      cases hc
    · cases h
  | onReply info tally answer =>
    rcases answer with g | _ | _
    · simp only [move] at h
      split at h
      · cases h
      · next hoff =>
        obtain ⟨-, heq, -⟩ := Course.goOn.inj h
        obtain ⟨-, rfl⟩ := Cursor.offer.inj heq
        exact .inl (Bool.eq_false_iff.mpr hoff)
    · cases h
    · cases h
  | answer job =>
    right
    cases job <;> simp only [move] at h <;> (try split at h) <;> cases h <;>
      exact ⟨t.visit.place, by tauto⟩
  | follow o => cases o <;> simp only [move] at h <;> (repeat' split at h) <;> cases h
  | onAnswer job f answer => cases answer <;> simp only [move] at h <;> (repeat' split at h) <;> cases h
  | begin job => cases job <;> simp only [move] at h <;> (repeat' split at h) <;> cases h
  | _ =>
    simp only [move] at h
    (repeat' split at h) <;> cases h

theorem Plugged.offers_step (h : Plugged capacity others s) (hoffers : s.Offers env) {a : Actor}
    (hstep : s.step? env a = some s') : s'.Offers env := by
  cases a with
  | task i =>
    obtain ⟨t, ht, hstep⟩ := Option.bind_eq_some_iff.mp hstep
    refine (State.along_step (P := fun _ c s₁ => s₁.Offers env ∧
      ∀ job f, c = .offer job f → f.isCancellation = false ∨ env.files.Raises f)
      (Q := State.Offers env) ht ?_ ?_).2 s' hstep
    · intro c s₁ henters
      refine ⟨?_, ?_⟩
      · unfold State.Offers
        rw [henters.trace]
        exact hoffers
      · rintro job f rfl
        cases henters
    · intro u c s₁ hamid ⟨hoffers, hcursor⟩
      have hbalanced : c.Balanced := by
        cases (h.advances ht hamid).2 with
        | onward _ balanced _ _ _ => exact balanced
      obtain ⟨new, hnotes, htrace⟩ := c.notes_move env i u s₁
      have hthen : ∀ {s₂ : State σ}, s₂.trace = new ++ s₁.trace → s₂.Offers env := by
        intro s₂ htrace f hf
        rw [htrace] at hf
        rcases List.mem_append.mp hf with hnew | hold
        · cases hnotes with
          | nothing => cases hnew
          | logged => cases List.mem_singleton.mp hnew
          | offered job g =>
            obtain rfl := Event.offered.inj (List.mem_singleton.mp hnew)
            exact hcursor job f rfl
          | begun start =>
            rw [← List.mem_singleton.mp hnew] at start
            cases start
        · exact hoffers f hold
      cases hcourse : c.move env i u s₁ with
      | goOn v d s₂ =>
        rw [hcourse] at htrace
        refine ⟨hthen htrace, ?_⟩
        rintro job f rfl
        exact Cursor.raises_move hbalanced hcourse
      | done s₂ =>
        rw [hcourse] at htrace
        exact hthen htrace
  | level k =>
    obtain ⟨l, _, hstep⟩ := Option.bind_eq_some_iff.mp hstep
    unfold State.Offers
    rw [(State.fate hstep).trace]
    exact hoffers

end Moments

/-- What holds of a walk all the way, whenever its caller cancels it. -/
structure State.Obeys (env : Environment σ) (capacity : Int) (s₀ : State σ) (others₀ : List Pool.Stake)
    (incidents : List Incident) (s : State σ) (others : List Pool.Stake) : Prop where
  plugged : Plugged capacity others s
  attached : Attached s.stages s.admission.network
  honest : Honest s.Reports s.standings s.ranks s.admission
  offers : s.Offers env
  twin : s.Doomed ∨ ∃ s₂, s.Twin s₂ ∧
    s₀.Passes env.unstopped (fun _ => True) others₀ (incidents.filter (!·.isCancel)) s₂ others

section Obeys

variable {env : Environment σ} {s₀ s s' : State σ} {others₀ others others' : List Pool.Stake}
  {incidents : List Incident} {capacity : Int}

theorem State.Obeys.start (env : Environment σ) {caller : Caller σ} (paths : List Path)
    (hheeded : caller.heeded = true) (hpool : Pool.Serves caller.pool others) :
    Obeys env caller.pool.capacity (State.start env caller paths) others []
      (State.start env caller paths) others := by
  have hquiet := State.quiet_start env caller paths
  refine ⟨.start env paths hpool, ?_, .start _ env caller paths, ?_, .inr ⟨_, ⟨hquiet, rfl, rfl⟩, .refl⟩⟩
  · intro k source stage hk _ _
    have hsource : source = callerToken + 1 := by
      unfold State.start at hk
      rw [State.stages_openLevel] at hk
      exact (Prod.mk.inj (List.mem_singleton.mp (List.mem_of_getElem? hk))).1
    refine ⟨callerToken, hquiet callerToken, ?_⟩
    change ((Network.empty.addSource []).addSource (if caller.heeded then [callerToken] else [])).Hears
      callerToken (.source source)
    rw [hheeded, if_pos rfl, hsource]
    cases (Network.empty.addSource [] : Network Nat).joins callerToken with
    | late _ struck _ _ _ _ => cases struck
    | early _ _ hears => exact (hears _ _).mpr (.inr ⟨⟨rfl, by decide⟩, rfl⟩)
  · intro f hf
    cases hf

theorem State.Obeys.cancel (h : s₀.Obeys env capacity others₀ incidents s others) (r : Reason) :
    s₀.Obeys env capacity others₀ (.cancel r :: incidents)
      { s with admission := s.admission.cancel callerToken r } others := by
  have hknown := State.known_of_wired h.plugged.wired
  refine ⟨h.plugged.cancel r, ?_, ?_, h.offers, ?_⟩
  · exact h.attached.keeps fun _ _ _ hstage _ =>
      .cancel s.admission.network (hknown _ (List.mem_of_getElem? hstage)) callerToken r
  · refine (h.honest.mono fun f ⟨q, hq, hf⟩ => ⟨q, reason?_cancel hq callerToken r, hf⟩).mild
      (.cancel fun hquiet => ⟨r, ?_, rfl⟩)
    exact Network.reason?_cancel_first h.plugged.wired.callerToken_known hquiet r
  · rcases h.twin with hdoomed | ⟨s₂, htwin, hpasses⟩
    · exact .inl (hdoomed.cancel callerToken r)
    · by_cases hsame : (s.admission.cancel callerToken r).pool = s.admission.pool
      · exact .inr ⟨s₂, htwin.cancel callerToken r hsame, hpasses⟩
      · exact .inl (h.plugged.doomed_cancel hsame)

theorem State.Obeys.share (h : s₀.Obeys env capacity others₀ incidents s others) {q : Pool}
    (hsharing : Pool.Sharing s.admission.pool others q others') :
    s₀.Obeys env capacity others₀ (.share q others' :: incidents)
      { s with admission := { s.admission with pool := q } } others' := by
  refine ⟨h.plugged.share hsharing, h.attached, h.honest.share h.plugged.toShared hsharing, h.offers, ?_⟩
  rcases h.twin with hdoomed | ⟨s₂, ⟨hquiet, hlength, hsame⟩, hpasses⟩
  · exact .inl (h.plugged.doomed_share hdoomed hsharing)
  · have hpool : s₂.admission.pool = s.admission.pool := congrArg (·.admission.pool) hsame
    refine .inr ⟨{ s₂ with admission := { s₂.admission with pool := q } }, ⟨hquiet, hlength, ?_⟩,
      .share hpasses (hpool ▸ hsharing)⟩
    exact congrArg (fun x : State σ => { x with admission := { x.admission with pool := q } }) hsame

theorem State.Obeys.act (h : s₀.Obeys env capacity others₀ incidents s others) (hsize : 1 ≤ capacity)
    (hblind : env.Blind) (hlog : ∀ line, env.refusal line = none) {a : Actor}
    (hstep : s.step? env a = some s')
    (hfine : ∀ i u c s₁, a = .task i → s.Amid env i u c s₁ → c.Swallowed) :
    s₀.Obeys env capacity others₀ (.act a :: incidents) s' others := by
  have hlog' : ∀ line f, env.refusal line = some f → s'.Reports f := by
    intro line f hf
    rw [hlog line] at hf
    cases hf
  refine ⟨h.plugged.step hstep, h.plugged.attached_step hstep h.attached, ?_,
    h.plugged.offers_step h.offers hstep, ?_⟩
  · have hmono := h.honest.mono (Q := s'.Reports) fun f ⟨q, hq, hf⟩ => ⟨q, State.reason?_step hstep hq, hf⟩
    refine hmono.step h.plugged hsize hlog' ?_ hstep
    rintro i u c s₁ rfl hamid
    obtain ⟨t, ht, hstep⟩ := Option.bind_eq_some_iff.mp hstep
    exact h.plugged.proper ht hstep hamid (hfine i u c s₁ rfl hamid)
  · rcases h.twin with hdoomed | ⟨s₂, htwin, hpasses⟩
    · exact .inl (h.plugged.doomed_step hstep hdoomed)
    · rcases h.plugged.twin_step hblind hstep htwin with hdoomed | ⟨s₃, htwin, hstep'⟩
      · exact .inl hdoomed
      · exact .inr ⟨s₃, htwin, .act hpasses hstep' fun _ _ _ _ _ _ => trivial⟩

theorem State.Passes.obeys (hsize : 1 ≤ capacity) (hblind : env.Blind)
    (hlog : ∀ line, env.refusal line = none) (hstart : s₀.Obeys env capacity others₀ [] s₀ others₀)
    (h : s₀.Passes env Cursor.Swallowed others₀ incidents s others) :
    s₀.Obeys env capacity others₀ incidents s others := by
  induction h with
  | refl => exact hstart
  | act _ step fine ih => exact ih.act hsize hblind hlog step fine
  | cancel _ r ih => exact ih.cancel r
  | share _ sharing ih => exact ih.share sharing

end Obeys

section Consultations

/-- The fault handler is asked about nothing else. -/
def State.Consults (asked : Job → Fault → Prop) (s : State σ) : Prop :=
  ∀ p ∈ s.posts, ∀ job f, p.2 = .consulting job f → asked job f

/-- What holds of the cursor wherever a step begins, and from then on, as long as the fault handler is
asked about nothing else; and then it is asked about nothing else. -/
structure Environment.Watch (env : Environment σ) (fine : Cursor → Prop) (asked : Job → Fault → Prop) :
    Prop where
  enter : ∀ {s : State σ} {t : Task} {c : Cursor} {s₁ : State σ}, s.Enters env t c s₁ →
    (∀ job f, t.phase = .consulting job f → asked job f) → fine c
  move : ∀ (i : Nat) (t : Task) (c : Cursor) (s : State σ), fine c →
    (c.move env i t s).Meets (fun _ d _ => fine d) fun _ => True
  offer : ∀ job f, fine (.offer job f) → asked job f

variable {env : Environment σ} {fine allowed : Cursor → Prop} {asked : Job → Fault → Prop}
  {s₀ s s' : State σ} {others₀ others : List Pool.Stake} {incidents : List Incident}

theorem State.consults_start (env : Environment σ) (caller : Caller σ) (paths : List Path) :
    (State.start env caller paths).Consults asked := by
  intro p hp job f hconsults
  rw [posts_start] at hp
  rw [List.eq_of_mem_replicate hp] at hconsults
  cases hconsults

namespace State.Consults

theorem modify (h : s.Consults asked) {i : Nat} {phase : Phase}
    (hposts : s'.posts = s.posts.modify i fun p => (p.1, phase))
    (hphase : ∀ job f, phase = .consulting job f → asked job f) : s'.Consults asked := by
  intro p hp job f hconsults
  rw [hposts] at hp
  rcases mem_modify hp with hp | ⟨q, _, rfl⟩
  · exact h p hp job f hconsults
  · exact hphase job f hconsults

theorem task (h : s.Consults asked) (hwatch : env.Watch fine asked) {i : Nat} {t : Task}
    (ht : s.tasks[i]? = some t) :
    (∀ u c s₁, s.Amid env i u c s₁ → fine c) ∧ ∀ s', s.stepTask? env i t = some s' → s'.Consults asked := by
  refine along_step (P := fun _ c _ => fine c) (Q := Consults asked) ht ?_ ?_
  · intro c s₁ henters
    exact hwatch.enter henters (h _ (List.mem_of_getElem? (posts_of_task ht)))
  · intro u c s₁ hamid hc
    have hposts : s₁.posts = s.posts := by
      rw [posts_eq, posts_eq, (hamid.unmoved ht).2.1]
    have hnext := hwatch.move i u c s₁ hc
    have hdeed := c.deed_move env i u s₁
    generalize c.move env i u s₁ = course at hnext hdeed
    cases hdeed with
    | onward => exact hnext
    | conclude result => exact h.modify (by rw [posts_conclude, hposts]) (by simp)
    | @queue job b ticket asked =>
      have hqueued : (State.setPhase { s₁ with admission := b } i (.queued ticket job)).posts =
          s.posts.modify i fun p => (p.1, .queued ticket job) := by
        rw [posts_setPhase]
        change s₁.posts.modify i _ = _
        rw [hposts]
      exact h.modify hqueued (by simp)
    | rest phase _ standings _ _ offered =>
      refine h.modify (by rw [posts_of_standings standings, hposts]) ?_
      intro job f heq
      -- The task is going to ask about the fault that it was at, which was offered.
      rw [offered job f heq] at hc
      exact hwatch.offer job f hc
    | descend info names depth priority =>
      intro p hp job f hconsults
      rw [posts_setPhase, posts_openLevel, hposts] at hp
      have hold := mem_posts_of_descended hp (by simp [hconsults]) (by simp [hconsults])
      exact h p hold job f hconsults

end State.Consults

/-- What is watched holds wherever the steps of a run come. -/
theorem State.Passes.watched (h : s₀.Passes env (fun _ => True) others₀ incidents s others)
    (hwatch : env.Watch fine asked) (hallowed : ∀ c, fine c → allowed c) (hstart : s₀.Consults asked) :
    s₀.Passes env allowed others₀ incidents s others ∧ s.Consults asked := by
  induction h with
  | refl => exact ⟨.refl, hstart⟩
  | @act _ s _ _ a _ step _ ih =>
    obtain ⟨hbefore, hconsults⟩ := ih
    cases a with
    | task i =>
      obtain ⟨t, ht, hstep⟩ := Option.bind_eq_some_iff.mp step
      obtain ⟨hamid, hafter⟩ := hconsults.task hwatch ht
      refine ⟨.act hbefore step ?_, hafter _ hstep⟩
      intro j u c s₁ heq hmoment
      obtain rfl := Actor.task.inj heq
      exact hallowed c (hamid u c s₁ hmoment)
    | level k =>
      refine ⟨.act hbefore step (fun _ _ _ _ heq _ => by cases heq), ?_⟩
      obtain ⟨l, hl, hstep⟩ := Option.bind_eq_some_iff.mp step
      unfold State.Consults
      cases turns hl hstep with
      | drain _ _ posts _ _ | close _ _ _ posts _ _ =>
        rw [posts]
        exact hconsults
  | cancel _ r ih => exact ⟨.cancel ih.1 r, ih.2⟩
  | share _ sharing ih => exact ⟨.share ih.1 sharing, ih.2⟩

end Consultations

section Tolerance


/-- The fault handler takes the fault, or the fault only says that something is not there. -/
def Environment.Takes (env : Environment σ) (f : Fault) : Prop :=
  f ≠ .interrupted ∧ match env.options.onFault with
    | none => f.isMissing = true
    | some handler => ∀ memory, ∃ taken, (handler.act memory f).2 = .ok taken ∧ (taken || f.isMissing) = true

/-- All faults that the file system and the path handler can answer with are taken. -/
structure Environment.Tolerant (env : Environment σ) : Prop where
  files : ∀ f, env.files.Raises f → env.Takes f
  handler : ∀ handler, env.options.onPath = some handler → ∀ memory call f,
    (handler.act memory call).2.answer = .error f → f.isCancellation = false ∧ env.Takes f

/-- The fault at the cursor is taken. -/
def Cursor.Tolerable (env : Environment σ) : Cursor → Prop
  | onAnswer _ _ (.error _) => False
  | onAnswer _ f (.ok taken) => (taken || f.isMissing) = true
  | offer _ f | consult _ f => env.Takes f
  | onReply _ _ (.error f) => f.isCancellation = false ∧ env.Takes f
  | stop _ _ reply => reply.check = false ∧ ∀ f, reply.answer = .error f → f.isCancellation = false ∧ env.Takes f
  | giveBack next => next.Tolerable env
  | _ => True

theorem Cursor.Tolerable.swallowed {env : Environment σ} {c : Cursor} (h : c.Tolerable env) : c.Swallowed := by
  cases c with
  | onAnswer job f answer => cases answer <;> exact h
  | offer job f => exact h.1
  | onReply info tally answer =>
    cases answer with
    | error f => exact h.1
    | ok => trivial
  | _ => trivial

theorem Cursor.tolerable_forgone (env : Environment σ) (t : Task) (job : Job) :
    (job.forgone t).Tolerable env := by
  cases job <;> trivial

theorem Cursor.tolerable_move {env : Environment σ} (henv : env.Tolerant) (hblind : env.Blind) {i : Nat}
    {t : Task} {c : Cursor} (hc : c.Tolerable env) (s : State σ) :
    (c.move env i t s).Meets (fun _ d _ => d.Tolerable env) fun _ => True := by
  cases c with
  | giveBack next =>
    simp only [move]
    split
    · exact hc
    · trivial
  | onAnswer job f answer =>
    cases answer with
    | error g => exact hc.elim
    | ok taken =>
      simp only [move]
      split
      · exact tolerable_forgone env t job
      · trivial
  | consult job f =>
    obtain ⟨-, htakes⟩ := hc
    simp only [move]
    cases hhandler : env.options.onFault with
    | none =>
      rw [hhandler] at htakes
      simpa [Course.Meets, Tolerable] using htakes
    | some handler =>
      rw [hhandler] at htakes
      obtain ⟨taken, hanswer, htaken⟩ := htakes s.memory
      dsimp only [Course.Meets]
      rw [hanswer]
      exact htaken
  | offer job f =>
    simp only [move]
    (repeat' split) <;> first | exact hc | trivial
  | onReply info tally answer =>
    rcases answer with f | _ | _
    · simp only [move]
      split
      · trivial
      · exact hc.2
    · trivial
    · trivial
  | stop info tally reply =>
    obtain ⟨hcheck, hanswer⟩ := hc
    simp only [move, hcheck, Bool.false_eq_true, if_false]
    cases hreply : reply.answer with
    | error f => exact hanswer f hreply
    | ok => trivial
  | report info tally =>
    simp only [move]
    cases hhandler : env.options.onPath with
    | none => trivial
    | some handler => exact ⟨hblind handler hhandler _ _, fun f => henv.handler handler hhandler _ _ f⟩
  | begin job => cases job <;> simp only [move] <;> (repeat' split) <;> trivial
  | answer job =>
    cases job with
    | report info tally => trivial
    | _ =>
      simp only [move]
      split
      · trivial
      · next hfails => exact henv.files _ ⟨t.visit.place, by tauto⟩
  | follow o => cases o <;> simp only [move] <;> (repeat' split) <;> trivial
  | _ =>
    simp only [move]
    (repeat' split) <;> trivial

/-- The fault handler is asked about no fault but such that it takes. -/
def State.Tolerable (env : Environment σ) (s : State σ) : Prop :=
  ∀ p ∈ s.posts, ∀ job f, p.2 = .consulting job f → env.Takes f

variable {env : Environment σ} {s₀ s s' : State σ} {others₀ others : List Pool.Stake}
  {incidents : List Incident}

theorem Environment.Watch.tolerable (henv : env.Tolerant) (hblind : env.Blind) :
    env.Watch (Cursor.Tolerable env) fun _ f => env.Takes f := by
  refine ⟨?_, fun _ _ _ s hc => Cursor.tolerable_move henv hblind hc s, fun _ _ htakes => htakes⟩
  intro s t c s₁ henters hasked
  cases henters with
  | @consults job f phase _ => exact hasked job f phase
  | _ => trivial

/-- Where all faults are taken, nothing that a task does leaves one that nobody takes. -/
theorem State.Passes.swallowed (henv : env.Tolerant) (hblind : env.Blind) (hstart : s₀.Tolerable env)
    (h : s₀.Passes env (fun _ => True) others₀ incidents s others) :
    s₀.Passes env Cursor.Swallowed others₀ incidents s others ∧ s.Tolerable env :=
  h.watched (.tolerable henv hblind) (fun _ hc => hc.swallowed) hstart

theorem State.tolerable_start (env : Environment σ) (caller : Caller σ) (paths : List Path) :
    (State.start env caller paths).Tolerable env :=
  consults_start env caller paths

end Tolerance

section Heeds

variable {env : Environment σ} {allowed : Cursor → Prop} {s₀ s s' : State σ}
  {others₀ others others' : List Pool.Stake} {incidents : List Incident} {capacity : Int}

/-- Once the caller has cancelled its source, it stays cancelled, and no call begins any more. -/
theorem State.Passes.silent (hplugged : Plugged capacity others₀ s₀)
    (hattached : Attached s₀.stages s₀.admission.network) {r : Reason}
    (hr : s₀.admission.network.reason? callerToken = some r)
    (h : s₀.Passes env allowed others₀ incidents s others) :
    Plugged capacity others s ∧ Attached s.stages s.admission.network ∧
      s.admission.network.reason? callerToken = some r ∧ s.starts = s₀.starts := by
  induction h with
  | refl => exact ⟨hplugged, hattached, hr, rfl⟩
  | act _ step _ ih =>
    obtain ⟨hplugged, hattached, hr, hsame⟩ := ih
    refine ⟨hplugged.step step, hplugged.attached_step step hattached, State.reason?_step step hr, ?_⟩
    exact (hplugged.starts_step hattached step (by rw [hr]; nofun)).trans hsame
  | @cancel _ s _ _ q ih =>
    obtain ⟨hplugged, hattached, hr, hsame⟩ := ih
    have hknown := State.known_of_wired hplugged.wired
    refine ⟨hplugged.cancel q, ?_, reason?_cancel hr callerToken q, hsame⟩
    exact hattached.keeps fun _ _ _ hstage _ =>
      .cancel s.admission.network (hknown _ (List.mem_of_getElem? hstage)) callerToken q
  | share _ sharing ih =>
    obtain ⟨hplugged, hattached, hr, hsame⟩ := ih
    exact ⟨hplugged.share sharing, hattached, hr, hsame⟩

/-- As long as nobody shares the pool, whoever waits there is let in as it should. -/
theorem State.Passes.live (hlive : Live capacity s₀) (halone : ∀ q others, .share q others ∉ incidents)
    (h : s₀.Passes env allowed [] incidents s others) : Live capacity s := by
  induction h with
  | refl => exact hlive
  | act _ step _ ih => exact (ih fun q others hmem => halone q others (List.mem_cons_of_mem _ hmem)).step step
  | cancel _ r ih =>
    have hlive := ih fun q others hmem => halone q others (List.mem_cons_of_mem _ hmem)
    exact ⟨hlive.toShared.cancel r, Admission.fed_cancel hlive.fed callerToken r⟩
  | share _ _ _ => exact absurd List.mem_cons_self (halone _ _)

/-- A cancellation costs nothing of what a walk can do at most. -/
theorem State.Passes.measured {ids : Finset Text} {width budget : Nat}
    (hbounded : env.files.Bounded ids width) (hstart : Measured env ids width budget s₀)
    (h : s₀.Passes env allowed others₀ incidents s others) :
    incidents.countP Incident.isAct ≤ budget ∧
      Measured env ids width (budget - incidents.countP Incident.isAct) s := by
  induction h with
  | refl => exact ⟨Nat.zero_le _, hstart⟩
  | act _ step _ ih =>
    obtain ⟨hle, hmeasured⟩ := ih
    obtain ⟨hpos, hnext⟩ := hmeasured.step hbounded step
    rw [List.countP_cons_of_pos rfl]
    refine ⟨by omega, ?_⟩
    rwa [← Nat.sub_sub]
  | cancel _ r ih =>
    rw [List.countP_cons_of_neg (by simp [Incident.isAct])]
    exact ⟨ih.1, ih.2.places, ih.2.known, ih.2.distinct, ih.2.recursions, ih.2.work⟩
  | share _ sharing ih =>
    rw [List.countP_cons_of_neg (by simp [Incident.isAct])]
    exact ⟨ih.1, ih.2.places, ih.2.known, ih.2.distinct, ih.2.recursions, ih.2.work⟩

theorem State.Passes.onward (h : s₀.Passes env (fun _ => True) others₀ incidents s others) {n : Nat}
    (hsteps : Steps env n s s') :
    ∃ actors : List Actor,
      s₀.Passes env (fun _ => True) others₀ (actors.map .act ++ incidents) s' others := by
  induction hsteps generalizing incidents with
  | refl => exact ⟨[], h⟩
  | @cons _ a _ _ _ step _ ih =>
    obtain ⟨actors, hpasses⟩ := ih (.act h step fun _ _ _ _ _ _ => trivial)
    refine ⟨actors ++ [a], ?_⟩
    rwa [List.map_append, List.append_assoc]

/-- What a walk does for a caller that may cancel it at any time. -/
structure State.Heeds (env : Environment σ) (s₀ : State σ) (others₀ : List Pool.Stake)
    (incidents : List Incident) (s : State σ) (others : List Pool.Stake) : Prop where
  /-- The reason that is given first is the one that counts. -/
  cancelled : ∀ r, s.admission.network.reason? callerToken = none →
    (s.admission.cancel callerToken r).network.reason? callerToken = some r
  /-- No call begins after a cancellation between two steps, -/
  silent : ∀ r, s.admission.network.reason? callerToken = some r → ∀ allowed later s' others',
    s.Passes env allowed others later s' others' →
      s'.admission.network.reason? callerToken = some r ∧ s'.starts = s.starts
  /-- nor after a cancellation in the middle of a step. -/
  amid : ∀ r i u c s₁ s', s.Amid env i u c s₁ → s₁.admission.network.reason? callerToken = some r →
    s.step? env (.task i) = some s' →
      s'.admission.network.reason? callerToken = some r ∧ s'.starts = s₁.starts
  offers : ∀ f, .offered f ∈ s.trace → f.isCancellation = false ∨ env.files.Raises f
  /-- The walk comes back with the fault that reports the cancellation, or with what the same steps come
  to without it. -/
  result : ∀ result, s.result? = some result →
    (∃ r, s.admission.network.reason? callerToken = some r ∧ result = .error (.ofReason r)) ∨
    ∃ total s', result = .ok total ∧ s₀.Passes env.unstopped (fun _ => True) others₀
      (incidents.filter (!·.isCancel)) s' others ∧ s'.result? = some (.ok total) ∧ s'.trace = s.trace
  /-- If there are only finitely many objects, the walk makes boundedly many steps, whoever uses the pool
  besides and however often it is cancelled. -/
  bounded : ∀ ids width, env.files.Bounded ids width → ∃ budget, ∀ allowed later s' others',
    s₀.Passes env allowed others₀ later s' others' → later.countP Incident.isAct ≤ budget
  /-- A walk that has its pool for itself can go on until it comes back. -/
  comesBack : others₀ = [] → (∀ q others, .share q others ∉ incidents) → s.Stuck env →
    s.result?.isSome = true

/-- Whenever the caller of a walk cancels it, be it from within the path handler, the walk heeds it, if no
fault of the file system or of a handler is left that nobody takes. -/
theorem State.Passes.heeds {caller : Caller σ} {paths : List Path} (hheeded : caller.heeded = true)
    (hpool : Pool.Serves caller.pool others₀) (hsize : 1 ≤ caller.pool.capacity) (hblind : env.Blind)
    (hlog : ∀ line, env.refusal line = none)
    (h : (State.start env caller paths).Passes env Cursor.Swallowed others₀ incidents s others) :
    Heeds env (State.start env caller paths) others₀ incidents s others := by
  have hobeys := h.obeys hsize hblind hlog (.start env paths hheeded hpool)
  refine ⟨?_, ?_, ?_, hobeys.offers, ?_, ?_, ?_⟩
  · intro r hquiet
    exact Network.reason?_cancel_first hobeys.plugged.wired.callerToken_known hquiet r
  · intro r hr allowed later s' others' hlater
    obtain ⟨-, -, hr', hsame⟩ := hlater.silent hobeys.plugged hobeys.attached hr
    exact ⟨hr', hsame⟩
  · intro r i u c s₁ s' hamid hr hstep
    obtain ⟨t, ht, hstep⟩ := Option.bind_eq_some_iff.mp hstep
    rw [← hamid.run_eq ht hstep]
    exact ⟨Cursor.reason?_run c u hr, hobeys.plugged.starts_run hobeys.attached hamid (by rw [hr]; nofun)⟩
  · intro result hresult
    cases result with
    | error f =>
      obtain ⟨r, hr, rfl⟩ := hobeys.honest.result hresult
      exact .inl ⟨r, hr, rfl⟩
    | ok total =>
      rcases hobeys.twin with hdoomed | ⟨s₂, htwin, hpasses⟩
      · exact absurd hdoomed (hobeys.plugged.not_doomed hresult)
      · refine .inr ⟨total, s₂, rfl, hpasses, ?_, ?_⟩
        · rw [htwin.same]
          exact hresult
        · rw [htwin.same]
          rfl
  · intro ids width hbounded
    exact ⟨_, fun _ _ _ _ hlater => (hlater.measured hbounded (.start env caller paths ids width)).1⟩
  · intro hnone halone hstuck
    subst hnone
    have hlive := h.live (.start env paths hpool) halone
    exact hlive.result_of_stuck hsize hstuck

/-- Two files are walked with a single permit. The path handler cancels the walk when it is told of `b`,
and the caller does so once more; the item that is waiting then to be reported is not reported. -/
theorem State.Passes.heeds_of_stop : ∃ (env : Environment Unit) (caller : Caller Unit)
    (paths : List Path) (incidents : List Incident) (s : State Unit),
    incidents.countP Incident.isCancel = 1 ∧
    (State.start env caller paths).Passes env Cursor.Swallowed [] incidents s [] ∧
    s.result? = some (.error (.cancelledWith (.text ['x']))) ∧
    s.trace.countP (fun e => e matches .reported _) = 1 ∧
    Heeds env (State.start env caller paths) [] incidents s [] := by
  let paths : List Path := [['/', 'a', '/', 'b'], ['/', 'a', '/', 'c']]
  let options : Options Unit := ⟨.several paths, false, none,
    some ⟨false, fun _ c => ((), ⟨if c.info.inode = 2 then some (.scalar (.text ['x'])) else none, false,
      .ok true⟩)⟩,
    some ⟨false, fun _ _ => ((), .ok true)⟩, none, defaultPriority⟩
  let caller : Caller Unit := ⟨⟨1, 0, [], [], 0⟩, true, none, ()⟩
  let env : Environment Unit := ⟨twoFiles [['b'], ['c']], options, fun _ => none⟩
  have hserves : Pool.Serves caller.pool [] := by
    refine ⟨⟨?_, ?_, ?_, ?_, ?_, ?_, ?_, ?_⟩, ?_⟩ <;> decide
  have htolerant : env.Tolerant := by
    refine ⟨fun f hf => ?_, fun handler hhandler memory call f hfails => ?_⟩
    · obtain ⟨p, hf | hf | hf⟩ := hf
      · refine ⟨?_, fun _ => ⟨true, rfl, rfl⟩⟩
        rintro rfl
        exact info_twoFiles_ne _ p hf
      · cases hf
      · cases hf
    · obtain rfl := Option.some.inj hhandler
      cases hfails
  have hblind : env.Blind := by
    intro handler hhandler memory call
    obtain rfl := Option.some.inj hhandler
    rfl
  obtain ⟨n, hfirst, -⟩ := State.steps_foldl env
    [.task 0, .task 1, .task 0, .task 1, .task 1, .task 0, .task 0] (State.start env caller paths)
  have hstart : (State.start env caller paths).Passes env (fun _ => True) [] [] (State.start env caller paths) [] :=
    .refl
  obtain ⟨actors, hpasses⟩ := hstart.onward hfirst
  obtain ⟨m, hsecond, -⟩ := State.steps_foldl env [.task 1, .level 0, .level 0] _
  obtain ⟨later, hpasses⟩ := (hpasses.cancel (.scalar (.text ['y']))).onward hsecond
  obtain ⟨hpasses, -⟩ := hpasses.swallowed htolerant hblind (State.tolerable_start env caller paths)
  refine ⟨env, caller, paths, _, _, ?_, hpasses, ?_, ?_,
    hpasses.heeds rfl hserves (by decide) hblind fun _ => rfl⟩
  · have hacts : Incident.isCancel ∘ Incident.act = fun _ => false := rfl
    rw [List.countP_append, List.countP_cons_of_pos rfl, List.countP_append, List.countP_map,
      List.countP_map, hacts]
    simp
  · cbv
  · cbv

end Heeds

end Walk

end TreeCensus
