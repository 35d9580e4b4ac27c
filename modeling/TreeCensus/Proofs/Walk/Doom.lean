import TreeCensus.Proofs.Walk.Progress

/-!
# Walks that are bound to fail

When a task has ended with a fault, its level will close with a fault, the task that waits for that
level will end with a fault in its turn, and so on up to the topmost level. A task that waits with a
ticket for which it will get no permit will end with a fault as well. A walk of which one of these is
true is doomed, and stays so until it comes back, which it does not do with a total.
-/

namespace TreeCensus.Walk

set_option autoImplicit false

variable {σ : Type}

/-- The level comes to no total. -/
def Rank.Fails (r : Rank) : Prop :=
  r.stage.isClosed = false ∧ r.failure ≠ none ∨ ∃ f, r.stage = .closed (.error f)

/-- Something is wrong that ends at the topmost level; only some of the tasks count. -/
inductive Doomed (who : Nat → Prop) (posts : List (Nat × Phase)) (ranks : List Rank) (a : Admission) : Prop
  | top {r : Rank} (rank : ranks[0]? = some r) (fails : r.Fails)
  | level {k i : Nat} {r : Rank} {p : Nat × Phase} (rank : ranks[k]? = some r) (fails : r.Fails)
      (counts : who i) (post : posts[i]? = some p) (awaits : p.2.Awaits k)
  | ticket {i ticket : Nat} {p : Nat × Phase} {job : Job} {y : Settlement} (counts : who i)
      (post : posts[i]? = some p) (queued : p.2 = .queued ticket job) (settled : (ticket, y) ∈ a.pool.settled)
      (denied : y ≠ .granted)

namespace Doomed

variable {who who' : Nat → Prop} {posts posts' : List (Nat × Phase)} {ranks ranks' : List Rank}
  {a b : Admission}

/-- Failures of levels, waiting tasks and outcomes of tickets stay. -/
theorem stays (h : Doomed who posts ranks a)
    (hranks : ∀ (k : Nat) (r : Rank), ranks[k]? = some r → r.Fails → ∃ r', ranks'[k]? = some r' ∧ r'.Fails)
    (hposts : ∀ (i : Nat) (p : Nat × Phase), who i → posts[i]? = some p → who' i ∧ posts'[i]? = some p)
    (hsettled : ∀ (i : Nat) (p : Nat × Phase) (ticket : Nat) (job : Job) (y : Settlement), who i →
      posts[i]? = some p → p.2 = .queued ticket job → (ticket, y) ∈ a.pool.settled →
        (ticket, y) ∈ b.pool.settled) : Doomed who' posts' ranks' b := by
  cases h with
  | top rank fails =>
    obtain ⟨r', hr', hfails⟩ := hranks 0 _ rank fails
    exact .top hr' hfails
  | level rank fails counts post awaits =>
    obtain ⟨r', hr', hfails⟩ := hranks _ _ rank fails
    obtain ⟨hcounts, hpost⟩ := hposts _ _ counts post
    exact .level hr' hfails hcounts hpost awaits
  | ticket counts post queued settled denied =>
    obtain ⟨hcounts, hpost⟩ := hposts _ _ counts post
    exact .ticket hcounts hpost queued (hsettled _ _ _ _ _ counts post queued settled) denied

theorem settles (h : Doomed who posts ranks a) (hsettled : a.pool.settled ⊆ b.pool.settled) :
    Doomed who posts ranks b :=
  h.stays (fun _ r hr hfails => ⟨r, hr, hfails⟩) (fun _ _ hi hp => ⟨hi, hp⟩)
    fun _ _ _ _ _ _ _ _ he => hsettled he

/-- A level that is open and has a failure fails, and so does all that is above it. -/
theorem of_failure {net : Cancellation.Network Nat} (hnested : Nested posts (ranks.map fun r => (r.source, r.stage)) net)
    {k : Nat} {r : Rank} (hr : ranks[k]? = some r) (hopen : r.stage.isClosed = false)
    (hfailure : r.failure ≠ none) (a : Admission) :
    Doomed (fun i => ∀ p, posts[i]? = some p → p.1 < k) posts ranks a := by
  rcases Nat.eq_zero_or_pos k with rfl | hk
  · exact .top hr (.inl ⟨hopen, hfailure⟩)
  · obtain ⟨p, hp, hlt, hawaits⟩ := hnested.awaited k r.source r.stage hk
      (by rw [List.getElem?_map, hr]; rfl) hopen
    obtain ⟨i, hi⟩ := List.getElem?_of_mem hp
    refine .level hr (.inl ⟨hopen, hfailure⟩) ?_ hi hawaits
    intro q hq
    rw [← Option.some.inj (hi.symm.trans hq)]
    exact hlt

end Doomed

/-- The task is about to end with a fault. -/
def Cursor.Sinks : Cursor → Prop
  | conclude (.error _) => True
  | giveBack next => next.Sinks
  | _ => False

/-- Whoever is about to end with a fault does. -/
theorem Cursor.Sinks.move {env : Environment σ} {i : Nat} {t : Task} {s : State σ} {c : Cursor}
    (h : c.Sinks) : (∃ f, c = .conclude (.error f)) ∨
      ∃ next d s', c = .giveBack next ∧ c.move env i t s = .goOn t d s' ∧ d.Sinks := by
  cases c with
  | conclude result =>
    cases result with
    | error f => exact .inl ⟨f, rfl⟩
    | ok share => cases h
  | giveBack next =>
    right
    simp only [Cursor.move]
    split
    · exact ⟨next, next, _, rfl, rfl, h⟩
    · exact ⟨next, _, _, rfl, rfl, trivial⟩
  | _ => cases h

section Steps

variable {env : Environment σ} {capacity : Int} {others : List Pool.Stake} {s s' s₁ s₂ : State σ}
  {i : Nat} {t u : Task} {c d : Cursor}

/-- The walk will not come back with a total. -/
def State.Doomed (s : State σ) : Prop := Walk.Doomed (fun _ => True) s.posts s.ranks s.admission

theorem Cursor.Deals.settled {b : Admission} (h : c.Deals t s b) :
    s.admission.pool.settled ⊆ b.pool.settled := by
  cases h with
  | nothing => exact List.Subset.refl _
  | grant asked =>
    rw [(Pool.request_none (Admission.ask_cases asked).2.2.1).2]
    exact List.Subset.refl _
  | release next => exact Pool.settled_release _ 1
  | cancel _ => exact (s.admission.settles_cancel callerToken _).subset

/-- A task that begins its step takes nothing from the tickets of the others. -/
theorem Shared.settled_enter (h : Shared capacity others s) (ht : s.tasks[i]? = some t)
    (henters : s.Enters env t c s₁) (j : Nat) (p : Nat × Phase) (ticket : Nat) (job : Job) (y : Settlement)
    (hij : j ≠ i) (hp : s.posts[j]? = some p) (hqueued : p.2 = .queued ticket job)
    (hy : (ticket, y) ∈ s.admission.pool.settled) : (ticket, y) ∈ s₁.admission.pool.settled := by
  have hcollect : ∀ {own : Nat} {job' : Job} {b : Admission} {failure : Option Fault},
      t.phase = .queued own job' → s.admission.collect? own 1 (some (s.level t.level).source)
        t.interrupted = some (b, failure) → (ticket, y) ∈ b.pool.settled := by
    intro own job' b failure hphase hcollect
    refine Pool.settled_collect (Admission.collect?_cases hcollect).1 hy ?_
    rintro rfl
    exact hij (h.queued_once hp (State.posts_of_task ht) hqueued hphase)
  cases henters with
  | refused phase collected => exact hcollect phase collected
  | called phase collected _ => exact hcollect phase collected
  | admitted phase collected _ => exact hcollect phase collected
  | _ => exact hy

/-- If it is the task itself that dooms the walk, it is about to end with a fault. -/
theorem Shared.doomed_enter (h : Shared capacity others s) (hdoomed : s.Doomed)
    (ht : s.tasks[i]? = some t) (henters : s.Enters env t c s₁) :
    Doomed (· ≠ i) s.posts s.ranks s₁.admission ∨ c.Sinks := by
  have hsettled := h.settled_enter ht henters
  cases hdoomed with
  | top rank fails => exact .inl (.top rank fails)
  | @level k j r p rank fails _ post awaits =>
    by_cases hij : j = i
    · subst hij
      obtain rfl := Option.some.inj (post.symm.trans (State.posts_of_task ht))
      -- The task waits for the level that fails: it is told to end, or that level has closed with its fault.
      obtain ⟨info, hphase⟩ := awaits
      have hother : ∀ {phase : Phase}, t.phase = phase → ¬ phase.Awaits k → False :=
        fun heq hnot => hnot ⟨info, heq ▸ hphase⟩
      right
      cases henters with
      | ends => trivial
      | failed => trivial
      | drops _ busy =>
        rw [show t.phase = _ from hphase] at busy
        cases busy
      | @resumes m found total phase closed =>
        obtain ⟨rfl, rfl⟩ := Phase.descending.inj (phase.symm.trans hphase)
        obtain ⟨l, hl, rfl⟩ := State.level_of_rank _ rank
        rw [s.level_of_getElem? hl] at closed
        rcases fails with ⟨hopen, _⟩ | ⟨f, hclosed⟩
        · rw [show l.rank.stage = _ from closed] at hopen
          cases hopen
        · cases hclosed.symm.trans closed
      | starts phase | refused phase _ | called phase _ _ | admitted phase _ _ | answers phase _
      | consults phase _ | logged phase _ => cases phase.symm.trans hphase
    · exact .inl (.level rank fails hij post awaits)
  | @ticket j ticket p job y _ post queued settled denied =>
    by_cases hij : j = i
    · subst hij
      obtain rfl := Option.some.inj (post.symm.trans (State.posts_of_task ht))
      right
      -- The task collects its own ticket, which was refused.
      cases henters with
      | ends _ _ unsettled => exact absurd queued (unsettled ticket job)
      | refused => trivial
      | called => trivial
      | drops _ busy =>
        rw [show t.phase = _ from queued] at busy
        cases busy
      | @admitted own _ b phase collected _ =>
        obtain ⟨rfl, rfl⟩ := Phase.queued.inj (phase.symm.trans queued)
        have hgranted := Pool.collect_none (Admission.collect?_cases collected).1
        have hnodup := h.serves_all.1.nodup_settled
        have heq := List.inj_on_of_nodup_map hnodup hgranted settled rfl
        exact absurd (Prod.mk.inj heq).2.symm denied
      | starts phase | answers phase _ | consults phase _ | logged phase _ | failed phase _
      | resumes phase _ => cases phase.symm.trans queued
    · exact .inl (.ticket hij post queued (hsettled j p ticket job y hij post queued settled) denied)

theorem Shared.doomed_move (h : Shared capacity others s) (ht : s.tasks[i]? = some t)
    (hamid : s.Amid env i u d s₂) (hdoomed : Doomed (· ≠ i) s.posts s.ranks s₂.admission ∨ d.Sinks) :
    (d.move env i u s₂).Meets (fun _ c s₃ => Doomed (· ≠ i) s.posts s.ranks s₃.admission ∨ c.Sinks)
      State.Doomed := by
  obtain ⟨hplace, hstandings, hranks⟩ := hamid.unmoved ht
  have hposts : s₂.posts = s.posts := by rw [State.posts_eq, State.posts_eq, hstandings]
  have hmodify : ∀ {phase : Phase} {j : Nat} {p : Nat × Phase}, j ≠ i → s.posts[j]? = some p →
      True ∧ (s.posts.modify i fun p => (p.1, phase))[j]? = some p := by
    intro phase j p hij hp
    rw [List.getElem?_modify_ne _ _ hij.symm]
    exact ⟨trivial, hp⟩
  have hfailed : ∀ {f : Fault} (k : Nat) (r : Rank), s.ranks[k]? = some r → r.Fails →
      ∃ r', (s.ranks.modify t.level fun r => { r with failure := r.failure.or (some f) })[k]? = some r' ∧
        r'.Fails := by
    intro f k r hr hfails
    rw [List.getElem?_modify, hr]
    refine ⟨_, rfl, ?_⟩
    split
    · exact hfails.imp_left fun ⟨hopen, _⟩ => ⟨hopen, by cases r.failure <;> simp⟩
    · exact hfails
  rcases hdoomed with hdoomed | hsinks
  · have hdeed := d.deed_move env i u s₂
    generalize d.move env i u s₂ = course at hdeed
    cases hdeed with
    | onward _ _ _ deals => exact .inl (hdoomed.settles deals.settled)
    | conclude result =>
      change Doomed _ (s₂.conclude i u result).posts (s₂.conclude i u result).ranks _
      rw [State.posts_conclude, State.admission_conclude, hposts]
      cases result with
      | ok share =>
        rw [State.ranks_conclude_ok, hranks]
        exact hdoomed.stays (fun _ r hr hf => ⟨r, hr, hf⟩) (fun _ _ => hmodify) fun _ _ _ _ _ _ _ _ => id
      | error f =>
        rw [State.ranks_conclude_error, hranks, hplace]
        exact hdoomed.stays hfailed (fun _ _ => hmodify) fun _ _ _ _ _ _ _ _ => id
    | @queue job b ticket asked =>
      change Doomed _ (State.posts (State.setPhase { s₂ with admission := b } i _)) s₂.ranks b
      rw [State.posts_setPhase, hranks]
      change Doomed _ (s₂.posts.modify i _) _ _
      rw [hposts]
      have hsettled := (Pool.request_some (Admission.ask_cases asked).2.2.1).2.2
      exact hdoomed.stays (fun _ r hr hf => ⟨r, hr, hf⟩) (fun _ _ => hmodify)
        fun _ _ _ _ _ _ _ _ => by rw [hsettled]; exact id
    | @rest _ s₃ phase _ standings ranks admission =>
      change Doomed _ s₃.posts s₃.ranks s₃.admission
      rw [State.posts_of_standings standings, ranks, admission, hposts, hranks]
      exact hdoomed.stays (fun _ r hr hf => ⟨r, hr, hf⟩) (fun _ _ => hmodify) fun _ _ _ _ _ _ _ _ => id
    | descend info names depth priority =>
      have hstill (s : State σ) (phase : Phase) : (s.setPhase i phase).ranks = s.ranks := rfl
      change Doomed _ (State.posts _) (State.ranks _) _
      rw [hstill, State.posts_setPhase, State.posts_openLevel, State.ranks_openLevel, hposts, hranks]
      refine hdoomed.stays ?_ ?_ fun _ _ _ _ _ _ _ _ => id
      · intro k r hr hf
        rw [List.getElem?_append_left (List.getElem?_eq_some_iff.mp hr).1]
        exact ⟨r, hr, hf⟩
      · intro j p hij hp
        rw [List.getElem?_modify_ne _ _ hij.symm,
          List.getElem?_append_left (List.getElem?_eq_some_iff.mp hp).1]
        exact ⟨trivial, hp⟩
  · rcases @Cursor.Sinks.move _ env i u s₂ _ hsinks with ⟨f, rfl⟩ | ⟨next, e, s₃, rfl, hmove, hsinks⟩
    · -- the level of the task fails, and the task that waits for it is another one
      obtain ⟨l, hl, hopen⟩ := h.level_open ht (h.advances ht hamid).1.1
      have hsame : (s.ranks.modify t.level fun r => { r with failure := r.failure.or (some f) }).map
          (fun r => (r.source, r.stage)) = s.stages := by
        rw [State.stages_eq]
        exact map_modify_of_eq (f := fun r : Rank => { r with failure := r.failure.or (some f) })
          (fun _ => rfl) s.ranks t.level
      have hrank : (s.ranks.modify t.level fun r => { r with failure := r.failure.or (some f) })[t.level]? =
          some { l.rank with failure := l.failure.or (some f) } := by
        rw [List.getElem?_modify_eq, s.rank_of_level t.level hl]
        rfl
      have hbound := Doomed.of_failure (hsame ▸ h.nested) hrank hopen (by cases l.failure <;> simp)
        s₂.admission
      change Doomed _ (s₂.conclude i u (.error f)).posts (s₂.conclude i u (.error f)).ranks _
      rw [State.posts_conclude, State.ranks_conclude_error, State.admission_conclude, hposts, hranks, hplace]
      refine hbound.stays (fun _ r hr hf => ⟨r, hr, hf⟩) ?_ fun _ _ _ _ _ _ _ _ => id
      intro j p hbelow hp
      refine hmodify ?_ hp
      rintro rfl
      obtain rfl := Option.some.inj (hp.symm.trans (State.posts_of_task ht))
      exact absurd (hbelow _ hp) (Nat.lt_irrefl _)
    · rw [hmove]
      exact .inr hsinks

/-- Whoever is about to end with a fault at some moment of its step dooms the walk. -/
theorem Shared.doomed_run (h : Shared capacity others s) (ht : s.tasks[i]? = some t)
    (hamid : s.Amid env i u d s₂) (hdoomed : Doomed (· ≠ i) s.posts s.ranks s₂.admission ∨ d.Sinks) :
    (d.run env i u s₂).Doomed := by
  refine Cursor.run_of_moves (Q := State.Doomed) (P := fun u d s₂ => s.Amid env i u d s₂ ∧
    (Doomed (· ≠ i) s.posts s.ranks s₂.admission ∨ d.Sinks)) ?_ u d s₂ ⟨hamid, hdoomed⟩
  rintro u d s₂ ⟨hamid, hdoomed⟩
  have hnext := h.doomed_move ht hamid hdoomed
  cases hcourse : d.move env i u s₂ with
  | goOn v e s₃ =>
    rw [hcourse] at hnext
    exact ⟨.next hamid hcourse, hnext⟩
  | done s₃ =>
    rw [hcourse] at hnext
    exact hnext

theorem State.Fate.doomed {k : Nat} {l : Level} (hl : s.levels[k]? = some l) (h : s.Fate k l s')
    (hdoomed : s.Doomed) : s'.Doomed := by
  have hrank := s.rank_of_level k hl
  cases h with
  | @fails f runs failure =>
    generalize hbefore : ({ s with admission := s.admission.cancel l.source (.fault f) } : State σ) = s₁
    have hposts : s₁.posts = s.posts := by rw [← hbefore]; rfl
    have hranks : s₁.ranks = s.ranks := by rw [← hbefore]; rfl
    have hadmission : s₁.admission = s.admission.cancel l.source (.fault f) := by rw [← hbefore]
    unfold Doomed
    rw [ranks_drain, posts_updateLevel, posts_interrupt, hposts]
    refine hdoomed.stays ?_ (fun _ _ _ hp => ⟨trivial, hp⟩) ?_
    · intro j r hr hfails
      rw [← hranks] at hr
      obtain ⟨r', hr', hstage, hfailure⟩ := rank_of_interrupt (k := k) hr
      rw [List.getElem?_modify, hr']
      refine ⟨_, rfl, ?_⟩
      split
      · next hkj =>
        subst hkj
        rw [hranks] at hr
        obtain rfl := Option.some.inj (hrank.symm.trans hr)
        refine .inl ⟨rfl, ?_⟩
        change r'.failure ≠ none
        rw [hfailure]
        change l.failure ≠ none
        rw [failure]
        nofun
      · unfold Rank.Fails
        rw [hstage, hfailure]
        exact hfails
    · intro _ _ _ _ _ _ _ _ he
      have hsettles := (s.admission.settles_cancel l.source (.fault f)).trans
        (Admission.settles_foldl_abandon (s₁.ticketsOf (s₁.subtree k)) _)
      change _ ∈ (s₁.interrupt k).admission.pool.settled
      unfold interrupt
      rw [hadmission]
      exact hsettles.subset he
  | @closes result _ _ comes =>
    unfold Doomed
    rw [ranks_close]
    refine hdoomed.stays ?_ (fun _ _ _ hp => ⟨trivial, hp⟩) fun _ _ _ _ _ _ _ _ => id
    intro j r hr hfails
    rw [List.getElem?_modify, hr]
    refine ⟨_, rfl, ?_⟩
    split
    · next hkj =>
      subst hkj
      obtain rfl := Option.some.inj (hrank.symm.trans hr)
      cases comes with
      | told => exact .inr ⟨_, rfl⟩
      | fault => exact .inr ⟨_, rfl⟩
      | total runs fine _ =>
        rcases hfails with ⟨_, hfailure⟩ | ⟨f, hclosed⟩
        · exact absurd fine hfailure
        · cases hclosed.symm.trans runs
    · exact hfails

/-- A walk that is doomed stays so. -/
theorem Shared.doomed_step (h : Shared capacity others s) {a : Actor} (hstep : s.step? env a = some s')
    (hdoomed : s.Doomed) : s'.Doomed := by
  cases a with
  | task i =>
    obtain ⟨t, ht, hstep⟩ := Option.bind_eq_some_iff.mp hstep
    exact (State.along_step
      (P := fun _ c s₁ => Doomed (· ≠ i) s.posts s.ranks s₁.admission ∨ c.Sinks) (Q := State.Doomed) ht
      (fun _ _ => h.doomed_enter hdoomed ht) fun _ _ _ hamid => h.doomed_move ht hamid).2 s' hstep
  | level k =>
    obtain ⟨l, hl, hstep⟩ := Option.bind_eq_some_iff.mp hstep
    exact (State.fate hstep).doomed hl hdoomed

/-- What every step keeps of a walk that shares its pool is kept by many. -/
theorem State.Steps.induct_shared {P : State σ → Prop} {n : Nat} (hsteps : State.Steps env n s s')
    (hshared : Shared capacity others s)
    (hstep : ∀ a s s', Shared capacity others s → s.step? env a = some s' → P s → P s') (hs : P s) :
    Shared capacity others s' ∧ P s' :=
  hsteps.induct (P := fun s => Shared capacity others s ∧ P s)
    (fun a s s' hs' h => ⟨h.1.step hs', hstep a s s' h.1 hs' h.2⟩) ⟨hshared, hs⟩

theorem State.Steps.doomed {n : Nat} (hsteps : State.Steps env n s s') (hshared : Shared capacity others s)
    (hdoomed : s.Doomed) : s'.Doomed :=
  (hsteps.induct_shared hshared (fun _ _ _ hshared hstep => hshared.doomed_step hstep) hdoomed).2

theorem State.Doomed.cancel (h : s.Doomed) (source : Nat) (r : Reason) :
    State.Doomed { s with admission := s.admission.cancel source r } :=
  h.settles (s.admission.settles_cancel source r).subset

theorem Shared.doomed_share (h : Shared capacity others s) (hdoomed : s.Doomed) {q : Pool}
    {others' : List Pool.Stake} (hsharing : Pool.Sharing s.admission.pool others q others') :
    State.Doomed { s with admission := { s.admission with pool := q } } := by
  refine hdoomed.stays (fun _ r hr hf => ⟨r, hr, hf⟩) (fun _ _ hi hp => ⟨hi, hp⟩) ?_
  intro i p ticket job y _ hp hqueued hy
  refine hsharing.settled hy ?_
  intro stake hstake count
  exact h.claim_once hp hqueued (List.mem_append_right _ hstake)

/-- A walk that is doomed does not come back with a total. -/
theorem Shared.not_doomed (h : Shared capacity others s) {total : Tally}
    (hresult : s.result? = some (.ok total)) : ¬ s.Doomed := by
  obtain ⟨source, result, htop⟩ := State.closed_of_result (by rw [hresult]; rfl)
  have hended := fun {p : Nat × Phase} (hp : p ∈ s.posts) => h.nested.isEnded_of_topmost htop hp
  have hclosed : result = .ok total := by
    unfold State.result? at hresult
    rw [State.level_stage_eq, htop] at hresult
    exact Option.some.inj hresult
  subst hclosed
  intro hdoomed
  cases hdoomed with
  | @top r rank fails =>
    rw [State.stages_eq, List.getElem?_map, rank] at htop
    obtain ⟨-, hstage⟩ := Prod.mk.inj (Option.some.inj htop)
    rcases fails with ⟨hopen, _⟩ | ⟨f, hfault⟩
    · rw [hstage] at hopen
      cases hopen
    · cases hfault.symm.trans hstage
  | level _ _ _ post awaits =>
    obtain ⟨info, hphase⟩ := awaits
    have := hended (List.mem_of_getElem? post)
    rw [hphase] at this
    cases this
  | ticket _ post queued _ _ =>
    have := hended (List.mem_of_getElem? post)
    rw [queued] at this
    cases this

end Steps

end TreeCensus.Walk
