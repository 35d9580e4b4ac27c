import TreeCensus.Proofs.Walk.Complaints

/-!
# Faults that a walk survives

A fault is forgiven if the fault handler accepts it or if it says that an item is missing: the walk goes
on without the item. As long as all that was offered is forgiven, a walk makes the same steps as with a
fault handler that takes everything, and no call is cut off. Once it has met a fault that is not
forgiven, it comes back with such a fault.
-/

namespace TreeCensus

set_option autoImplicit false

/-- A walk survives the fault. -/
def Fault.Forgiven (accepts : Fault → Bool) (f : Fault) : Prop := (accepts f || f.isMissing) = true

namespace Walk

variable {σ : Type}

/-- The same with a fault handler that takes every fault. -/
def Environment.lenient (env : Environment σ) : Environment σ :=
  { env with
    options.onFault := env.options.onFault.map fun handler =>
      ⟨handler.yields, fun memory f => ((handler.act memory f).1, .ok true)⟩ }

/-- The fault has been offered, and it is not forgiven. -/
def State.Unforgiven (accepts : Fault → Bool) (s : State σ) (f : Fault) : Prop :=
  f ∈ s.offered ∧ ¬ f.Forgiven accepts

/-- Where a task goes on if every fault is taken. -/
def Cursor.lenient : Cursor → Cursor
  | onAnswer job f _ => onAnswer job f (.ok true)
  | giveBack next => giveBack next.lenient
  | c => c

def Course.lenient : Course σ → Course σ
  | goOn t c s => goOn t c.lenient s
  | done s => done s

theorem Job.lenient_forgone (t : Task) (job : Job) : (job.forgone t).lenient = job.forgone t := by
  cases job <;> rfl

section Moves

variable {env : Environment σ} {accepts : Fault → Bool} {answer : PathCall → Except Fault Bool}
  {s s' s₁ : State σ} {i : Nat} {t u : Task} {c d : Cursor}

theorem Environment.lenient_onFault {handler : Handler σ Fault (Except Fault Bool)}
    (h : env.options.onFault = some handler) : env.lenient.options.onFault =
      some ⟨handler.yields, fun memory f => ((handler.act memory f).1, .ok true)⟩ := by
  change env.options.onFault.map _ = _
  rw [h]
  rfl

theorem Environment.Candid.lenient (h : env.Candid accepts answer) :
    env.lenient.Candid (fun _ => true) answer := by
  obtain ⟨handler, hhandler, -⟩ := h.onFault
  exact ⟨⟨_, lenient_onFault hhandler, fun _ _ => rfl⟩, h.onPath, h.files, h.answers, h.refusal⟩

/-- A move is the same if what was offered is forgiven. -/
theorem Cursor.lenient_move (henv : env.Candid accepts answer) (hc : c.Candid accepts s.offered)
    (hforgiven : ∀ f ∈ s.offered, f.Forgiven accepts) :
    c.lenient.move env.lenient i u s = (c.move env i u s).lenient := by
  obtain ⟨handler, hhandler, hanswer⟩ := henv.onFault
  have hlenient := Environment.lenient_onFault hhandler
  cases c with
  | onAnswer job f response =>
    obtain ⟨hoffered, rfl⟩ := hc
    have hf : (accepts f || f.isMissing) = true := hforgiven f hoffered
    simp only [lenient, move, Bool.true_or, hf, if_true, Course.lenient, Job.lenient_forgone]
  | consult job f => simp only [lenient, move, hlenient, hhandler, Course.lenient]
  | offer job f =>
    simp only [lenient, move, hlenient, hhandler]
    (repeat' split) <;> rfl
  | giveBack next =>
    simp only [lenient, move]
    split <;> rfl
  | follow o =>
    simp only [lenient]
    cases o <;> simp only [move, Environment.lenient] <;> (repeat' split) <;> rfl
  | begin job | answer job =>
    simp only [lenient]
    cases job <;> simp only [move, Environment.lenient] <;> (repeat' split) <;> rfl
  | onReply info tally response =>
    simp only [lenient]
    rcases response with f | _ | _ <;> simp only [move] <;> (repeat' split) <;> rfl
  | enter info =>
    simp only [lenient, move]
    split
    · change (if env.options.walkLinks then _ else _) = _
      split <;> rfl
    · rfl
    · rfl
    · rfl
  | conclude | accept | stop => rfl
  | _ =>
    simp only [lenient, move, Environment.lenient]
    (repeat' split) <;> rfl

theorem State.entry?_lenient (s : State σ) (t : Task) :
    ( s.entry? env.lenient t) = ( s.entry? env t) := rfl

theorem State.Enters.lenient_eq (h : s.Enters env t c s₁) : c.lenient = c := by
  cases h <;> rfl

/-- Whatever was offered stays offered. -/
theorem Cursor.offered_run (env : Environment σ) (i : Nat) (t : Task) (c : Cursor) (s : State σ) :
    s.offered ⊆ (c.run env i t s).offered := by
  refine Cursor.run_of_moves (P := fun _ _ s₁ => s.offered ⊆ s₁.offered)
    (Q := fun s' => s.offered ⊆ s'.offered) ?_ t c s (List.Subset.refl _)
  intro u d s₁ hmore
  obtain ⟨new, -, htrace⟩ := d.notes_move env i u s₁
  have hlater : ∀ {s₂ : State σ}, s₂.trace = new ++ s₁.trace → s.offered ⊆ s₂.offered := by
    intro s₂ htrace
    have hgrown : s₂.offered = new.filterMap Event.offered? ++ s₁.offered := by
      unfold State.offered
      rw [htrace, List.filterMap_append]
    rw [hgrown]
    exact List.subset_append_of_subset_right _ hmore
  cases hcourse : d.move env i u s₁ with
  | goOn v e s₂ =>
    rw [hcourse] at htrace
    exact hlater htrace
  | done s₂ =>
    rw [hcourse] at htrace
    exact hlater htrace

/-- Where the fault handler is asked about a fault. -/
def Cursor.asks? : Cursor → Option Fault
  | consult _ f | onAnswer _ f _ => some f
  | _ => none

/-- The fault handler is asked about whatever is offered. -/
theorem Cursor.offered_move (env : Environment σ) (u : Task) (c : Cursor) (ht : s.posts[i]?.isSome = true) :
    (c.move env i u s).Meets (fun _ d s' => ∀ f ∈ s'.offered, f ∈ s.offered ∨ d.asks? = some f)
      fun s' => ∀ f ∈ s'.offered, f ∈ s.offered ∨
        ∃ p job, s'.posts[i]? = some p ∧ p.2 = .consulting job f := by
  obtain ⟨new, hnotes, htrace⟩ := c.notes_move env i u s
  have hsame : ∀ {s' : State σ}, new.filterMap Event.offered? = [] → s'.trace = new ++ s.trace →
      s'.offered = s.offered := by
    intro s' hnew htrace
    unfold State.offered
    rw [htrace, List.filterMap_append, hnew, List.nil_append]
  have hquiet : new.filterMap Event.offered? = [] → (c.move env i u s).Meets
      (fun _ d s' => ∀ f ∈ s'.offered, f ∈ s.offered ∨ d.asks? = some f)
      fun s' => ∀ f ∈ s'.offered, f ∈ s.offered ∨
        ∃ p job, s'.posts[i]? = some p ∧ p.2 = .consulting job f := by
    intro hnew
    cases hcourse : c.move env i u s with
    | goOn v e s' =>
      rw [hcourse] at htrace
      intro f hf
      rw [hsame hnew htrace] at hf
      exact .inl hf
    | done s' =>
      rw [hcourse] at htrace
      intro f hf
      rw [hsame hnew htrace] at hf
      exact .inl hf
  cases hnotes with
  | nothing => exact hquiet rfl
  | logged => exact hquiet rfl
  | @begun job e start =>
    refine hquiet (List.filterMap_eq_nil_iff.mpr ?_)
    intro e' he'
    rw [List.mem_singleton.mp he']
    cases e with
    | offered => cases start
    | _ => rfl
  | offered job f =>
    clear hquiet hsame htrace
    simp only [move]
    split
    · exact fun g hg => .inl hg
    · split
      · exact fun g hg => .inl hg
      · split
        · intro g hg
          rcases List.mem_cons.mp hg with rfl | hg
          · obtain ⟨p, hp⟩ := Option.isSome_iff_exists.mp ht
            refine .inr ⟨(p.1, .consulting job g), job, ?_, rfl⟩
            rw [State.posts_setPhase]
            change (s.posts.modify i _)[i]? = _
            rw [List.getElem?_modify_eq, hp]
            rfl
          · exact .inl hg
        · intro g hg
          rcases List.mem_cons.mp hg with rfl | hg
          · exact .inr rfl
          · exact .inl hg

end Moves

/-- Something is wrong that ends at the topmost level, or is about to be: the fault handler is asked about
a fault that is not forgiven. Only some of the tasks count. -/
inductive Condemned (accepts : Fault → Bool) (who : Nat → Prop) (posts : List (Nat × Phase))
    (ranks : List Rank) (a : Admission) : Prop
  | doomed (h : Doomed who posts ranks a)
  | asked {i : Nat} {p : Nat × Phase} {job : Job} {f : Fault} (counts : who i) (post : posts[i]? = some p)
      (asks : p.2 = .consulting job f) (unforgiven : ¬ f.Forgiven accepts)

def State.Condemned (accepts : Fault → Bool) (s : State σ) : Prop :=
  Walk.Condemned accepts (fun _ => True) s.posts s.ranks s.admission

/-- The same in the midst of a step of the task `i`. -/
def State.Condemning (accepts : Fault → Bool) (s₀ : State σ) (i : Nat) (c : Cursor) (s : State σ) : Prop :=
  Walk.Condemned accepts (· ≠ i) s₀.posts s₀.ranks s.admission ∨ c.Sinks ∨
    ∃ f, c.asks? = some f ∧ ¬ f.Forgiven accepts

section Steps

variable {env : Environment σ} {accepts : Fault → Bool} {answer : PathCall → Except Fault Bool}
  {capacity : Int} {others : List Pool.Stake} {lost : List Event} {s s' s₁ s₂ : State σ} {i : Nat}
  {t u : Task} {c d : Cursor}

/-- A task that ends its step leaves the others where they are. -/
theorem Deed.posts_other (h : Deed env i u s₂ d (.done s')) {j : Nat} {p : Nat × Phase} (hij : j ≠ i)
    (hp : s₂.posts[j]? = some p) : s'.posts[j]? = some p := by
  have hmodify : ∀ {posts : List (Nat × Phase)} {phase : Phase}, posts[j]? = some p →
      (posts.modify i fun p => (p.1, phase))[j]? = some p := by
    intro posts phase hp
    rwa [List.getElem?_modify_ne _ _ hij.symm]
  cases h with
  | conclude result =>
    rw [State.posts_conclude]
    exact hmodify hp
  | queue =>
    rw [State.posts_setPhase]
    exact hmodify hp
  | rest _ _ standings _ _ _ =>
    rw [State.posts_of_standings standings]
    exact hmodify hp
  | descend =>
    rw [State.posts_setPhase, State.posts_openLevel]
    refine hmodify ?_
    rwa [List.getElem?_append_left (List.getElem?_eq_some_iff.mp hp).1]

theorem Shared.condemned_enter (h : Shared capacity others s) (hs : s.Condemned accepts)
    (ht : s.tasks[i]? = some t) (henters : s.Enters env t c s₁) : s.Condemning accepts i c s₁ := by
  cases hs with
  | doomed hdoomed => exact (h.doomed_enter hdoomed ht henters).imp .doomed .inl
  | @asked j p job f _ post asks unforgiven =>
    by_cases hij : j = i
    · subst hij
      obtain rfl := Option.some.inj (post.symm.trans (State.posts_of_task ht))
      have hphase : t.phase = .consulting job f := asks
      right
      cases henters with
      | drops => exact .inl trivial
      | consults phase =>
        obtain ⟨-, rfl⟩ := Phase.consulting.inj (phase.symm.trans hphase)
        exact .inr ⟨_, rfl, unforgiven⟩
      | ends _ idle _ =>
        rw [hphase] at idle
        cases idle
      | starts phase | refused phase _ | called phase _ _ | admitted phase _ _ | answers phase _
      | logged phase _ | failed phase _ | resumes phase _ => cases phase.symm.trans hphase
    · exact .inl (.asked hij post asks unforgiven)

theorem Shared.condemned_move (h : Shared capacity others s) (henv : env.Candid accepts answer)
    (ht : s.tasks[i]? = some t) (hamid : s.Amid env i u d s₂) (hd : d.Candid accepts s₂.offered)
    (hs : s.Condemning accepts i d s₂) :
    (d.move env i u s₂).Meets (fun _ => s.Condemning accepts i) (State.Condemned accepts) := by
  have hdoomed : (Doomed (· ≠ i) s.posts s.ranks s₂.admission ∨ d.Sinks) →
      (d.move env i u s₂).Meets (fun _ => s.Condemning accepts i) (State.Condemned accepts) := by
    intro hdoomed
    have hnext := h.doomed_move ht hamid hdoomed
    cases hcourse : d.move env i u s₂ with
    | goOn v e s₃ =>
      rw [hcourse] at hnext
      exact Or.imp .doomed .inl hnext
    | done s₃ =>
      rw [hcourse] at hnext
      exact .doomed hnext
  rcases hs with (hothers | ⟨counts, post, asks, unforgiven⟩) | hsinks | ⟨f, hasks, hunforgiven⟩
  · exact hdoomed (.inl hothers)
  · obtain ⟨-, hstandings, -⟩ := hamid.unmoved ht
    have hposts : s₂.posts = s.posts := by rw [State.posts_eq, State.posts_eq, hstandings]
    have hdeed := d.deed_move env i u s₂
    cases hcourse : d.move env i u s₂ with
    | goOn v e s₃ => exact .inl (.asked counts post asks unforgiven)
    | done s₃ =>
      rw [hcourse] at hdeed
      exact .asked trivial (hdeed.posts_other counts (by rwa [hposts])) asks unforgiven
  · exact hdoomed (.inr hsinks)
  · obtain ⟨handler, hhandler, -⟩ := henv.onFault
    cases d with
    | consult job g =>
      simp only [Cursor.move, hhandler]
      exact .inr (.inr ⟨f, hasks, hunforgiven⟩)
    | onAnswer job g response =>
      obtain ⟨-, rfl⟩ := hd
      obtain rfl := Option.some.inj hasks
      simp only [Cursor.move]
      split
      · next hforgiven => exact absurd hforgiven hunforgiven
      · exact .inr (.inl trivial)
    | _ => cases hasks

theorem Reckoned.condemned_step (h : Reckoned env answer lost s) (henv : env.Candid accepts answer)
    (hshared : Shared capacity others s) (hs : s.Condemned accepts) {a : Actor}
    (hstep : s.step? env a = some s') : s'.Condemned accepts := by
  cases a with
  | task i =>
    obtain ⟨t, ht, hstep⟩ := Option.bind_eq_some_iff.mp hstep
    have hcandid := (h.task henv hshared ht).1
    exact (State.along_step (P := fun _ => s.Condemning accepts i) ht
      (fun c s₁ => hshared.condemned_enter hs ht) fun u d s₂ hamid hnow =>
        hshared.condemned_move henv ht hamid (hcandid u d s₂ hamid).candid hnow).2 s' hstep
  | level k =>
    obtain ⟨l, hl, hstep⟩ := Option.bind_eq_some_iff.mp hstep
    have hfate := State.fate hstep
    cases hs with
    | doomed hdoomed => exact .doomed (hfate.doomed hl hdoomed)
    | @asked i p job f _ post asks unforgiven =>
      have hposts : s'.posts[i]? = some p := by
        cases hfate with
        | fails =>
          rw [State.posts_updateLevel, State.posts_interrupt]
          exact post
        | closes => exact post
      exact .asked trivial hposts asks unforgiven

/-- A walk that is condemned does not come back with a total. -/
theorem Shared.not_condemned (h : Shared capacity others s) {total : Tally}
    (hresult : s.result? = some (.ok total)) : ¬ s.Condemned accepts := by
  intro hs
  cases hs with
  | doomed hdoomed => exact h.not_doomed hresult hdoomed
  | asked _ post asks _ =>
    have hended := State.ended_of_result h.nested (by rw [hresult]; rfl) (List.mem_of_getElem? post)
    rw [asks] at hended
    cases hended

/-- As long as all that was offered is forgiven, a fault handler that takes everything makes no
difference; if something else is offered, it is offered to that handler, too. -/
theorem Reckoned.lenient_step (h : Reckoned env answer lost s) (henv : env.Candid accepts answer)
    (hshared : Shared capacity others s) (hforgiven : ∀ f ∈ s.offered, f.Forgiven accepts)
    (hstep : s.step? env (.task i) = some s') : ∃ s₁, s.step? env.lenient (.task i) = some s₁ ∧
      ((s' = s₁ ∧ ∀ f ∈ s'.offered, f.Forgiven accepts) ∨
        s'.Condemned accepts ∧ ∃ f, s₁.Unforgiven accepts f) := by
  obtain ⟨t, ht, hstep⟩ := Option.bind_eq_some_iff.mp hstep
  have hcandid := (h.task henv hshared ht).1
  obtain ⟨c, s₂, hentry, rfl⟩ := State.exists_entry hstep
  have henters := State.enters hentry
  refine ⟨c.run env.lenient i t s₂, ?_, ?_⟩
  · refine Option.bind_eq_some_iff.mpr ⟨t, ht, ?_⟩
    rw [State.stepTask?_eq, State.entry?_lenient, hentry]
    rfl
  generalize hend : c.run env.lenient i t s₂ = s₁
  refine Cursor.run_of_moves (P := fun u d s₃ => s.Amid env i u d s₃ ∧
    ((d.lenient.run env.lenient i u s₃ = s₁ ∧ ∀ f ∈ s₃.offered, f.Forgiven accepts) ∨
      s.Condemning accepts i d s₃ ∧ ∃ f, s₁.Unforgiven accepts f))
    (Q := fun s' => (s' = s₁ ∧ ∀ f ∈ s'.offered, f.Forgiven accepts) ∨
      s'.Condemned accepts ∧ ∃ f, s₁.Unforgiven accepts f) ?_ t c s₂ ⟨.enter ht hentry, .inl ⟨?_, ?_⟩⟩
  · rintro u d s₃ ⟨hamid, hnow⟩
    have hd := (hcandid u d s₃ hamid).candid
    rcases hnow with ⟨hlenient, hfine⟩ | ⟨hcondemning, hoffered⟩
    · obtain ⟨-, hstandings, -⟩ := hamid.unmoved ht
      have hpost : s₃.posts[i]?.isSome = true := by
        rw [State.posts_eq, hstandings, ← State.posts_eq, State.posts_of_task ht]
        rfl
      have hnew := d.offered_move env u hpost
      rw [← d.lenient.last_move, Cursor.lenient_move henv hd hfine] at hlenient
      cases hcourse : d.move env i u s₃ with
      | goOn v e s₄ =>
        rw [hcourse] at hlenient hnew
        refine ⟨.next hamid hcourse, ?_⟩
        by_cases hall : ∀ f ∈ s₄.offered, f.Forgiven accepts
        · exact .inl ⟨hlenient, hall⟩
        · push Not at hall
          obtain ⟨f, hf, hunforgiven⟩ := hall
          have hasks : e.asks? = some f := (hnew f hf).resolve_left fun hold =>
            hunforgiven (hfine f hold)
          refine .inr ⟨.inr (.inr ⟨f, hasks, hunforgiven⟩), f, ?_, hunforgiven⟩
          rw [← hlenient]
          exact Cursor.offered_run env.lenient i v e.lenient s₄ hf
      | done s₄ =>
        rw [hcourse] at hlenient hnew
        obtain rfl : s₄ = s₁ := hlenient
        by_cases hall : ∀ f ∈ s₄.offered, f.Forgiven accepts
        · exact .inl ⟨rfl, hall⟩
        · push Not at hall
          obtain ⟨f, hf, hunforgiven⟩ := hall
          obtain ⟨p, job, hp, hasks⟩ := (hnew f hf).resolve_left fun hold =>
            hunforgiven (hfine f hold)
          exact .inr ⟨.asked trivial hp hasks hunforgiven, f, hf, hunforgiven⟩
    · have hnext := hshared.condemned_move henv ht hamid hd hcondemning
      cases hcourse : d.move env i u s₃ with
      | goOn v e s₄ =>
        rw [hcourse] at hnext
        exact ⟨.next hamid hcourse, .inr ⟨hnext, hoffered⟩⟩
      | done s₄ =>
        rw [hcourse] at hnext
        exact .inr ⟨hnext, hoffered⟩
  · rw [henters.lenient_eq, hend]
  · rw [State.offered_of_trace henters.trace]
    exact hforgiven

end Steps

section Blame

variable {accepts : Fault → Bool} {P : Fault → Prop} {standings : List Standing} {ranks : List Rank}
  {a : Admission}

/-- If nothing is to blame, all levels that are open run, and so does all that is above them. -/
theorem Honest.sheltered (h : Honest P standings ranks a) (hP : ∀ f, ¬ P f)
    {net : Cancellation.Network Nat}
    (hnested : Nested (standings.map fun x => (x.level, x.phase)) (ranks.map fun r => (r.source, r.stage)) net)
    (k : Nat) : ∀ r, ranks[k]? = some r → r.stage.isClosed = false → Sheltered standings ranks k := by
  have hstage : ∀ {j : Nat} {r : Rank}, ranks[j]? = some r →
      (ranks.map fun r => (r.source, r.stage))[j]? = some (r.source, r.stage) := by
    intro j r hr
    rw [List.getElem?_map, hr]
    rfl
  have hruns : ∀ {j : Nat} {r : Rank}, ranks[j]? = some r → r.stage.isClosed = false →
      Clean standings ranks j → r.stage = .running := by
    intro j r hr hopen hclean
    cases hat : r.stage with
    | running => rfl
    | draining f => exact absurd ((h.levels j r hr hclean).draining f hat) (hP f)
    | closed => cases hat ▸ hopen
  induction k using Nat.strongRecOn with
  | ind k ih =>
    intro r hr hopen
    suffices hclean : Clean standings ranks k from ⟨hclean, r, hr, hruns hr hopen hclean⟩
    rcases Nat.eq_zero_or_pos k with rfl | hk
    · exact .top
    · obtain ⟨p, hp, hlt, info, hawaits⟩ := hnested.awaited k r.source r.stage hk (hstage hr) hopen
      have hplaced := hnested.placed p hp
      obtain ⟨x, hx, rfl⟩ := List.mem_map.mp hp
      rw [List.length_map] at hplaced
      have habove := List.getElem?_eq_getElem hplaced
      have hgoes : ranks[x.level].stage.isClosed = false := by
        apply Classical.byContradiction
        intro hclosed
        have hended := hnested.isEnded_of_isClosed (hstage habove) (by simpa using hclosed) hp rfl
        rw [hawaits] at hended
        cases hended
      obtain ⟨hclean, q, hq, hrunning⟩ := ih x.level hlt _ habove hgoes
      exact .under hx hawaits hclean hq hrunning

/-- What goes wrong by itself in an environment that is candid is a fault that is not forgiven. -/
theorem Cursor.Candid.proper {c : Cursor} {offered : List Fault} (h : c.Candid accepts offered)
    (hP : ∀ f ∈ offered, ¬ f.Forgiven accepts → P f) (s : State σ) : c.Proper P s := by
  cases c with
  | onAnswer job f response =>
    obtain ⟨hf, rfl⟩ := h
    intro hfails
    refine hP f hf ?_
    unfold Fault.Forgiven
    rw [hfails]
    nofun
  | offer job f =>
    intro hf
    subst hf
    exact absurd rfl h
  | onReply info tally response =>
    cases response with
    | ok => trivial
    | error f =>
      intro hf
      rw [(h f rfl).2] at hf
      cases hf
  | stop info tally reply =>
    intro r hr
    rw [h.1] at hr
    cases hr
  | _ => trivial

end Blame

/-- All that was offered is forgiven, no call was cut off, and a fault handler that takes everything would
not have made a difference. -/
structure Along (env : Environment σ) (accepts : Fault → Bool) (s₀ : State σ) (lost : List Event)
    (s : State σ) : Prop where
  whole : lost = []
  steps : ∃ n, State.Steps env.lenient n s₀ s
  forgiven : ∀ f ∈ s.offered, f.Forgiven accepts

/-- The walk will fail, and with a fault handler that takes everything it could have met a fault that is
not forgiven. -/
structure Parted (env : Environment σ) (accepts : Fault → Bool) (s₀ s : State σ) : Prop where
  condemned : s.Condemned accepts
  meets : ∃ n s', State.Steps env.lenient n s₀ s' ∧ ∃ f, s'.Unforgiven accepts f

/-- What is known of a walk at each moment about the faults it has met. -/
structure Tolerant (env : Environment σ) (accepts : Fault → Bool) (answer : PathCall → Except Fault Bool)
    (capacity : Int) (s₀ : State σ) (lost : List Event) (s : State σ) : Prop where
  reckoned : Reckoned env answer lost s
  plugged : Plugged capacity [] s
  honest : Honest (s.Unforgiven accepts) s.standings s.ranks s.admission
  course : Along env accepts s₀ lost s ∨ Parted env accepts s₀ s

section Tours

variable {env : Environment σ} {accepts : Fault → Bool} {answer : PathCall → Except Fault Bool}
  {capacity : Int} {lost : List Event} {s₀ s s' : State σ} {a : Actor}

theorem State.offered_step (hstep : s.step? env a = some s') : s.offered ⊆ s'.offered := by
  cases a with
  | task i =>
    obtain ⟨t, _, hstep⟩ := Option.bind_eq_some_iff.mp hstep
    obtain ⟨c, s₁, hentry, rfl⟩ := exists_entry hstep
    rw [← offered_of_trace (State.enters hentry).trace]
    exact c.offered_run env i t s₁
  | level k =>
    obtain ⟨l, _, hstep⟩ := Option.bind_eq_some_iff.mp hstep
    rw [offered_of_trace (State.fate hstep).trace]
    exact List.Subset.refl _

theorem State.Steps.concat {n : Nat} (h : State.Steps env n s₀ s) (hstep : s.step? env a = some s') :
    State.Steps env (n + 1) s₀ s' := h.trans (.cons hstep (.refl _))

namespace Tolerant

theorem start (env : Environment σ) (accepts : Fault → Bool) (answer : PathCall → Except Fault Bool)
    {caller : Caller σ} (paths : List Path) (hpool : Pool.Serves caller.pool []) :
    Tolerant env accepts answer caller.pool.capacity (State.start env caller paths) []
      (State.start env caller paths) :=
  ⟨.start env answer caller paths, .start env paths hpool, .start _ env caller paths,
    .inl ⟨rfl, ⟨0, .refl _⟩, fun _ hf => nomatch hf⟩⟩

/-- As long as all that was offered is forgiven, no level fails and nobody has been told to end. -/
theorem calm (h : Tolerant env accepts answer capacity s₀ lost s)
    (hforgiven : ∀ f ∈ s.offered, f.Forgiven accepts) :
    (∀ (k : Nat) (l : Level), s.levels[k]? = some l → l.stage = .running → l.failure = none) ∧
      ∀ t ∈ s.tasks, t.phase.isEnded = false → t.interrupted = false := by
  have hnone : ∀ f, ¬ s.Unforgiven accepts f := fun f hf => hf.2 (hforgiven f hf.1)
  have hnested := h.plugged.nested
  rw [State.posts_eq, State.stages_eq] at hnested
  have hsheltered := h.honest.sheltered hnone hnested
  refine ⟨?_, ?_⟩
  · intro k l hl hruns
    have hrank := s.rank_of_level k hl
    obtain ⟨hclean, -⟩ := hsheltered k l.rank hrank (by rw [show l.rank.stage = _ from hruns]; rfl)
    have hexcused := h.honest.levels k l.rank hrank hclean
    exact Option.eq_none_iff_forall_ne_some.mpr fun f hf => hnone f (hexcused.failure hruns f hf)
  · intro t ht hgoes
    obtain ⟨i, hi⟩ := List.getElem?_of_mem ht
    obtain ⟨l, hl, hopen⟩ := h.plugged.level_open hi hgoes
    exact h.honest.free t.standing (List.mem_map_of_mem ht)
      (hsheltered t.level l.rank (s.rank_of_level _ hl) hopen)

theorem step (h : Tolerant env accepts answer capacity s₀ lost s) (henv : env.Candid accepts answer)
    (hsize : 1 ≤ capacity) (hstep : s.step? env a = some s') :
    Tolerant env accepts answer capacity s₀ (s.cutOff a ++ lost) s' := by
  have hshared := h.plugged.toShared
  have hmore := State.offered_step hstep
  refine ⟨h.reckoned.step henv hshared hstep, h.plugged.step hstep, ?_, ?_⟩
  · have hhonest := h.honest.mono fun f (hf : s.Unforgiven accepts f) => (⟨hmore hf.1, hf.2⟩ : s'.Unforgiven accepts f)
    refine hhonest.step h.plugged hsize ?_ ?_ hstep
    · intro line f hrefusal
      rw [henv.refusal] at hrefusal
      cases hrefusal
    · rintro i u c s₁ rfl hamid
      obtain ⟨t, ht, hstep⟩ := Option.bind_eq_some_iff.mp hstep
      have hlater := c.offered_run env i u s₁
      rw [hamid.run_eq ht hstep] at hlater
      exact ((h.reckoned.task henv hshared ht).1 u c s₁ hamid).candid.proper
        (fun f hf hunforgiven => ⟨hlater hf, hunforgiven⟩) s₁
  · rcases h.course with halong | hparted
    · obtain ⟨hfine, hfree⟩ := h.calm halong.forgiven
      obtain ⟨n, hsteps⟩ := halong.steps
      cases a with
      | level k =>
        have hsteps' : State.Steps env.lenient (n + 1) s₀ s' := hsteps.concat (a := .level k) hstep
        obtain ⟨l, hl, hstep⟩ := Option.bind_eq_some_iff.mp hstep
        cases State.fate hstep with
        | fails runs failure =>
          rw [hfine k l hl runs] at failure
          cases failure
        | closes => exact .inl ⟨halong.whole, ⟨_, hsteps'⟩, halong.forgiven⟩
      | task i =>
        obtain ⟨s₁, hlenient, hafter⟩ := h.reckoned.lenient_step henv hshared halong.forgiven hstep
        rcases hafter with ⟨rfl, hforgiven⟩ | ⟨hcondemned, hunforgiven⟩
        · refine .inl ⟨?_, ⟨_, hsteps.concat hlenient⟩, hforgiven⟩
          obtain ⟨t, ht, -⟩ := Option.bind_eq_some_iff.mp hstep
          rw [State.cutOff_task ht, halong.whole]
          split
          · next htold =>
            have hended : t.phase.isEnded = true := by
              apply Classical.byContradiction
              intro hgoes
              have := hfree t (List.mem_of_getElem? ht) (by simpa using hgoes)
              rw [htold] at this
              cases this
            unfold Task.inProgress?
            cases hphase : t.phase with
            | ended => rfl
            | _ => simp [hphase, Phase.isEnded] at hended
          · rfl
        · exact .inr ⟨hcondemned, _, _, hsteps.concat hlenient, hunforgiven⟩
    · obtain ⟨n, s₁, hsteps, hunforgiven⟩ := hparted.meets
      exact .inr ⟨h.reckoned.condemned_step henv hshared hparted.condemned hstep, n, s₁, hsteps, hunforgiven⟩

theorem of_tour (henv : env.Candid accepts answer) (hsize : 1 ≤ capacity)
    (hs : Tolerant env accepts answer capacity s₀ [] s₀) (htour : s₀.Tour env lost s) :
    Tolerant env accepts answer capacity s₀ lost s :=
  htour.induct hs fun _ _ _ _ hstep h => h.step henv hsize hstep

/-- A walk that has come back has no call in progress. -/
theorem inProgress_eq_nil (h : Tolerant env accepts answer capacity s₀ lost s)
    (hresult : s.result?.isSome = true) : s.inProgress = [] := by
  unfold State.inProgress
  rw [List.filterMap_eq_nil_iff]
  intro t ht
  have hended := State.ended_of_result h.plugged.nested hresult (p := (t.level, t.phase)) (List.mem_map_of_mem ht)
  unfold Task.inProgress?
  cases hphase : t.phase with
  | calling job => simp [hphase, Phase.isEnded] at hended
  | _ => rfl

/-- A walk that comes back with a total has met nothing that is not forgiven. -/
theorem along (h : Tolerant env accepts answer capacity s₀ lost s) {total : Tally}
    (hresult : s.result? = some (.ok total)) : Along env accepts s₀ lost s :=
  h.course.resolve_right fun hparted => h.plugged.not_condemned hresult hparted.condemned

/-- A walk that fails does so with a fault that it has met and that is not forgiven. -/
theorem parted (h : Tolerant env accepts answer capacity s₀ lost s) {f : Fault}
    (hresult : s.result? = some (.error f)) : s.Unforgiven accepts f ∧ Parted env accepts s₀ s := by
  have hf := h.honest.result hresult
  exact ⟨hf, h.course.resolve_left fun halong => hf.2 (halong.forgiven f hf.1)⟩

end Tolerant

theorem failure?_eq_some {α : Type} {x : Except Fault α} {f : Fault} :
    Walk.failure? x = some f ↔ x = .error f := by
  cases x <;> simp [Walk.failure?]

/-- No call fails because its task is told to end, and if one fails with a cancellation, it is the file
system that says so. -/
theorem Environment.Candid.failure (henv : env.Candid accepts answer) {e : Event} {f : Fault}
    (he : env.failure? answer e = some f) :
    f.kind ≠ .interrupted ∧ (f.isCancellation = true → env.files.Raises f) := by
  have hraises : env.files.Raises f → f.kind ≠ .interrupted ∧ (f.isCancellation = true → env.files.Raises f) :=
    fun hf => ⟨henv.files f hf, fun _ => hf⟩
  cases e with
  | stated p => exact hraises ⟨p, .inl (failure?_eq_some.mp he)⟩
  | linkRead p => exact hraises ⟨p, .inr (.inl (failure?_eq_some.mp he))⟩
  | listed p => exact hraises ⟨p, .inr (.inr (failure?_eq_some.mp he))⟩
  | reported c =>
    obtain ⟨_, _, hc⟩ := Option.bind_eq_some_iff.mp he
    obtain ⟨hkind, hfresh⟩ := henv.answers c f (failure?_eq_some.mp hc)
    refine ⟨hkind, fun hcancels => ?_⟩
    rw [hfresh] at hcancels
    cases hcancels
  | offered | logged => cases he

end Tours

end Walk

end TreeCensus
