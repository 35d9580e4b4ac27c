import TreeCensus.Proofs.Walk.Course
import TreeCensus.Proofs.Walk.Progress

/-!
# Steps of an undisturbed walk

Every step of an undisturbed walk, of a task or of a level, uses up some of the bound on its work and
leaves what the walk comes to as it was.
-/

namespace TreeCensus.Walk

set_option autoImplicit false

open Pool (Serves Stake)

variable {σ : Type} {plan : Plan} {env : Environment σ} {fuel bound i : Nat} {capacity : Int}
  {sums : List Tally} {goal : List Mark} {s₀ s s' : State σ} {u t : Task} {c : Cursor}

theorem Midst.leads (hguides : plan.Guides env) (hgoal : ∀ id, goal.count (.met id) ≤ 1)
    (h : Midst plan fuel sums goal bound s₀ i u t c s) (hbegins : Begins plan fuel s₀ i u)
    (hopen : (s.level u.level).stage = .running) (hsize : 1 ≤ s.admission.pool.capacity)
    {others : List Stake} (hserves : Serves s.admission.pool (c.stakes ++ others)) :
    Leads plan fuel sums goal bound s₀ i u (c.move env i t s) := by
  cases c with
  | conclude result => exact h.leads_conclude hbegins
  | log tally => exact h.leads_log hguides hbegins
  | accept tally => exact h.leads_accept hopen
  | seek job => exact h.leads_seek hbegins hsize
  | follow o => exact h.leads_follow hguides
  | enter info => exact h.leads_enter hguides hbegins
  | onInfo info => exact h.leads_onInfo hbegins hgoal
  | onTarget info target => exact h.fits.elim
  | onEntries info names => exact h.leads_onEntries hguides hbegins
  | giveBack next => exact h.leads_giveBack hserves
  | onAnswer job f response => exact h.leads_onAnswer hbegins
  | consult job f => exact h.leads_consult hguides
  | offer job f => exact h.leads_offer hguides hbegins
  | onReply info tally response => exact h.leads_onReply
  | stop info tally reply => exact h.leads_stop
  | report info tally => exact h.leads_report hguides hbegins
  | begin job => exact h.leads_begin hguides hbegins
  | answer job => exact h.leads_answer hguides

namespace Placid

/-- A level that is closed came to what it was to come to. -/
theorem closed_eq (h : Placid plan fuel sums goal bound s)
    (hnested : Nested s.posts s.stages s.admission.network) {k : Nat} {l : Level}
    (hl : s.levels[k]? = some l) {result : Except Fault Tally} (hclosed : l.stage = .closed result) :
    ∃ total, sums[k]? = some total ∧ result = .ok total := by
  have hcalm := h.levels l (List.mem_of_getElem? hl)
  have hresult : result = .ok l.total := by
    rcases hcalm.stage with hrunning | hstage
    · rw [hclosed] at hrunning
      cases hrunning
    · rw [hclosed] at hstage
      exact Stage.closed.inj hstage
  refine ⟨l.total, ?_, hresult⟩
  have hstage := State.stages_of_level hl
  rw [hclosed] at hstage
  have hshares := h.balanced.shares
  have hover : ∀ m ∈ s.lefts plan fuel sums, m.1 = k → m.2.share = none := by
    intro m hm hmk
    obtain ⟨t, ht, rfl⟩ := List.mem_map.mp hm
    have hended := hnested.ended k _ _ hstage (t.level, t.phase) (List.mem_map_of_mem ht) hmk
    unfold Task.left
    cases hphase : t.phase with
    | ended r => rfl
    | _ => simp [hphase, Phase.isEnded] at hended
  rw [← hshares, getElem?_pay hover]
  unfold State.totals
  rw [List.getElem?_map, hl]
  rfl

/-- What a task waits for came to what it was to come to. -/
theorem result_eq (h : Placid plan fuel sums goal bound s)
    (hnested : Nested s.posts s.stages s.admission.network) (hfits : u.Fits plan fuel s.depths) {k : Nat}
    {info : FileInfo} (hphase : u.phase = .descending k info) {result : Except Fault Tally}
    (hclosed : (s.level k).stage = .closed result) : ∃ total, sums[k]? = some total ∧ result = .ok total := by
  have hlevels : k < s.levels.length := by simpa [State.depths] using (hfits.below k info hphase).2
  have hl := List.getElem?_eq_getElem hlevels
  unfold State.level at hclosed
  rw [hl] at hclosed
  exact h.closed_eq hnested hl hclosed

theorem begins (h : Placid plan fuel sums goal bound s)
    (hnested : Nested s.posts s.stages s.admission.network) (hu : s.tasks[i]? = some u) :
    Begins plan fuel s i u := by
  refine ⟨hu, h.tasks, ?_⟩
  intro t ht
  have hplaced := hnested.placed (t.level, t.phase) (List.mem_map_of_mem ht)
  unfold State.depths
  unfold State.stages at hplaced
  rw [List.length_map] at hplaced ⊢
  exact hplaced

/-- The task goes on from where it begins its step. -/
theorem amid (h : Placid plan fuel sums goal bound s) (hu : s.tasks[i]? = some u) {b : Admission}
    (hcalm : b.Calm) (hfits : c.Fits plan (fuel - u.depth s.depths) (u.depth s.depths) u.visit)
    (hyield : (c.left plan (fuel - u.depth s.depths) (u.depth s.depths) u.visit).toYield =
      (u.left plan fuel s.depths sums).toYield)
    (hwork : (c.left plan (fuel - u.depth s.depths) (u.depth s.depths) u.visit).work + 1 ≤
      (u.left plan fuel s.depths sums).work) :
    0 < bound ∧ Midst plan fuel sums goal (bound - 1) s i u u c { s with admission := b } := by
  have hperm := perm_eraseIdx hu
  have hlefts := hperm.map fun t => (t.level, t.left plan fuel s.depths sums)
  obtain ⟨hpos, hbalanced⟩ := (h.balanced.perm hlefts).spend hyield hwork
  exact ⟨hpos, rfl, rfl, rfl, hcalm, h.levels, hfits, hbalanced⟩

theorem enter (hguides : plan.Guides env) (h : Placid plan fuel sums goal bound s₀)
    (hnested : Nested s₀.posts s₀.stages s₀.admission.network) (hu : s₀.tasks[i]? = some u)
    (hentry : s₀.entry? env u = some (c, s)) :
    0 < bound ∧ Midst plan fuel sums goal (bound - 1) s₀ i u u c s := by
  have hfits := h.tasks u (List.mem_of_getElem? hu)
  have hphase := hfits.phase
  have hleft : u.left plan fuel s₀.depths sums =
      u.phase.left plan (fuel - u.depth s₀.depths) (u.depth s₀.depths) u.visit sums := rfl
  have hcollect : ∀ {ticket : Nat} {b : Admission} {failure : Option Fault},
      s₀.admission.collect? ticket 1 (some (s₀.level u.level).source) u.interrupted = some (b, failure) →
        failure = none ∧ b.Calm := by
    rw [hfits.undisturbed]
    exact h.calm.collect
  have hfree : u.interrupted ≠ true := by simp [hfits.undisturbed]
  cases State.enters hentry with
  | ends told => exact absurd told hfree
  | drops told => exact absurd told hfree
  | refused _ collected => cases (hcollect collected).1
  | called _ collected off => cases ((hcollect collected).2.called? _).symm.trans off
  | starts phase =>
    rw [phase] at hphase hleft
    refine h.amid hu h.calm hphase ?_ ?_
    · rw [hleft]
      rfl
    · rw [hleft]
      change 7 + _ + 1 + 1 ≤ 9 + _
      omega
  | admitted phase collected =>
    rw [phase] at hphase hleft
    refine h.amid hu (hcollect collected).2 hphase ?_ ?_
    · rw [hleft]
      rfl
    · rw [hleft]
      exact Nat.le_refl _
  | @answers job phase =>
    rw [phase] at hphase hleft
    refine h.amid hu h.calm hphase ?_ ?_
    · rw [hleft]
      cases job <;> rfl
    · rw [hleft]
      cases job with
      | target found => exact hphase.elim
      | info =>
        change 7 + _ - 1 + 1 ≤ 7 + _
        omega
      | entries found =>
        change 5 + _ - 1 + 1 ≤ 5 + _
        omega
      | report found tally => exact Nat.le_refl 2
  | @consults job f phase =>
    rw [phase] at hphase hleft
    refine h.amid hu h.calm hphase ?_ ?_
    · rw [hleft]
      rfl
    · rw [hleft]
      cases job <;> exact Nat.le_refl _
  | @logged tally phase =>
    rw [phase] at hleft
    refine h.amid hu h.calm ?_ ?_ ?_
    · refine ⟨some tally, ?_⟩
      unfold Environment.logged
      rw [hguides.takes]
    · rw [hleft]
      rfl
    · rw [hleft]
      exact Nat.le_refl 1
  | @failed k info f phase closed =>
    obtain ⟨_, _, hfault⟩ := h.result_eq hnested hfits phase closed
    cases hfault
  | @resumes k info total phase closed =>
    obtain ⟨total, htotal, heq⟩ := h.result_eq hnested hfits phase closed
    obtain rfl := Except.ok.inj heq
    rw [phase] at hleft
    simp only [Phase.left, List.getD_eq_getElem?_getD, htotal, Option.getD_some] at hleft
    obtain ⟨hyield, hwork⟩ := Cursor.left_settle plan (fuel - u.depth s₀.depths)
      (u.depth s₀.depths) u.visit info total
    rw [hfits.outer]
    refine h.amid hu h.calm trivial ?_ ?_
    · rw [hleft, hyield]
    · rw [hleft]
      exact Nat.succ_le_succ hwork

theorem running (h : Placid plan fuel sums goal bound s)
    (hnested : Nested s.posts s.stages s.admission.network) (hu : u ∈ s.tasks)
    (hgoes : u.phase.isEnded = false) : (s.level u.level).stage = .running := by
  have hplaced := hnested.placed (u.level, u.phase) (List.mem_map_of_mem hu)
  unfold State.stages at hplaced
  rw [List.length_map] at hplaced
  have hl := List.getElem?_eq_getElem hplaced
  have hlevel : s.level u.level = s.levels[u.level] := by
    unfold State.level
    rw [hl]
    rfl
  rw [hlevel]
  rcases (h.levels _ (List.mem_of_getElem? hl)).stage with hrunning | hclosed
  · exact hrunning
  · have hstage := State.stages_of_level hl
    rw [hclosed] at hstage
    have hended := hnested.ended _ _ _ hstage (u.level, u.phase) (List.mem_map_of_mem hu) rfl
    rw [hgoes] at hended
    cases hended

/-- At each moment of a step what has been done and what is left come to the same. -/
theorem midst (hguides : plan.Guides env) (hgoal : ∀ id, goal.count (.met id) ≤ 1)
    (h : Placid plan fuel sums goal bound s₀) {own : List Nat}
    (hsound : Scene.Sound capacity ⟨s₀, own, []⟩) (hsize : 1 ≤ capacity)
    (hu : s₀.tasks[i]? = some u) (hamid : s₀.Amid env i t c s) :
    0 < bound ∧ Midst plan fuel sums goal (bound - 1) s₀ i u t c s ∧
      Leads plan fuel sums goal (bound - 1) s₀ i u (c.move env i t s) := by
  have hsource := hsound.source_ne hu
  have hbegins := h.begins hsound.nested hu
  have hposts := State.posts_of_task hu
  have hleads : ∀ {t : Task} {c : Cursor} {s : State σ}, u.phase.isEnded = false →
      Midst plan fuel sums goal (bound - 1) s₀ i u t c s →
        Advances i u.level u.phase.stakes s₀ (.goOn t c s) →
          Leads plan fuel sums goal (bound - 1) s₀ i u (c.move env i t s) := by
    intro t c s hgoes hmidst hadvances
    have hopen := h.running hsound.nested (List.mem_of_getElem? hu) hgoes
    cases hadvances with
    | onward place balanced posts stages trade =>
      have hserves := trade.serves (s₀.stakesBut i) ?_
      · refine hmidst.leads hguides hgoal hbegins ?_ ?_ hserves
        · rw [State.level_stage_eq, stages, ← State.level_stage_eq]
          exact hopen
        · rw [trade.capacity, hsound.capacity]
          exact hsize
      · have hall := hsound.serves
        rw [List.append_nil] at hall
        exact hall.perm (s₀.perm_stakes hposts)
  suffices hnow : u.phase.isEnded = false ∧ 0 < bound ∧ Midst plan fuel sums goal (bound - 1) s₀ i u t c s ∧
      Advances i u.level u.phase.stakes s₀ (.goOn t c s) from
    ⟨hnow.2.1, hnow.2.2.1, hleads hnow.1 hnow.2.2.1 hnow.2.2.2⟩
  induction hamid with
  | enter task entry =>
    obtain rfl := Option.some.inj (hu.symm.trans task)
    obtain ⟨hready, hadvances⟩ := State.advances_entry i entry
    obtain ⟨hpos, hmidst⟩ := h.enter hguides hsound.nested hu entry
    exact ⟨hready.1, hpos, hmidst, hadvances⟩
  | next _ move ih =>
    obtain ⟨hgoes, hpos, hmidst, hadvances⟩ := ih
    have hnext := hadvances.move env hsource
    have hthen := hleads hgoes hmidst hadvances
    rw [move] at hnext hthen
    exact ⟨hgoes, hpos, hthen, hnext⟩

theorem task (hguides : plan.Guides env) (hgoal : ∀ id, goal.count (.met id) ≤ 1)
    (h : Placid plan fuel sums goal bound s₀) {own : List Nat}
    (hsound : Scene.Sound capacity ⟨s₀, own, []⟩) (hsize : 1 ≤ capacity)
    (hu : s₀.tasks[i]? = some u) (hstep : s₀.stepTask? env i u = some s') :
    0 < bound ∧ ∃ more, Placid plan fuel (sums ++ more) goal (bound - 1) s' := by
  obtain ⟨c, s, hentry, rfl⟩ := State.exists_entry hstep
  have hmidst := fun {t : Task} {c : Cursor} {s : State σ} (hamid : s₀.Amid env i t c s) =>
    h.midst hguides hgoal hsound hsize hu hamid
  refine ⟨(hmidst (.enter hu hentry)).1, ?_⟩
  refine Cursor.run_of_moves (P := s₀.Amid env i)
    (Q := fun s' => ∃ more, Placid plan fuel (sums ++ more) goal (bound - 1) s') ?_ u c s (.enter hu hentry)
  intro t d s₁ hamid
  have hleads := (hmidst hamid).2.2
  cases hmove : d.move env i t s₁ with
  | goOn t' d' s₂ => exact .next hamid hmove
  | done s₂ =>
    rw [hmove] at hleads
    exact hleads

theorem opened_close {k : Nat} {l : Level} (hl : s.levels[k]? = some l)
    (hopen : l.stage.isClosed = false) (result : Except Fault Tally) :
    (s.close k result).opened + 1 = s.opened := by
  have hbefore := perm_eraseIdx hl
  have hafter := perm_modify hl fun l => { l with stage := .closed result }
  unfold State.opened
  change (s.levels.modify k _).countP _ + 1 = _
  rw [hafter.countP_eq, hbefore.countP_eq, List.countP_cons_of_neg (by simp [Stage.isClosed]),
    List.countP_cons_of_pos (by simp [hopen])]

theorem level (h : Placid plan fuel sums goal bound s) {k : Nat} {l : Level}
    (hl : s.levels[k]? = some l) (hstep : s.stepLevel? k l = some s') :
    0 < bound ∧ Placid plan fuel sums goal (bound - 1) s' := by
  have hcalm := h.levels l (List.mem_of_getElem? hl)
  unfold State.stepLevel? at hstep
  rcases hcalm.stage with hrunning | hclosed
  · simp only [hrunning, hcalm.failure, hcalm.undisturbed, Bool.false_eq_true, if_false] at hstep
    split at hstep
    · obtain rfl := Option.some.inj hstep
      have hopened := opened_close hl (by rw [hrunning]; rfl) (.ok l.total)
      have htotals : (s.close k (.ok l.total)).totals = s.totals :=
        map_modify_of_eq (f := fun l : Level => { l with stage := .closed _ }) (fun _ => rfl) s.levels k
      have hdepths : (s.close k (.ok l.total)).depths = s.depths :=
        map_modify_of_eq (f := fun l : Level => { l with stage := .closed _ }) (fun _ => rfl) s.levels k
      have hwork := h.balanced.work
      refine ⟨by omega, ?_, ⟨h.calm.fair, h.calm.quiet.detach _⟩, ?_, ?_, ?_, ?_⟩
      · rw [hdepths]
        exact h.tasks
      · intro m hm
        rcases mem_modify hm with hm | ⟨a, ha, rfl⟩
        · exact h.levels m hm
        · obtain rfl := Option.some.inj (hl.symm.trans ha)
          exact ⟨hcalm.failure, hcalm.undisturbed, .inr rfl⟩
      · unfold State.lefts
        rw [htotals, hdepths]
        exact h.balanced.shares
      · unfold State.lefts
        rw [hdepths]
        exact h.balanced.marks
      · unfold State.lefts
        rw [hdepths]
        change ((s.lefts plan fuel sums).map _).sum + _ ≤ bound - 1
        omega
    · cases hstep
  · simp [hclosed] at hstep

end Placid

/-- A walk that has its pool for itself, is not disturbed, and will come to `total` and `goal`. -/
structure Undisturbed (plan : Plan) (fuel : Nat) (capacity : Int) (total : Tally) (goal : List Mark)
    (bound : Nat) (s : State σ) : Prop where
  placid : ∃ more, Placid plan fuel (total :: more) goal bound s
  live : Live capacity s

namespace Undisturbed

variable {total : Tally}

theorem step (hguides : plan.Guides env) (hgoal : ∀ id, goal.count (.met id) ≤ 1) (hsize : 1 ≤ capacity)
    (h : Undisturbed plan fuel capacity total goal bound s) {a : Actor}
    (hstep : s.step? env a = some s') :
    0 < bound ∧ Undisturbed plan fuel capacity total goal (bound - 1) s' := by
  obtain ⟨⟨more, hplacid⟩, hlive⟩ := h
  obtain ⟨own, hsound⟩ := hlive.sound
  have hafter := hlive.step hstep
  cases a with
  | task i =>
    obtain ⟨t, ht, hstep⟩ := Option.bind_eq_some_iff.mp hstep
    obtain ⟨hpos, more', hnext⟩ := hplacid.task hguides hgoal hsound hsize ht hstep
    exact ⟨hpos, ⟨more ++ more', hnext⟩, hafter⟩
  | level k =>
    obtain ⟨l, hl, hstep⟩ := Option.bind_eq_some_iff.mp hstep
    obtain ⟨hpos, hnext⟩ := hplacid.level hl hstep
    exact ⟨hpos, ⟨more, hnext⟩, hafter⟩

theorem steps (hguides : plan.Guides env) (hgoal : ∀ id, goal.count (.met id) ≤ 1) (hsize : 1 ≤ capacity)
    {n : Nat} (hsteps : State.Steps env n s s') :
    ∀ {bound : Nat}, Undisturbed plan fuel capacity total goal bound s →
      n ≤ bound ∧ Undisturbed plan fuel capacity total goal (bound - n) s' := by
  induction hsteps with
  | refl => exact fun h => ⟨Nat.zero_le _, h⟩
  | cons hstep _ ih =>
    intro bound h
    obtain ⟨hpos, hnext⟩ := h.step hguides hgoal hsize hstep
    obtain ⟨hle, hlast⟩ := ih hnext
    refine ⟨by omega, ?_⟩
    rw [Nat.sub_sub, Nat.add_comm] at hlast
    exact hlast

end Undisturbed

end TreeCensus.Walk
